import Xv6.Fs.Basic

namespace Xv6
namespace Fs

open SlotScan StateExcept

variable {fs fs' : Fs} {s : Islot} {k : Nat}

def setIp (fs : Fs) (s : Islot) (ip : Inode) : Fs :=
  { fs with icache := Function.update fs.icache s ip }

@[simp] theorem setIp_self (fs : Fs) (s : Islot) (ip : Inode) : (fs.setIp s ip).icache s = ip :=
  Function.update_self ..

theorem setIp_of_ne {s' : Islot} (h : s' ≠ s) (ip : Inode) :
    (fs.setIp s ip).icache s' = fs.icache s' := Function.update_of_ne h ..

theorem iget_cases (k : Nat) (fs : Fs) :
    (∃ s, 0 < (fs.icache s).ref ∧ (fs.icache s).inum = k ∧ iget k fs =
      .ok (s, fs.setIp s { fs.icache s with ref := (fs.icache s).ref + 1 })) ∨
    (∀ s, 0 < (fs.icache s).ref → (fs.icache s).inum ≠ k) ∧
      ((∃ s, (fs.icache s).ref = 0 ∧ iget k fs =
        .ok (s, fs.setIp s ⟨k, 1, false, false, (fs.icache s).din⟩)) ∨
      (∀ s, (fs.icache s).ref ≠ 0) ∧ iget k fs = .error (.panic .igetNoInodes)) := by
  simp only [iget, bind_get]
  cases h : firstSlot fun s => decide (0 < (fs.icache s).ref ∧ (fs.icache s).inum = k) with
  | some s =>
    have hs := of_decide_eq_true (firstSlot_some h)
    exact Or.inl ⟨s, hs.1, hs.2, rfl⟩
  | none =>
    refine Or.inr ⟨fun s href hinum => ?_, ?_⟩
    · exact of_decide_eq_false (firstSlot_none.mp h s) ⟨href, hinum⟩
    · cases h' : firstSlot fun s => decide ((fs.icache s).ref = 0) with
      | some s => exact Or.inl ⟨s, of_decide_eq_true (firstSlot_some h'), rfl⟩
      | none =>
        exact Or.inr ⟨fun s => of_decide_eq_false (firstSlot_none.mp h' s), rfl⟩

theorem iput_kept (h : (fs.icache s).last = false) :
    iput s fs = .ok ((), fs.setIp s { fs.icache s with ref := (fs.icache s).ref - 1 }) := by
  simp only [iput, bind_get]
  rw [if_neg (by rw [h]; decide)]
  rfl

structure Untouched (fs fs' : Fs) : Prop where
  rest : fs' = { fs with icache := fs'.icache }
  slot : ∀ s, fs'.icache s = fs.icache s ∨ (fs.icache s).ref = 0 ∧ (fs'.icache s).ref = 0

structure Got (fs fs' : Fs) (ip : Islot) (k : Nat) : Prop where
  rest : fs' = { fs with icache := fs'.icache }
  inum : (fs'.icache ip).inum = k
  other : ∀ s, s ≠ ip → fs'.icache s = fs.icache s
  held : 0 < (fs.icache ip).ref →
    fs'.icache ip = { fs.icache ip with ref := (fs.icache ip).ref + 1 }
  fresh : (fs.icache ip).ref ≤ 0 → (fs.icache ip).ref = 0 ∧
    fs'.icache ip = ⟨k, 1, false, false, (fs.icache ip).din⟩ ∧
    ∀ s, 0 < (fs.icache s).ref → (fs.icache s).inum ≠ k

theorem iget_got (k : Nat) (fs : Fs) :
    (∃ ip fs', iget k fs = .ok (ip, fs') ∧ Got fs fs' ip k) ∨
      (∀ s, (fs.icache s).ref ≠ 0 ∧ (0 < (fs.icache s).ref → (fs.icache s).inum ≠ k)) ∧
        iget k fs = .error (.panic .igetNoInodes) := by
  rcases iget_cases k fs with ⟨s, href, hinum, hrun⟩ | ⟨hnone, ⟨s, href, hrun⟩ | ⟨hfull, hrun⟩⟩
  · refine Or.inl ⟨s, _, hrun, rfl, by rw [setIp_self, hinum], fun s' hs => setIp_of_ne hs _,
      fun _ => setIp_self .., fun hle => by omega⟩
  · exact Or.inl ⟨s, _, hrun, rfl, by rw [setIp_self], fun s' hs => setIp_of_ne hs _,
      fun hlt => by omega, fun _ => ⟨href, setIp_self .., hnone⟩⟩
  · exact Or.inr ⟨fun s => ⟨hfull s, hnone s⟩, hrun⟩

theorem got_of_iget {ip : Islot} (h : iget k fs = .ok (ip, fs')) : Got fs fs' ip k := by
  rcases iget_got k fs with ⟨ip', fs₁, hrun, hgot⟩ | ⟨-, hrun⟩
  · rw [h] at hrun
    cases hrun
    exact hgot
  · rw [h] at hrun
    cases hrun

theorem Got.last {ip : Islot} (h : Got fs fs' ip k) : (fs'.icache ip).last = false := by
  rcases lt_or_ge 0 (fs.icache ip).ref with hlt | hge
  · rw [h.held hlt, Inode.last]
    have : (fs.icache ip).ref + 1 ≠ 1 := by omega
    simp [this]
  · rw [(h.fresh hge).2.1]
    rfl

theorem Got.put {ip : Islot} (h : Got fs fs' ip k) :
    Untouched fs (fs'.setIp ip { fs'.icache ip with ref := (fs'.icache ip).ref - 1 }) := by
  refine ⟨by rw [h.rest]; rfl, fun s => ?_⟩
  by_cases hs : s = ip
  · subst hs
    rw [setIp_self]
    rcases lt_or_ge 0 (fs.icache s).ref with hlt | hge
    · left
      rw [h.held hlt]
      simp
    · right
      rw [(h.fresh hge).2.1]
      exact ⟨(h.fresh hge).1, rfl⟩
  · left
    rw [setIp_of_ne hs, h.other s hs]

end Fs
end Xv6
