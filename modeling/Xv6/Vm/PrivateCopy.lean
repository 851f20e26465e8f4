import Xv6.Vm.CopyOutcome
import Xv6.Vm.Growth

namespace Xv6
namespace Vm

variable {L : Layout} {vm vm' : Vm} {role role' : Nat → Role} {s c sz w : Nat}

structure PrivateCopy (s c sz : Nat) (vm vm' : Vm) : Prop where
  copied : ∀ w e, w * pgsize < sz → vm.page s w = some e →
    ∃ q, vm'.page c w = some ⟨q, e.perm⟩ ∧ vm'.data q = vm.data e.page
  distinct : ∀ w < 2 ^ 19, ∀ w' < 2 ^ 19, ∀ e e', vm'.page c w = some e → vm'.page c w' = some e' →
    e.page = e'.page → w = w'
  disjoint : ∀ w < 2 ^ 19, ∀ w' < 2 ^ 19, ∀ e e', vm'.page c w = some e → vm'.page s w' = some e' →
    e.page ≠ e'.page
  above : ∀ w < 2 ^ 19, sz ≤ w * pgsize → vm'.page c w = none
  source : ∀ w, vm'.page s w = vm.page s w
  intact : ∀ w < 2 ^ 19, ∀ e, vm.page s w = some e → vm'.data e.page = vm.data e.page

theorem copyuvm_forks (h : Exact L vm role) (hs : role s = .dir)
    (hsrc : ∀ w < pages sz, w < 2 ^ 19 → (vm.page s w).isSome) :
    (copyCost sz ≤ vm.freelist.length ∧
        ∃ vm' c role', vm.copyuvm L s sz = .ok (vm', some c) ∧ Forks L s c sz vm vm' role role') ∨
      vm.freelist.length < copyCost sz ∧ ∀ vm' c, vm.copyuvm L s sz ≠ .ok (vm', some c) := by
  have hsz := (h.ok.lt_kernbase hs hsrc).le
  have hpages := pages_le hsz
  have hout := copyuvm_outcome h hs hsz
  unfold copyCost
  generalize vm.copyuvm L s sz = r at hout ⊢
  cases hout with
  | missing hw hpage _ =>
    have hsome := hsrc _ hw (by omega)
    rw [hpage] at hsome
    cases hsome
  | undone hfree _ _ =>
    refine .inr ⟨?_, fun _ _ => nofun⟩
    rcases hfree with hzero | ⟨m, hm, hfree⟩ <;> omega
  | lost hfree _ _ _ =>
    refine .inr ⟨?_, fun _ _ => nofun⟩
    rcases hfree with ⟨_, hlt⟩ | ⟨m, hm, hmod, hfree⟩ <;> omega
  | copied hroom _ hf _ _ => exact .inl ⟨hroom, _, _, _, rfl, hf⟩

theorem Forks.privateCopy (h : Exact L vm role) (hs : role s = .dir) (hsz : sz < kernbase)
    (hf : Forks L s c sz vm vm' role role')
    (hperm : ∀ w e, w * pgsize < sz → vm.page s w = some e → e.perm = ⟨true, true⟩) :
    PrivateCopy s c sz vm vm' := by
  have hpages := pages_le hsz.le
  obtain ⟨hs', hc'⟩ := hf.dirs
  refine ⟨fun w e hw he => ?_, fun w hw w' hw' e e' he he' heq => ?_,
    fun w hw w' hw' e e' he he' heq => ?_, fun w hw hle => hf.above w hw ?_, hf.source,
    fun w hw e he => hf.allocates.data _ (h.ok.page_not_free hs hw he)⟩
  · obtain ⟨q, hpage, hdata⟩ := hf.filled w (lt_pages.mp hw)
    refine ⟨q, by rw [hpage, hperm w e hw he], ?_⟩
    rw [hdata, bytesAt, he]
    rfl
  · exact (hf.exact.ok.page_inj hc' hc' hw hw' he he' heq).2
  · have hcs := (hf.exact.ok.page_inj hc' hs' hw hw' he he' heq).1
    have hfree := hf.free
    rw [hcs, hs] at hfree
    cases hfree
  · exact Nat.le_of_not_lt fun hlt => absurd (lt_pages.mpr hlt) (by omega)

theorem PrivateCopy.perm (hf : Forks L s c sz vm vm' role role') (hp : PrivateCopy s c sz vm vm')
    {e : Pte} (hw : w * pgsize < sz) (he : vm.page s w = some e) : e.perm = ⟨true, true⟩ := by
  obtain ⟨q, hpage, _⟩ := hp.copied w e hw he
  obtain ⟨q', hpage', _⟩ := hf.filled w (lt_pages.mp hw)
  rw [hpage] at hpage'
  exact congrArg Pte.perm (Option.some.inj hpage')

theorem copyuvm_private_iff (L : Layout) (vm : Vm) (role : Nat → Role) (s sz : Nat)
    (h : Exact L vm role) (hs : role s = .dir)
    (hsrc : ∀ w < 2 ^ 19, w * pgsize < sz → (vm.page s w).isSome) :
    (∀ vm' c, vm.copyuvm L s sz = .ok (vm', some c) → PrivateCopy s c sz vm vm') ↔
      (copyCost sz ≤ vm.freelist.length →
        ∀ w e, w * pgsize < sz → vm.page s w = some e → e.perm = ⟨true, true⟩) := by
  have hsrc' : ∀ w < pages sz, w < 2 ^ 19 → (vm.page s w).isSome := fun w hlt hw =>
    hsrc w hw (lt_pages.mpr hlt)
  have hsz := h.ok.lt_kernbase hs hsrc'
  rcases copyuvm_forks h hs hsrc' with ⟨hroom, vm', c, role', hcall, hf⟩ | ⟨hshort, hnone⟩
  · constructor
    · intro hprivate _ w e hw he
      exact (hprivate vm' c hcall).perm hf hw he
    · intro hperm vm₁ c₁ hcall₁
      rw [hcall] at hcall₁
      cases hcall₁
      exact hf.privateCopy h hs hsz (hperm hroom)
  · exact iff_of_true (fun vm' c hcall => absurd hcall (hnone vm' c)) (fun hroom => by omega)

section Guard

def somePages : List Nat := List.range' 503 70

theorem pageVm_below {perm : Perm} {free : List Nat} :
    ∀ w < 2 ^ 19, w * pgsize < 0x1000 → ((pageVm 0 perm free).page 500 w).isSome := by
  intro w _ hw
  obtain rfl : w = 0 := by
    simp only [pgsize] at hw
    omega
  rfl

theorem pageVm_forks (perm : Perm) : ∃ vm' c role',
    (pageVm 0 perm somePages).copyuvm sampleLayout 500 0x1000 = .ok (vm', some c) ∧
      Forks sampleLayout 500 c 0x1000 (pageVm 0 perm somePages) vm' (pageRole 0 somePages)
        role' := by
  have hexact : Exact sampleLayout (pageVm 0 perm somePages) (pageRole 0 somePages) :=
    pageVm_exact (by decide) (by decide) (by decide)
  have hbelow : ∀ w < pages 0x1000, w < 2 ^ 19 →
      ((pageVm 0 perm somePages).page 500 w).isSome := fun w hlt hw =>
    pageVm_below w hw (lt_pages.mpr hlt)
  rcases copyuvm_forks hexact rfl hbelow with ⟨_, hcall⟩ | ⟨hshort, _⟩
  · exact hcall
  · exact absurd hshort (show ¬ somePages.length < copyCost 0x1000 by decide)

theorem copyuvm_private_iff_page : ∃ vm' c,
    (pageVm 0 userPerm somePages).copyuvm sampleLayout 500 0x1000 = .ok (vm', some c) ∧
      PrivateCopy 500 c 0x1000 (pageVm 0 userPerm somePages) vm' := by
  obtain ⟨vm', c, _, hcall, _⟩ := pageVm_forks userPerm
  refine ⟨vm', c, hcall, (copyuvm_private_iff sampleLayout (pageVm 0 userPerm somePages)
    (pageRole 0 somePages) 500 0x1000 (pageVm_exact (by decide) (by decide) (by decide)) rfl
    pageVm_below).mpr ?_ vm' c hcall⟩
  intro _ w e _ he
  rw [pageVm_page] at he
  split at he
  · cases he
    rfl
  · cases he

-- A page that exec has made inaccessible with clearpteu is accessible in the child.
theorem copyuvm_guard : ¬ ∀ (L : Layout) (vm : Vm) (role : Nat → Role) (s sz : Nat),
    Exact L vm role → role s = .dir →
    (∀ w < 2 ^ 19, w * pgsize < sz → (vm.page s w).isSome) →
    ∀ vm' c, vm.copyuvm L s sz = .ok (vm', some c) → PrivateCopy s c sz vm vm' := by
  intro hall
  obtain ⟨vm', c, role', hcall, hf⟩ := pageVm_forks ⟨true, false⟩
  have hp := hall sampleLayout _ (pageRole 0 somePages) 500 0x1000
    (pageVm_exact (by decide) (by decide) (by decide)) rfl pageVm_below vm' c hcall
  have hperm := hp.perm hf (w := 0) (e := ⟨502, true, false⟩) (by decide) rfl
  cases hperm

end Guard

end Vm
end Xv6
