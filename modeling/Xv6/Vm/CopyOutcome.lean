import Xv6.Vm.Spaces

namespace Xv6
namespace Vm

variable {L : Layout} {vm vm' vm'' : Vm} {role role' role'' : Nat → Role} {s c p v k m sz : Nat}

def copyCost (sz : Nat) : Nat := 65 + pages sz + (pages sz + 1023) / 1024

theorem demand_fresh {f : Nat → Bool} {v k : Nat} (hk : v + k ≤ 2 ^ 19)
    (hf : ∀ i < 512, f i = decide (i < (v + 1023) / 1024)) :
    demand f v k + (v + 1023) / 1024 = k + (v + k + 1023) / 1024 := by
  induction k generalizing f v with
  | zero => rw [demand, Nat.add_zero]
  | succ k ih =>
    have hv := hf (v / 1024) (by omega)
    have hnext : ∀ i < 512, Function.update f (v / 1024) true i =
        decide (i < (v + 1 + 1023) / 1024) := by
      intro i hi
      rw [Function.update_apply]
      split
      · next heq => rw [heq, eq_comm, decide_eq_true_iff]; omega
      · next hne =>
        rw [hf i hi, decide_eq_decide]
        omega
    have hrest := ih (by omega) hnext
    rw [demand, hv]
    rcases Nat.eq_zero_or_pos (v % 1024) with hzero | hpos
    · rw [decide_eq_false (by omega), if_neg Bool.false_ne_true]
      omega
    · rw [decide_eq_true (by omega), if_pos rfl]
      omega

theorem NewSpace.demand {k : Nat} (h : NewSpace L c vm vm' role role') (hk : k ≤ 2 ^ 19) :
    demand (vm'.present c) 0 k = k + (k + 1023) / 1024 := by
  have hfresh := demand_fresh (f := vm'.present c) (v := 0) (k := k) (by omega) fun i hi => by
    rw [h.present, decide_eq_decide, kernelTable]
    omega
  simpa using hfresh

def CopyFits (free sz : Nat) : Prop :=
  free = 0 ∨ 65 ≤ free ∧ TablesFit (fun _ => false) 0 (pages sz) (free - 65)

structure Forks (L : Layout) (s c sz : Nat) (vm vm' : Vm) (role role' : Nat → Role) : Prop where
  free : role c = .free
  exact : Exact L vm' role'
  dirs : role' s = .dir ∧ role' c = .dir
  filled : ∀ w < pages sz, ∃ q, vm'.page c w = some ⟨q, true, true⟩ ∧ vm'.data q = vm.bytesAt s w
  above : ∀ w < 2 ^ 19, pages sz ≤ w → vm'.page c w = none
  source : ∀ w, vm'.page s w = vm.page s w
  allocates : Allocates vm vm'

inductive CopyOutcome (L : Layout) (s sz : Nat) (vm : Vm) (role : Nat → Role) :
    Except Panic (Vm × Option Nat) → Prop
  | missing {w : Nat} {e : Panic} (hw : w < pages sz) (hpage : vm.page s w = none)
      (hroom : 65 + w + (w + 1023) / 1024 ≤ vm.freelist.length) :
      CopyOutcome L s sz vm role (.error e)
  | undone {vm' : Vm}
      (hfree : vm.freelist.length = 0 ∨
        ∃ m < pages sz, vm.freelist.length = 65 + m + (m + 1023) / 1024)
      (hexact : Exact L vm' role) (hsame : SameDirs vm vm' role) :
      CopyOutcome L s sz vm role (.ok (vm', none))
  | lost {vm' : Vm} {p : Nat}
      (hfree : 0 < vm.freelist.length ∧ vm.freelist.length < 65 ∨
        ∃ m < pages sz, m % 1024 = 0 ∧ vm.freelist.length = 66 + m + m / 1024)
      (hsrc : ∀ w < pages sz, 65 + w + (w + 1023) / 1024 ≤ vm.freelist.length →
        vm.page s w ≠ none)
      (hp : role p = .free) (hlost : p ∉ vm'.freelist) :
      CopyOutcome L s sz vm role (.ok (vm', none))
  | copied {vm' : Vm} {c : Nat} {role' : Nat → Role} (hroom : copyCost sz ≤ vm.freelist.length)
      (hsrc : ∀ w < pages sz, vm.page s w ≠ none)
      (hf : Forks L s c sz vm vm' role role')
      (hacts : Acts L c vm vm' (Function.update role c .dir) role') (hspans : Spans vm' c sz) :
      CopyOutcome L s sz vm role (.ok (vm', some c))

theorem copyuvm_loop {vm₁ : Vm} (hsetup : vm.setupkvm L = .ok (vm₁, some c)) :
    vm.copyuvm L s sz = copyLoop s c (pages sz) vm₁ 0 >>= fun x =>
      if x.2 then pure (x.1, some c) else x.1.freevm L c >>= fun vm => pure (vm, none) := by
  unfold copyuvm
  rw [hsetup]
  rfl

section

variable {vm₁ vm₂ vm₃ : Vm} {role₁ role₂ : Nat → Role} {bytes : Nat → Nat → UInt8}

theorem NewSpace.dir (h : NewSpace L c vm vm' role role') : role' c = .dir :=
  h.acts.dir (Function.update_self ..)

theorem NewSpace.ne (h : NewSpace L c vm vm' role role') (hs : role s = .dir) : s ≠ c := by
  rintro rfl
  simp [h.free] at hs

theorem NewSpace.keeps (h : NewSpace L c vm vm' role role') (hs : role s = .dir) :
    Function.update role c .dir s = .dir := by
  rwa [Function.update_of_ne (h.ne hs)]

theorem NewSpace.undone (he : Exact L vm role) (hnew : NewSpace L c vm vm₁ role role₁)
    (hacts : Acts L c vm₁ vm₂ role₁ role₂) (hst : Stacked vm₂ c) :
    ∃ vm', vm₂.freevm L c = .ok vm' ∧ Exact L vm' role ∧ SameDirs vm vm' role := by
  have hall := hnew.acts.trans hacts
  obtain ⟨vm', role', hfreevm, hf⟩ := freevm_acts hacts.exact (hacts.dir hnew.dir) hst
  have hsame := hf.restores he hnew.free hall.moves
  refine ⟨vm', hfreevm, hsame ▸ hf.exact, fun q hq => ?_⟩
  obtain ⟨hp, hg⟩ := hall.dirs q (hnew.ne hq) (hnew.keeps hq)
  obtain ⟨hp', hg'⟩ := hf.dirs q (hnew.ne hq) (hall.dir (hnew.keeps hq))
  exact ⟨hp'.trans hp, fun v => (hg' v).trans (hg v)⟩

theorem NewSpace.loses (he : Exact L vm role) (hnew : NewSpace L c vm vm₁ role role₁)
    (hacts : Acts L c vm₁ vm₂ role₁ role₂) (hst : Stacked vm₂ c)
    (htook : Took L vm₂ vm₃ role₂ p) :
    ∃ vm', vm₃.freevm L c = .ok vm' ∧ role p = .free ∧ p ∉ vm'.freelist := by
  have hc := hacts.dir hnew.dir
  have hpc : p ≠ c := by
    rintro rfl
    simp [htook.free] at hc
  have hc' : Function.update role₂ p .held c = .dir := by rwa [Function.update_of_ne hpc.symm]
  obtain ⟨vm', role', hfreevm, hf⟩ := freevm_acts (htook.exact hacts.exact) hc'
    (hst.congr (htook.present c hc))
  refine ⟨vm', hfreevm, ?_, ?_⟩
  · have hmoves := (hnew.acts.trans hacts).moves p
    rw [Function.update_of_ne hpc] at hmoves
    rcases hmoves with heq | hmoves
    · rw [← heq, htook.free]
    · exact he.fresh hnew.free hmoves.1
  · have hheld : Function.update role₂ p .held p = .held := Function.update_self ..
    have hkept := hf.kept p hpc (by rw [hheld]; exact not_belongs_held)
    rw [hf.exact.ok.free, hkept, hheld]
    simp

end

theorem copyuvm_stuck (h : Exact L vm role) (hshort : vm.freelist.length < 65)
    (hsetup : vm.setupkvm L = .ok (vm', none)) : CopyOutcome L s sz vm role (.ok (vm', none)) := by
  cases hlist : vm.freelist with
  | nil =>
    rw [setupkvm_empty hlist] at hsetup
    cases hsetup
    exact .undone (.inl (by rw [hlist, List.length_nil])) h fun _ _ => ⟨rfl, fun _ => rfl⟩
  | cons p rest =>
    obtain ⟨vm₁, _, _, hcall, _, _, hnil, _⟩ := setupkvm_spec h.ok
    rw [hsetup] at hcall
    cases hcall
    have hp : role p = .free := (h.ok.free p).mp (by simp [hlist])
    have hpos : 0 < vm.freelist.length := by simp [hlist]
    exact .lost (.inl ⟨hpos, hshort⟩) (fun w _ hle => by omega) hp (by simp [hnil rfl])

theorem copyuvm_outcome (h : Exact L vm role) (hs : role s = .dir) (hsz : sz ≤ kernbase) :
    CopyOutcome L s sz vm role (vm.copyuvm L s sz) := by
  have hpages := pages_le hsz
  rcases setupkvm_cases h with ⟨vm₁, role₁, c, hsetup, hnew⟩ | ⟨hshort, vm₁, hsetup⟩
  · have hlen := hnew.length
    have hsc := hnew.ne hs
    have hs₁ := hnew.acts.dir (hnew.keeps hs)
    have hsame₁ := (hnew.acts.dirs s hsc (hnew.keeps hs)).2
    have hnone : ∀ w < 2 ^ 19, vm₁.page c w = none := fun w hw =>
      hnew.spans.above w hw (by simp [pages])
    have hends := copyLoop_ends (v := 0) hsc (pages sz) hnew.acts.exact hnew.dir hs₁ (by omega)
      fun w hw _ => hnone w hw
    rw [Nat.zero_mul] at hends
    rw [copyuvm_loop hsetup]
    generalize copyLoop s c (pages sz) vm₁ 0 = r at hends
    cases hends with
    | missing hm hpage hroom =>
      rw [Nat.zero_add, hsame₁] at hpage
      rw [hnew.demand (by omega)] at hroom
      exact .missing hm hpage (by omega)
    | short hm hf hnil =>
      have hlen₂ := hf.length
      rw [hnil, hnew.demand (by omega), List.length_nil] at hlen₂
      obtain ⟨vm', hfreevm, hexact, hsame⟩ := hnew.undone h hf.acts
        (hnew.spans.stacked.extend (.inl rfl) hf.present).1
      change CopyOutcome L s sz vm role (freevm L _ c >>= fun vm => pure (vm, none))
      rw [hfreevm]
      exact .undone (.inr ⟨_, hm, by omega⟩) hexact hsame
    | @starved m p vm₂ vm₃ role₂ hm hf htook habs hnil hsrc =>
      have hlen₂ := hf.length
      rw [htook.length, hnil, hnew.demand (by omega), List.length_nil] at hlen₂
      have hmod : m % 1024 = 0 := by
        by_contra hne
        have hpres := (hf.present (m / 1024)).mpr (.inr ⟨m - 1, by omega, by omega, by omega⟩)
        rw [Nat.zero_add, hpres] at habs
        cases habs
      obtain ⟨vm', hfreevm, hp, hlost⟩ := hnew.loses h hf.acts
        (hnew.spans.stacked.extend (.inl rfl) hf.present).1 htook
      change CopyOutcome L s sz vm role (freevm L _ c >>= fun vm => pure (vm, none))
      rw [hfreevm]
      refine .lost (.inr ⟨m, hm, hmod, by omega⟩) (fun w _ hle => ?_) hp hlost
      rw [← hsame₁]
      exact hsrc w (Nat.zero_le w) (by omega)
    | whole hf hsrc =>
      have hlen₂ := hf.length
      have ha₁ := setupkvm_allocates hsetup
      rw [hnew.demand hpages] at hlen₂
      have hext := hf.extends hnew.spans.stacked (.inl rfl)
      refine .copied (by rw [copyCost]; omega) (fun w hw => ?_) ⟨hnew.free, hf.acts.exact,
        ⟨hf.acts.dir hs₁, hf.acts.dir hnew.dir⟩, fun w hw => ?_, fun w hw hle => ?_, fun w => ?_,
        ha₁.trans hf.allocates⟩ (hnew.acts.trans hext.acts)
        ⟨hext.stacked, Nat.zero_add (pages sz) ▸ hext.reaches, fun w hw hle => ?_⟩
      · rw [← hsame₁]
        exact hsrc w (Nat.zero_le w) (by omega)
      · obtain ⟨q, _, hpage, hdata⟩ := hf.inside w (Nat.zero_le w) (by omega)
        exact ⟨q, hpage, hdata.trans (ha₁.bytesAt h.ok hs (by omega) (hsame₁ w))⟩
      · rw [hf.outside w (by omega), hnone w hw]
      · rw [(hf.acts.dirs s hsc hs₁).2, hsame₁]
      · rw [(hext.page w).2 (by omega), hnone w hw]
  · unfold copyuvm
    rw [hsetup]
    exact copyuvm_stuck h hshort hsetup

theorem demand_none (hm : m ≤ 2 ^ 19) : demand (fun _ => false) 0 m = m + (m + 1023) / 1024 := by
  have hfresh := demand_fresh (f := fun _ => false) (v := 0) (k := m) (by omega) fun i _ => by simp
  simpa using hfresh

theorem CopyFits.not_starved {free : Nat} (h : CopyFits free sz) (hsz : sz ≤ kernbase)
    (hm : m < pages sz) (hmod : m % 1024 = 0) : free ≠ 66 + m + m / 1024 := by
  rintro rfl
  have hpages := pages_le hsz
  obtain ⟨_, hfit⟩ := h.resolve_left (by omega)
  have hnext := hfit.next hm (by rw [demand_none (by omega)]; omega)
  rw [demand_none (by omega)] at hnext
  omega

theorem copyuvm_acts {r : Option Nat} (h : Exact L vm role) (hs : role s = .dir)
    (hsz : sz ≤ kernbase) (hfit : CopyFits vm.freelist.length sz)
    (hcopy : vm.copyuvm L s sz = .ok (vm', r)) :
    (r = none ∧ Exact L vm' role ∧ SameDirs vm vm' role) ∨
      ∃ d role', r = some d ∧ role d = .free ∧
        Acts L d vm vm' (Function.update role d .dir) role' ∧ Spans vm' d sz := by
  have hout := copyuvm_outcome h hs hsz
  rw [hcopy] at hout
  cases hout with
  | undone _ hexact hsame => exact .inl ⟨rfl, hexact, hsame⟩
  | lost hfree _ _ _ =>
    rcases hfree with ⟨hpos, hlt⟩ | ⟨m, hm, hmod, hfree⟩
    · rcases hfit with hzero | ⟨hle, _⟩ <;> omega
    · exact absurd hfree (hfit.not_starved hsz hm hmod)
  | copied _ _ hf hacts hspans => exact .inr ⟨_, _, rfl, hf.free, hacts, hspans⟩

end Vm
end Xv6
