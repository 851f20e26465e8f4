import Xv6.Vm.Removal
import Xv6.Vm.Starved

namespace Xv6
namespace Vm

variable {L : Layout} {vm vm' vm'' : Vm} {role role' : Nat → Role} {d oldsz newsz w w' : Nat}

structure Delivers (d oldsz newsz : Nat) (vm vm' : Vm) (role : Nat → Role) : Prop where
  mapped : ∀ w, InRange newsz oldsz w → ∃ q ∈ vm.freelist,
    vm'.page d w = some ⟨q, true, true⟩ ∧ vm'.data q = fun _ => 0
  distinct : ∀ w w' e e', InRange newsz oldsz w → InRange newsz oldsz w' →
    vm'.page d w = some e → vm'.page d w' = some e' → e.page = e'.page → w = w'
  other : ∀ w, ¬ InRange newsz oldsz w → vm'.page d w = vm.page d w
  dirs : ∀ q, q ≠ d → role q = .dir → ∀ w, vm'.page q w = vm.page q w

structure Restores (d : Nat) (vm vm' : Vm) (role : Nat → Role) : Prop where
  same : ∀ w, vm'.page d w = vm.page d w
  free : ∀ p ∈ vm.freelist, p ∈ vm'.freelist ∨ ∃ i, vm'.tables.dir d i = some p
  dirs : ∀ q, q ≠ d → role q = .dir → ∀ w, vm'.page q w = vm.page q w

def AllocExact (L : Layout) (d oldsz newsz : Nat) (vm : Vm) (role : Nat → Role) : Prop :=
  ∃ vm' r, vm.allocuvm L d oldsz newsz = .ok (vm', r) ∧ (r = newsz ∨ r = 0) ∧
    (r = newsz → Delivers d oldsz newsz vm vm' role) ∧ (r = 0 → Restores d vm vm' role)

theorem Fills.delivers (hnew : newsz < kernbase) (hle : oldsz ≤ newsz) (hd : role d = .dir)
    (h : Fills L d (pages oldsz) (pages newsz - pages oldsz) (fun _ _ => 0) vm vm' role role') :
    Delivers d oldsz newsz vm vm' role := by
  have hpages := pages_mono hle
  have hbound := pages_le hnew.le
  have hrange : ∀ w, InRange newsz oldsz w ↔ pages oldsz ≤ w ∧ w < pages newsz :=
    fun w => inRange_iff hnew.le hle
  refine ⟨fun w hw => ?_, fun w w' e e' hw hw' he he' heq => ?_, fun w hw => ?_,
    fun q hq hdir => (h.acts.dirs q hq hdir).2⟩
  · rw [hrange] at hw
    exact h.inside w hw.1 (by omega)
  · rw [hrange] at hw hw'
    have hd' := h.acts.dir hd
    exact (h.acts.exact.ok.page_inj hd' hd' (by omega) (by omega) he he' heq).2
  · rw [hrange] at hw
    exact h.outside w (by omega)

theorem Fills.restores {v : Nat} {bytes : Nat → Nat → UInt8}
    (h : Fills L d v 0 bytes vm vm' role role') : Restores d vm vm' role := by
  have hfree : vm'.freelist = vm.freelist := by
    refine h.allocates.freelist.eq_of_length ?_
    rw [h.length, demand, Nat.add_zero]
  refine ⟨fun w => h.outside w (by omega), fun p hp => .inl ?_,
    fun q hq hdir => (h.acts.dirs q hq hdir).2⟩
  rw [hfree]
  exact hp

theorem Undoes.restores {v k : Nat} (h : Undoes L d oldsz newsz v k vm vm' role role')
    (he : Exact L vm role) (hd : role d = .dir) (hnew : newsz < kernbase)
    (hnone : ∀ w < 2 ^ 19, pages oldsz ≤ w → vm.page d w = none) : Restores d vm vm' role := by
  have hbound := pages_le hnew.le
  have hsame : ∀ w, vm'.page d w = vm.page d w := by
    intro w
    rw [h.page]
    split
    · next hw => rw [hnone w (by omega) hw.1]
    · rfl
  refine ⟨hsame, fun p hp => ?_, fun q hq hdir => (h.acts.dirs q hq hdir).2⟩
  have hfree := (he.ok.free p).mp hp
  have hbelongs : Belongs d (role' p) := by
    rcases h.acts.moves p with heq | ⟨_, hp'⟩
    · rw [heq, hfree]
      exact belongs_free
    · exact hp'
  rcases hbelongs with hrole | ⟨i, hrole⟩ | ⟨v, hrole⟩
  · exact .inl ((h.acts.exact.ok.free p).mpr hrole)
  · exact .inr ⟨i, (h.acts.exact.ok.owned.linked p d i hrole).2.2⟩
  · -- Nothing new is mapped, so the page would have been mapped and free at once.
    obtain ⟨_, hv, perm, hpage⟩ := h.acts.exact.tight p d v hrole
    rw [hsame] at hpage
    rw [he.ok.role_page hd hv hpage] at hfree
    cases hfree

theorem Starves.not_delivers {m p : Nat} {vm₁ : Vm} (hd : role d = .dir) (hnew : newsz < kernbase)
    (hle : oldsz ≤ newsz) (hm : m + 1 = pages newsz - pages oldsz)
    (h : Starves L d (pages oldsz) m p vm vm₁ vm' role role') :
    ¬ Delivers d oldsz newsz vm vm' role := by
  intro hdel
  obtain ⟨q, _, hpage, _⟩ := hdel.mapped (pages newsz - 1)
    ((inRange_iff hnew.le hle).mpr ⟨by omega, by omega⟩)
  have habs := h.absent
  rw [show pages oldsz + m = pages newsz - 1 by omega] at habs
  rw [h.took.page d (h.mapped.acts.dir hd), page_of_absent habs] at hpage
  cases hpage

theorem Starves.not_restores {m p : Nat} {vm₁ vm₂ : Vm} {role'' : Nat → Role}
    (hd : role d = .dir) (h : Starves L d (pages oldsz) m p vm vm₁ vm₂ role role')
    (hc : Clears L d (pages oldsz) (pages newsz) vm₂ vm' (Function.update role' p .held) role'') :
    ¬ Restores d vm vm' role := by
  intro hres
  have hheld : role'' p = .held := by
    rw [hc.acts.moves.keeps not_belongs_held, Function.update_self]
  have hmem : p ∈ vm.freelist :=
    h.mapped.allocates.freelist.mem ((h.mapped.acts.exact.ok.free p).mpr h.took.free)
  rcases hres.free p hmem with hfree | ⟨i, hi⟩
  · rw [hc.acts.exact.ok.free, hheld] at hfree
    cases hfree
  · rw [hc.acts.exact.ok.owned.dir d i p (hc.acts.dir (h.dir hd)) hi] at hheld
    cases hheld

theorem AllocExact.tablesFit (h : Exact L vm role) (hd : role d = .dir)
    (hnone : ∀ w < 2 ^ 19, pages oldsz ≤ w → vm.page d w = none) (hle : oldsz ≤ newsz)
    (hnew : newsz < kernbase) (ha : AllocExact L d oldsz newsz vm role) :
    TablesFit (vm.present d) (pages oldsz) (pages newsz - pages oldsz) vm.freelist.length := by
  obtain ⟨vm', r, hcall, _, hnewsz, hzero⟩ := ha
  by_contra hfit
  obtain ⟨m, p, vm₁, vm₂, role₁, hs, _, hres⟩ := allocuvm_starves h hd hnone hnew hle hfit
  rcases hres with ⟨hm, _, hcall'⟩ | ⟨_, vm₃, role₃, hcall', _, hc⟩
  · rw [hcall] at hcall'
    cases hcall'
    exact hs.not_delivers hd hnew hle hm (hnewsz rfl)
  · rw [hcall] at hcall'
    cases hcall'
    exact hs.not_restores hd hc (hzero rfl)

theorem allocuvm_exact_iff (L : Layout) (vm : Vm) (role : Nat → Role) (d oldsz newsz : Nat)
    (h : Exact L vm role) (hd : role d = .dir)
    (hnone : ∀ w < 2 ^ 19, pgroundup oldsz ≤ w * pgsize → vm.page d w = none)
    (hle : oldsz ≤ newsz) (hnew : newsz < kernbase) :
    AllocExact L d oldsz newsz vm role ↔
      TablesFit (vm.present d) (pages oldsz) (pages newsz - pages oldsz) vm.freelist.length := by
  have hnone' : ∀ w < 2 ^ 19, pages oldsz ≤ w → vm.page d w = none := by
    intro w hw hvw
    refine hnone w hw ?_
    rw [pgroundup_eq (by omega)]
    exact Nat.mul_le_mul_right _ hvw
  refine ⟨AllocExact.tablesFit h hd hnone' hle hnew, fun hfit => ?_⟩
  obtain ⟨vm', role', r, hcall, hres⟩ := allocuvm_fills h hd hnone' hnew hle hfit
  rcases hres with ⟨rfl, hfill⟩ | ⟨rfl, hundo, hshort⟩
  · refine ⟨vm', r, hcall, .inl rfl, fun _ => hfill.delivers hnew hle hd, ?_⟩
    rintro rfl
    rw [Nat.le_zero.mp hle, Nat.sub_self] at hfill
    exact hfill.restores
  · refine ⟨vm', 0, hcall, .inr rfl, ?_, fun _ => hundo.restores h hd hnew hnone'⟩
    rintro rfl
    rw [Nat.le_zero.mp hle, Nat.sub_self, demand] at hshort
    omega

section Bare

def bareVm (free : List Nat) : Vm := ⟨free, ⟨fun _ _ => none, fun _ _ => none⟩, fun _ _ => 0⟩

def bareRole (free : List Nat) (p : Nat) : Role :=
  if p = 500 then .dir else if p ∈ free then .free else .reserved

theorem bareVm_exact {free : List Nat} (hnodup : free.Nodup)
    (hfree : ∀ p ∈ free, 500 < p ∧ p < 57344) :
    Exact sampleLayout (bareVm free) (bareRole free) := by
  have hrole : ∀ p, bareRole free p = .dir ∨ bareRole free p = .free ∨
      bareRole free p = .reserved := by
    intro p
    simp only [bareRole]
    split_ifs <;> simp
  refine ⟨⟨⟨fun p hp => ?_, fun _ _ _ _ hpt => ?_, fun pt _ _ hpt => ?_,
    fun _ _ _ _ _ _ _ he => ?_⟩, fun p => ?_, hnodup⟩, fun p _ _ hp => ?_⟩
  · simp only [bareRole] at hp
    simp only [sampleLayout]
    split_ifs at hp with h500 hmem
    · omega
    · have := hfree p hmem
      omega
    · exact absurd rfl hp
  · cases hpt
  · rcases hrole pt with h | h | h <;> rw [h] at hpt <;> cases hpt
  · cases he
  · simp only [bareVm, bareRole]
    split_ifs with h500 hmem
    · simp only [iff_false]
      intro hmem
      have := hfree p hmem
      omega
    · simp only [hmem]
    · simp only [hmem]
  · rcases hrole p with h | h | h <;> rw [h] at hp <;> cases hp

theorem allocuvm_exact_iff_bare : AllocExact sampleLayout 500 0 0x1000 (bareVm [501, 502])
    (bareRole [501, 502]) :=
  (allocuvm_exact_iff sampleLayout (bareVm [501, 502]) (bareRole [501, 502]) 500 0 0x1000
    (bareVm_exact (by decide) (by decide)) rfl (fun _ _ _ => rfl) (by decide) (by decide)).mpr
    (by decide)

-- With one page left it is taken for the user page, and there is none for its page table.
theorem allocuvm_unmapped : ¬ ∀ (L : Layout) (vm : Vm) (role : Nat → Role) (d oldsz newsz : Nat),
    Exact L vm role → role d = .dir →
    (∀ w < 2 ^ 19, pgroundup oldsz ≤ w * pgsize → vm.page d w = none) → oldsz ≤ newsz →
    newsz < kernbase → AllocExact L d oldsz newsz vm role := by
  intro hall
  have hexact : Exact sampleLayout (bareVm [501]) (bareRole [501]) :=
    bareVm_exact (by decide) (by decide)
  have hfit := (hall sampleLayout (bareVm [501]) (bareRole [501]) 500 0 0x1000 hexact rfl
    (fun _ _ _ => rfl) (by decide) (by decide)).tablesFit hexact rfl (fun _ _ _ => rfl)
    (by decide) (by decide)
  exact absurd hfit (by decide)

end Bare

end Vm
end Xv6
