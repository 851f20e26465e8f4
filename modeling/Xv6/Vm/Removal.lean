import Xv6.Vm.Conserve

namespace Xv6
namespace Vm

variable {L : Layout} {vm vm' : Vm} {role role' : Nat → Role} {d oldsz newsz w : Nat}

-- The page address lies in [PGROUNDUP(newsz), oldsz).
def InRange (oldsz newsz w : Nat) : Prop := pgroundup newsz ≤ w * pgsize ∧ w * pgsize < oldsz

theorem inRange_iff (hold : oldsz ≤ kernbase) (hle : newsz ≤ oldsz) :
    InRange oldsz newsz w ↔ pages newsz ≤ w ∧ w < pages oldsz := by
  rw [InRange, pgroundup_eq (by omega), lt_pages]
  exact and_congr_left' (Nat.mul_le_mul_right_iff (by simp))

structure Removes (d oldsz newsz : Nat) (vm vm' : Vm) (role : Nat → Role) : Prop where
  unmapped : ∀ w, InRange oldsz newsz w → vm'.page d w = none
  freed : vm'.freelist = (framesIn vm d (pages newsz) (pages oldsz)).reverse ++ vm.freelist
  other : ∀ w, ¬ InRange oldsz newsz w → vm'.page d w = vm.page d w
  dirs : ∀ q, q ≠ d → role q = .dir → ∀ w, vm'.page q w = vm.page q w

theorem Clears.removes (hold : oldsz ≤ kernbase) (hlt : newsz < oldsz)
    (hc : Clears L d (pages newsz) (pages oldsz) vm vm' role role')
    (hno : ∀ w, InRange oldsz newsz w → (vm.page d w).isSome →
      ¬ Skips (vm.present d) (pages newsz) w) : Removes d oldsz newsz vm vm' role := by
  have hrange : ∀ w, InRange oldsz newsz w ↔ pages newsz ≤ w ∧ w < pages oldsz :=
    fun w => inRange_iff hold hlt.le
  have hpages := pages_le hold
  have hu := hc.unmaps fun w _ hvw hwk => hno w ((hrange w).mpr ⟨hvw, hwk⟩)
  refine ⟨fun w hw => ?_, hc.freed fun w hvw hwk => hno w ((hrange w).mpr ⟨hvw, hwk⟩),
    fun w hw => ?_, fun q hq hdir => (hc.acts.dirs q hq hdir).2⟩
  · have hw' := (hrange w).mp hw
    rw [hu.page w (by omega), if_pos hw']
  · rw [hrange] at hw
    exact hc.kept w (by omega)

theorem deallocuvm_removes_iff (L : Layout) (vm : Vm) (role : Nat → Role) (d oldsz newsz : Nat)
    (h : Exact L vm role) (hd : role d = .dir) (hold : oldsz ≤ kernbase) (hlt : newsz < oldsz) :
    (∃ vm', vm.deallocuvm L d oldsz newsz = .ok (vm', newsz) ∧
        Removes d oldsz newsz vm vm' role) ↔
      ∀ w, InRange oldsz newsz w → (vm.page d w).isSome →
        ¬ Skips (vm.present d) (pages newsz) w := by
  obtain ⟨vm', role', hcall, hc⟩ := deallocuvm_clears oldsz newsz h hd hold hlt
  constructor
  · rintro ⟨vm₁, hcall₁, hr⟩ w hw hsome hskip
    obtain rfl : vm' = vm₁ := congrArg Prod.fst (Except.ok.inj (hcall.symm.trans hcall₁))
    have hgone := hr.unmapped w hw
    rw [hc.kept w (.inr (.inr hskip))] at hgone
    rw [hgone] at hsome
    cases hsome
  · intro hno
    exact ⟨vm', hcall, hc.removes hold hlt hno⟩

section Sample

def pageVm (i : Nat) (perm : Perm) (free : List Nat) : Vm where
  freelist := free
  tables :=
    { dir := fun p i' => if p = 500 ∧ i' = i then some 501 else none
      leaf := fun p j => if p = 501 ∧ j = 0 then some ⟨502, perm⟩ else none }
  data := fun _ _ => 0

def userPerm : Perm := ⟨true, true⟩

def pageRole (i : Nat) (free : List Nat) (p : Nat) : Role :=
  if p = 500 then .dir else if p = 501 then .table 500 i
  else if p = 502 then .frame 500 (i * 1024) else if p ∈ free then .free else .reserved

variable {i : Nat} {perm : Perm} {free : List Nat}

theorem pageVm_page (w : Nat) :
    (pageVm i perm free).page 500 w = if w = i * 1024 then some ⟨502, perm⟩ else none := by
  have hget : (pageVm i perm free).page 500 w = if w / 1024 = i then
      if w % 1024 = 0 then some ⟨502, perm⟩ else none else none := by
    simp only [page, TwoLevel.get, pageVm, true_and]
    split <;> simp
  rw [hget]
  split_ifs <;> first | rfl | omega

theorem pageVm_present (j : Nat) : (pageVm i perm free).present 500 j = decide (j = i) := by
  simp only [present, pageVm, true_and]
  split_ifs with hi <;> simp [hi]

theorem pageVm_exact (hi : i < 512) (hnodup : free.Nodup)
    (hfree : ∀ p ∈ free, 502 < p ∧ p < 57344) :
    Exact sampleLayout (pageVm i perm free) (pageRole i free) := by
  have hdir : ∀ p, pageRole i free p = .dir ↔ p = 500 := by
    intro p
    simp only [pageRole]
    split_ifs <;> simp_all
  have htable : ∀ p q i', pageRole i free p = .table q i' ↔ p = 501 ∧ q = 500 ∧ i' = i := by
    intro p q i'
    simp only [pageRole]
    split_ifs <;> simp_all [eq_comm]
  have hframe : ∀ p q v, pageRole i free p = .frame q v ↔ p = 502 ∧ q = 500 ∧ v = i * 1024 := by
    intro p q v
    simp only [pageRole]
    split_ifs <;> simp_all [eq_comm]
  refine ⟨⟨⟨fun p hp => ?_, fun q i' pt hq hpt => ?_, fun pt q i' hpt => ?_,
    fun pt q i' j e hpt hi' he => ?_⟩, fun p => ?_, hnodup⟩, fun p q v hp => ?_⟩
  · simp only [sampleLayout]
    simp only [pageRole] at hp
    split_ifs at hp with _ _ _ hmem
    · omega
    · omega
    · omega
    · have := hfree p hmem
      omega
    · exact absurd rfl hp
  · rw [(hdir q).mp hq] at hpt ⊢
    simp only [pageVm, true_and] at hpt
    split at hpt
    · next hi' => exact (htable _ _ _).mpr ⟨(Option.some.inj hpt).symm, rfl, hi'⟩
    · cases hpt
  · obtain ⟨rfl, rfl, rfl⟩ := (htable pt q i').mp hpt
    exact ⟨.inl rfl, by omega, by simp [pageVm]⟩
  · obtain ⟨rfl, rfl, rfl⟩ := (htable pt q i').mp hpt
    simp only [pageVm, true_and] at he
    split at he
    · next hj =>
      cases he
      subst hj
      exact ⟨by simp [pageRole], by decide⟩
    · cases he
  · have hused : p = 500 ∨ p = 501 ∨ p = 502 → p ∉ free := fun hp hmem => by
      have := hfree p hmem
      omega
    simp only [pageVm, pageRole]
    split_ifs <;> simp_all
  · obtain ⟨rfl, rfl, rfl⟩ := (hframe p q v).mp hp
    exact ⟨rfl, by omega, _, by rw [pageVm_page, if_pos rfl]⟩

theorem deallocuvm_removes_iff_aligned :
    ∃ vm', (pageVm 1 userPerm []).deallocuvm sampleLayout 500 0x800000 0 = .ok (vm', 0) ∧
      Removes 500 0x800000 0 (pageVm 1 userPerm []) vm' (pageRole 1 []) := by
  refine (deallocuvm_removes_iff sampleLayout (pageVm 1 userPerm []) (pageRole 1 []) 500 0x800000 0
    (pageVm_exact (by decide) (by decide) (by decide)) rfl (by decide) (by decide)).mpr ?_
  intro w _ _ hskip
  exact Nat.not_lt_zero _ hskip.2.1

theorem deallocuvm_skips : ¬ ∀ (L : Layout) (vm : Vm) (role : Nat → Role) (d oldsz newsz : Nat),
    Exact L vm role → role d = .dir → oldsz ≤ kernbase → newsz < oldsz →
    ∃ vm', vm.deallocuvm L d oldsz newsz = .ok (vm', newsz) ∧
      Removes d oldsz newsz vm vm' role := by
  intro hall
  have hexact : Exact sampleLayout (pageVm 1 userPerm []) (pageRole 1 []) :=
    pageVm_exact (by decide) (by decide) (by decide)
  obtain ⟨vm', hcall, hr⟩ := hall sampleLayout (pageVm 1 userPerm []) (pageRole 1 []) 500 0x800000
    0x1000 hexact rfl (by decide) (by decide)
  obtain ⟨vm₁, role₁, hcall₁, hc⟩ := deallocuvm_clears (d := 500) 0x800000 0x1000 hexact rfl
    (by decide) (by decide)
  obtain rfl : vm₁ = vm' := congrArg Prod.fst (Except.ok.inj (hcall₁.symm.trans hcall))
  have hskip : Skips ((pageVm 1 userPerm []).present 500) (pages 0x1000) 1024 := by
    refine ⟨by decide, by decide, fun j _ hj => ?_⟩
    rw [pageVm_present, decide_eq_false_iff_not]
    omega
  have hgone := hr.unmapped 1024 ⟨by decide, by decide⟩
  rw [hc.kept 1024 (.inr (.inr hskip)), pageVm_page, if_pos rfl] at hgone
  cases hgone

end Sample

end Vm
end Xv6
