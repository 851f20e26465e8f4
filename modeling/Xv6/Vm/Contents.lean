import Xv6.Vm.Basic

namespace Xv6
namespace Vm

variable {L : Layout} {vm vm' vm'' : Vm} {d p va pa : Nat} {perm : Perm}

structure Allocates (vm vm' : Vm) : Prop where
  freelist : vm'.freelist <:+ vm.freelist
  data : ∀ p ∉ vm.freelist, vm'.data p = vm.data p

structure Releases (vm vm' : Vm) : Prop where
  freelist : vm.freelist <:+ vm'.freelist
  data : ∀ p ∉ vm'.freelist, vm'.data p = vm.data p

theorem Allocates.refl (vm : Vm) : Allocates vm vm := ⟨List.suffix_refl _, fun _ _ => rfl⟩

theorem Releases.refl (vm : Vm) : Releases vm vm := ⟨List.suffix_refl _, fun _ _ => rfl⟩

theorem Allocates.trans (h : Allocates vm vm') (h' : Allocates vm' vm'') : Allocates vm vm'' := by
  refine ⟨h'.freelist.trans h.freelist, fun p hp => ?_⟩
  rw [h'.data p fun hmem => hp (h.freelist.mem hmem), h.data p hp]

theorem Releases.trans (h : Releases vm vm') (h' : Releases vm' vm'') : Releases vm vm'' := by
  refine ⟨h.freelist.trans h'.freelist, fun p hp => ?_⟩
  rw [h'.data p hp, h.data p fun hmem => hp (h'.freelist.mem hmem)]

theorem kalloc_allocates {r : Option Nat} (h : vm.kalloc = (vm', r)) : Allocates vm vm' := by
  unfold kalloc at h
  split at h
  · cases h
    exact .refl vm
  · next hcons =>
    cases h
    exact ⟨by rw [hcons]; exact List.suffix_cons _ _, fun _ _ => rfl⟩

theorem kalloc_same {r : Option Nat} (h : vm.kalloc = (vm', r)) : vm'.data = vm.data := by
  unfold kalloc at h
  split at h <;> cases h <;> rfl

theorem kalloc_data (h : vm.kalloc = (vm', some p)) (data : Nat → UInt8) :
    Allocates vm { vm' with data := Function.update vm'.data p data } := by
  unfold kalloc at h
  split at h
  · cases h
  · next r next hcons =>
    cases h
    refine ⟨by rw [hcons]; exact List.suffix_cons _ _, fun q hq => Function.update_of_ne ?_ _ _⟩
    rintro rfl
    exact hq (by rw [hcons]; exact List.mem_cons_self)

theorem kalloc_zero (h : vm.kalloc = (vm', some p)) : Allocates vm (vm'.zero p) :=
  ⟨(kalloc_data h fun _ => 0).freelist, (kalloc_data h fun _ => 0).data⟩

theorem walkpgdir_allocates {alloc : Bool} {r : Option (Nat × Nat)}
    (h : vm.walkpgdir d va alloc = (vm', r)) : Allocates vm vm' := by
  unfold walkpgdir at h
  split at h
  · cases h
    exact .refl vm
  · split at h
    · cases hk : vm.kalloc with
      | mk vm₁ r =>
        rw [hk] at h
        cases r with
        | none =>
          cases h
          exact kalloc_allocates hk
        | some pgtab =>
          cases h
          exact ⟨(kalloc_zero hk).freelist, (kalloc_zero hk).data⟩
    · cases h
      exact .refl vm

theorem mapPage_allocates {mapped : Bool} (h : vm.mapPage d va pa perm = .ok (vm', mapped)) :
    Allocates vm vm' := by
  unfold mapPage at h
  cases hw : vm.walkpgdir d va true with
  | mk vm₁ r =>
    have hwalk := walkpgdir_allocates hw
    rw [hw] at h
    cases r with
    | none =>
      cases h
      exact hwalk
    | some pte =>
      simp only at h
      split at h
      · cases h
      · cases h
        exact ⟨hwalk.freelist, hwalk.data⟩

theorem mapLoop_allocates {r : Int} (k : Nat) : ∀ {vm vm' : Vm} {va pa : Nat},
    mapLoop d perm k vm va pa = .ok (vm', r) → Allocates vm vm' := by
  induction k with
  | zero =>
    intro vm vm' va pa h
    rw [mapLoop] at h
    cases hm : vm.mapPage d va pa perm with
    | error e =>
      rw [hm] at h
      cases h
    | ok x =>
      rw [hm] at h
      change (if x.2 then _ else _) = _ at h
      split at h <;> cases h <;> exact mapPage_allocates hm
  | succ k ih =>
    intro vm vm' va pa h
    rw [mapLoop] at h
    cases hm : vm.mapPage d va pa perm with
    | error e =>
      rw [hm] at h
      cases h
    | ok x =>
      rw [hm] at h
      change (if x.2 then _ else _) = _ at h
      split at h
      · exact (mapPage_allocates hm).trans (ih h)
      · cases h
        exact mapPage_allocates hm

theorem mappages_allocates {size : Nat} {r : Int}
    (h : vm.mappages d va size pa perm = .ok (vm', r)) : Allocates vm vm' := mapLoop_allocates _ h

theorem mapKernel_allocates {mapped : Bool} (ks : List Kmap) : ∀ {vm vm' : Vm},
    mapKernel d ks vm = .ok (vm', mapped) → Allocates vm vm' := by
  induction ks with
  | nil =>
    intro vm vm' h
    cases h
    exact .refl vm
  | cons k ks ih =>
    intro vm vm' h
    rw [mapKernel] at h
    cases hm : vm.mappages d k.virt (uint (k.physEnd + (2 ^ 32 - k.physStart))) k.physStart
        k.perm with
    | error e =>
      rw [hm] at h
      cases h
    | ok x =>
      rw [hm] at h
      change (if x.2 < 0 then _ else _) = _ at h
      split at h
      · cases h
        exact mappages_allocates hm
      · exact (mappages_allocates hm).trans (ih h)

theorem setupkvm_allocates {r : Option Nat} (h : vm.setupkvm L = .ok (vm', r)) :
    Allocates vm vm' := by
  unfold setupkvm at h
  cases hk : vm.kalloc with
  | mk vm₁ r₁ =>
    rw [hk] at h
    cases r₁ with
    | none =>
      cases h
      exact kalloc_allocates hk
    | some pgdir =>
      dsimp only at h
      rw [if_neg (by simp)] at h
      cases hm : mapKernel pgdir (kmap L) (vm₁.zero pgdir) with
      | error e =>
        rw [hm] at h
        cases h
      | ok x =>
        rw [hm] at h
        cases h
        exact (kalloc_zero hk).trans (mapKernel_allocates _ hm)

theorem kfree_releases (h : vm.kfree L p = .ok vm') : Releases vm vm' := by
  unfold kfree at h
  split at h
  · cases h
  · cases h
    refine ⟨List.suffix_cons _ _, fun q hq => Function.update_of_ne ?_ _ _⟩
    rintro rfl
    exact hq List.mem_cons_self

theorem freeTables_releases (k : Nat) : ∀ {vm vm' : Vm} {i : Nat},
    freeTables L d k vm i = .ok vm' → Releases vm vm' := by
  induction k with
  | zero =>
    intro vm vm' i h
    cases h
    exact .refl vm
  | succ k ih =>
    intro vm vm' i h
    rw [freeTables] at h
    cases hdir : vm.tables.dir d i with
    | none =>
      rw [hdir] at h
      exact ih h
    | some pt =>
      simp only [hdir] at h
      cases hk : vm.kfree L pt with
      | error e =>
        rw [hk] at h
        cases h
      | ok vm₁ =>
        rw [hk] at h
        exact (kfree_releases hk).trans (ih h)

theorem deallocLoop_releases {oldsz : Nat} (fuel : Nat) : ∀ {vm vm' : Vm} {a : Nat},
    deallocLoop L d oldsz fuel vm a = .ok vm' → Releases vm vm' := by
  induction fuel with
  | zero =>
    intro vm vm' a h
    cases h
    exact .refl vm
  | succ fuel ih =>
    intro vm vm' a h
    rw [deallocLoop] at h
    split at h
    · -- The walk does not allocate here.
      have hsame : (vm.walkpgdir d a false).1 = vm := by
        unfold walkpgdir
        split <;> rfl
      cases hw : vm.walkpgdir d a false with
      | mk vm₁ r =>
        rw [hw] at hsame
        obtain rfl : vm₁ = vm := hsame
        rw [hw] at h
        cases r with
        | none => exact ih h
        | some pte =>
          simp only at h
          split at h
          · exact ih h
          · next e _ =>
            split at h
            · cases h
            · cases hk : vm₁.kfree L e.page with
              | error x =>
                rw [hk] at h
                cases h
              | ok vm₂ =>
                rw [hk] at h
                have hset : Releases vm₂ (vm₂.setPte pte.1 pte.2 none) :=
                  ⟨List.suffix_refl _, fun _ _ => rfl⟩
                exact (kfree_releases hk).trans (hset.trans (ih h))
    · cases h
      exact .refl vm

theorem deallocuvm_releases {oldsz newsz r : Nat}
    (h : vm.deallocuvm L d oldsz newsz = .ok (vm', r)) : Releases vm vm' := by
  unfold deallocuvm at h
  split at h
  · cases h
    exact .refl vm
  · cases hl : deallocLoop L d oldsz (oldsz / pgsize + 1) vm (pgroundup newsz) with
    | error e =>
      rw [hl] at h
      cases h
    | ok vm₁ =>
      rw [hl] at h
      cases h
      exact deallocLoop_releases _ hl

theorem freevm_releases (h : vm.freevm L d = .ok vm') : Releases vm vm' := by
  unfold freevm at h
  split at h
  · cases h
  · cases hd : vm.deallocuvm L d kernbase 0 with
    | error e =>
      rw [hd] at h
      cases h
    | ok x =>
      rw [hd] at h
      change (freeTables L d npdentries x.1 0 >>= fun vm => vm.kfree L d) = _ at h
      cases ht : freeTables L d npdentries x.1 0 with
      | error e =>
        rw [ht] at h
        cases h
      | ok vm₁ =>
        rw [ht] at h
        exact (deallocuvm_releases hd).trans ((freeTables_releases _ ht).trans (kfree_releases h))

end Vm
end Xv6
