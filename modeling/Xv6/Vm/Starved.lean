import Xv6.Vm.Conserve

namespace Xv6
namespace Vm

variable {L : Layout} {vm vm' vm'' : Vm} {role role' role'' : Nat → Role} {d v p m : Nat}

structure Starves (L : Layout) (d v m p : Nat) (vm vm' vm'' : Vm) (role role' : Nat → Role) :
    Prop where
  mapped : Fills L d v m (fun _ _ => 0) vm vm' role role'
  took : Took L vm' vm'' role' p
  allocates : Allocates vm' vm''
  absent : vm'.present d ((v + m) / 1024) = false
  empty : vm''.freelist = []

theorem Starves.after {mem : Nat} {vm₁ : Vm} {role₁ : Nat → Role}
    (h : MapsUser L d v mem ⟨true, true⟩ vm vm₁ role role₁) (ha : Allocates vm vm₁)
    (hn : Newly vm vm₁ mem fun _ => 0) (hs : Starves L d (v + 1) m p vm₁ vm' vm'' role₁ role') :
    Starves L d v (m + 1) p vm vm' vm'' role role' := by
  refine ⟨h.fills ha hn hs.mapped, hs.took, hs.allocates, ?_, hs.empty⟩
  rw [show v + (m + 1) = v + 1 + m by omega]
  exact hs.absent

theorem Starves.dir (h : Starves L d v m p vm vm' vm'' role role') (hd : role d = .dir) :
    Function.update role' p .held d = .dir := by
  have hd' := h.mapped.acts.dir hd
  rw [Function.update_of_ne, hd']
  rintro rfl
  simp [h.took.free] at hd'

theorem Starves.exact (h : Starves L d v m p vm vm' vm'' role role') :
    Exact L vm'' (Function.update role' p .held) := h.took.exact h.mapped.acts.exact

theorem demand_pos (f : Nat → Bool) (k : Nat) : k ≤ demand f v k := by
  induction k generalizing f v with
  | zero => exact Nat.zero_le _
  | succ k ih =>
    have := ih (v := v + 1) (Function.update f (v / 1024) true)
    rw [demand]
    omega

-- The complement of `allocLoop_fills`: one page is lost, and the call still returns the new size
-- if it was the last page that was asked for.
theorem allocLoop_starves {oldsz newsz : Nat} (hnew : newsz < kernbase) (k : Nat) : ∀ {vm : Vm}
    {role : Nat → Role} {v : Nat}, Exact L vm role → role d = .dir → pages oldsz ≤ v →
    v + k = pages newsz → (∀ w < 2 ^ 19, v ≤ w → vm.page d w = none) →
    ¬ TablesFit (vm.present d) v k vm.freelist.length →
    ∃ m p vm₁ vm₂ role₁, Starves L d v m p vm vm₁ vm₂ role role₁ ∧ m < k ∧
      (m + 1 = k ∧ vm.freelist.length + 1 = demand (vm.present d) v k ∧
          allocLoop L d oldsz newsz k vm (v * pgsize) = .ok (vm₂, newsz) ∨
        vm.freelist.length + 1 < demand (vm.present d) v k ∧ ∃ vm' role',
          allocLoop L d oldsz newsz k vm (v * pgsize) = .ok (vm', 0) ∧
          vm₂.deallocuvm L d newsz oldsz = .ok (vm', oldsz) ∧
          Clears L d (pages oldsz) (pages newsz) vm₂ vm' (Function.update role₁ p .held) role') := by
  induction k with
  | zero =>
    intro vm role v _ _ _ _ _ hfit
    exact absurd trivial hfit
  | succ k ih =>
    intro vm role v h hd hold hk hnone hfit
    have hv : v < 2 ^ 19 := by
      have := pages_le hnew.le
      omega
    have hcost : vm.tableCost d (v / 1024) = absent (vm.present d) (v / 1024) := rfl
    have hnext := next_page (v := v) (by omega)
    rw [TablesFit, not_or] at hfit
    obtain ⟨hpos, hfit⟩ := hfit
    cases hkalloc : vm.kalloc with
    | mk vm₁ r =>
      cases r with
      | none =>
        obtain ⟨rfl, hnil⟩ := kalloc_none hkalloc
        rw [hnil] at hpos
        exact absurd rfl hpos
      | some mem =>
        have htook := Took.zero h.ok (kalloc_some hkalloc)
        have hlen := htook.length
        rcases Nat.lt_or_ge vm.freelist.length (1 + absent (vm.present d) (v / 1024)) with
          hroom | hroom
        · obtain ⟨habs, hnil, hmap⟩ := htook.stuck hd hv (hnone v hv le_rfl) hroom
          have hone : absent (vm.present d) (v / 1024) = 1 := by
            rw [absent, habs]
            rfl
          have hs : Starves L d v 0 mem vm vm (vm₁.zero mem) role role :=
            ⟨.refl h _, htook, kalloc_zero hkalloc, habs, hnil⟩
          refine ⟨0, mem, vm, vm₁.zero mem, role, hs, Nat.succ_pos k, ?_⟩
          rw [demand_succ, hcost, hone, allocLoop, hkalloc]
          simp only [hmap, hnext]
          cases k with
          | zero => exact .inl ⟨rfl, by rw [demand]; omega, rfl⟩
          | succ k =>
            have hlt : oldsz < newsz := by
              simp only [pages, pgsize] at *
              omega
            obtain ⟨vm', role', hdealloc, hc⟩ := deallocuvm_clears newsz oldsz hs.exact (hs.dir hd)
              hnew.le hlt
            have hdem := demand_pos (v := v + 1) (Function.update (vm.present d) (v / 1024) true)
              (k + 1)
            have hempty : (vm₁.zero mem).kalloc = (vm₁.zero mem, none) := by
              rw [kalloc, hnil]
            refine .inr ⟨by omega, vm', role', ?_, hdealloc, hc⟩
            change allocLoop L d oldsz newsz (k + 1) (vm₁.zero mem) ((v + 1) * pgsize) = _
            rw [allocLoop, hempty]
            simp only [hdealloc]
            rfl
        · obtain ⟨vm₂, role₂, hmap, hm, ha, hn, hfree⟩ := htook.newly h (kalloc_zero hkalloc) hd hv
            (hnone v hv le_rfl) hroom
          have hzero : (vm₁.zero mem).data mem = fun _ => 0 := Function.update_self ..
          rw [hzero] at hn
          have hlen₂ := hm.length
          obtain ⟨m, p, vm₃, vm₄, role₃, hs, hmk, hres⟩ := ih (v := v + 1) hm.acts.exact
            (hm.acts.dir hd) (by omega) (by omega) (fun w hw hvw => by
              rw [hm.page, if_neg (by omega)]
              exact hnone w hw (by omega)) (by
              rw [hm.present, hfree]
              exact fun hrest => hfit ⟨hroom, hrest⟩)
          have hloop : allocLoop L d oldsz newsz (k + 1) vm (v * pgsize) =
              allocLoop L d oldsz newsz k vm₂ ((v + 1) * pgsize) := by
            rw [allocLoop, hkalloc]
            simp only [hmap, hnext]
            rfl
          rw [hm.present] at hres
          refine ⟨m + 1, p, vm₃, vm₄, role₃, hs.after hm ha hn, Nat.succ_lt_succ hmk, ?_⟩
          rw [hloop, demand_succ]
          refine hres.imp ?_ ?_
          · rintro ⟨hlast, hdem, hcall⟩
            exact ⟨by omega, by omega, hcall⟩
          · rintro ⟨hdem, hcall⟩
            exact ⟨by omega, hcall⟩

theorem allocuvm_starves {oldsz newsz : Nat} (h : Exact L vm role) (hd : role d = .dir)
    (hnone : ∀ w < 2 ^ 19, pages oldsz ≤ w → vm.page d w = none) (hnew : newsz < kernbase)
    (hle : oldsz ≤ newsz)
    (hfit : ¬ TablesFit (vm.present d) (pages oldsz) (pages newsz - pages oldsz)
      vm.freelist.length) :
    ∃ m p vm₁ vm₂ role₁, Starves L d (pages oldsz) m p vm vm₁ vm₂ role role₁ ∧
      m < pages newsz - pages oldsz ∧
      (m + 1 = pages newsz - pages oldsz ∧
          vm.freelist.length + 1 =
            demand (vm.present d) (pages oldsz) (pages newsz - pages oldsz) ∧
          vm.allocuvm L d oldsz newsz = .ok (vm₂, newsz) ∨
        vm.freelist.length + 1 <
            demand (vm.present d) (pages oldsz) (pages newsz - pages oldsz) ∧ ∃ vm' role',
          vm.allocuvm L d oldsz newsz = .ok (vm', 0) ∧
          vm₂.deallocuvm L d newsz oldsz = .ok (vm', oldsz) ∧
          Clears L d (pages oldsz) (pages newsz) vm₂ vm' (Function.update role₁ p .held) role') := by
  have hpages := pages_mono hle
  rw [allocuvm_loop hnew hle]
  exact allocLoop_starves hnew (pages newsz - pages oldsz) h hd (le_refl (pages oldsz)) (by omega)
    hnone hfit

structure Starved (L : Layout) (d v m p : Nat) (vm vm' vm'' : Vm) (role role' : Nat → Role) :
    Prop where
  mapped : Extends L d v m vm vm' role role'
  took : Took L vm' vm'' role' p
  absent : vm'.present d ((v + m) / 1024) = false
  empty : vm''.freelist = []

theorem Starves.starved (h : Starves L d v m p vm vm' vm'' role role') (hst : Stacked vm d)
    (hr : Reaches vm d v) : Starved L d v m p vm vm' vm'' role role' :=
  ⟨h.mapped.extends hst hr, h.took, h.absent, h.empty⟩

theorem Starved.stacked (h : Starved L d v m p vm vm' vm'' role role') (hd : role d = .dir) :
    Stacked vm'' d := h.mapped.stacked.congr (h.took.present d (h.mapped.acts.dir hd))

end Vm
end Xv6
