import Xv6.Vm.Uvm

namespace Xv6
namespace Vm

variable {L : Layout} {vm vm' : Vm} {role role' : Nat → Role} {d v : Nat}

-- The page tables of a directory that is being freed, all from entry `i` on.
structure TablesFrom (vm : Vm) (role : Nat → Role) (d i : Nat) : Prop where
  linked : ∀ i' pt, i ≤ i' → vm.tables.dir d i' = some pt → role pt = .table d i'
  only : ∀ i' pt, role pt = .table d i' → i ≤ i'

namespace TablesFrom

variable {i pt : Nat} (ho : Owned L vm.tables role)

include ho

theorem retired (hd : role d = .dir) : TablesFrom vm (Function.update role d .dying) d 0 where
  linked i' pt _ hlink := by
    have hpt := ho.dir d i' pt hd hlink
    rw [Function.update_of_ne, hpt]
    rintro rfl
    simp [hd] at hpt
  only _ _ _ := Nat.zero_le _

theorem skip (h : TablesFrom vm role d i) (hdir : vm.tables.dir d i = none) :
    TablesFrom vm role d (i + 1) where
  linked i' pt hi := h.linked i' pt (by omega)
  only i' pt hpt := by
    have hle := h.only i' pt hpt
    have hne : i' ≠ i := by
      rintro rfl
      simp [(ho.linked pt d i' hpt).2.2] at hdir
    omega

theorem drop (h : TablesFrom vm role d i) (hdir : vm.tables.dir d i = some pt)
    (hsame : vm'.tables.dir d = vm.tables.dir d) :
    TablesFrom vm' (Function.update role pt .free) d (i + 1) where
  linked i' pt' hi hlink := by
    rw [hsame] at hlink
    have hrole := h.linked i' pt' (by omega) hlink
    rw [Function.update_of_ne, hrole]
    rintro rfl
    rw [h.linked i pt' le_rfl hdir, Role.table.injEq] at hrole
    omega
  only i' pt' hrole := by
    have hne : pt' ≠ pt := by
      rintro rfl
      simp at hrole
    rw [Function.update_of_ne hne] at hrole
    have hle := h.only i' pt' hrole
    have hi : i' ≠ i := by
      rintro rfl
      rw [(ho.linked pt' d i' hrole).2.2, Option.some.injEq] at hdir
      exact hne hdir
    omega

end TablesFrom

theorem freeTables_spec (k : Nat) : ∀ {vm : Vm} {role : Nat → Role} {i : Nat}, Ok L vm role →
    role d = .dying → i + k = 1024 → TablesFrom vm role d i →
    ∃ vm' role', freeTables L d k vm i = .ok vm' ∧ Ok L vm' role' ∧ role' d = .dying ∧
      (∀ pt i', role' pt ≠ .table d i') ∧ Keeps {d}ᶜ vm vm' role role' := by
  induction k with
  | zero =>
    intro vm role i h hd hk ht
    refine ⟨vm, role, rfl, h, hd, fun pt i' hpt => ?_, .refl _ _ _⟩
    have := ht.only i' pt hpt
    have := (h.owned.linked pt d i' hpt).2.1
    omega
  | succ k ih =>
    intro vm role i h hd hk ht
    rw [freeTables]
    cases hdir : vm.tables.dir d i with
    | none => exact ih h hd (by omega) (ht.skip h.owned hdir)
    | some pt =>
      have hpt := ht.linked i pt le_rfl hdir
      have hdpt : d ≠ pt := by
        rintro rfl
        simp [hd] at hpt
      obtain ⟨vm₁, hfree, hpushed⟩ := h.kfree (p := pt) (by simp [hpt])
      have howned := h.owned.dropTable hpt hd
      have hok := h.pushed hpushed (by simp [hpt]) howned
      have hkeeps := hpushed.keeps (D := {d}ᶜ) howned fun _ => by simp [hpt]
      have hdir₁ : vm₁.tables.dir d = vm.tables.dir d := by
        rw [hpushed.tables]
        exact TwoLevel.dir_fill_of_ne _ _ hdpt
      obtain ⟨vm', role', hloop, hok', hd', hnone, hkeeps'⟩ := ih hok
        (by rwa [Function.update_of_ne hdpt]) (by omega) (ht.drop h.owned hdir hdir₁)
      refine ⟨vm', role', ?_, hok', hd', hnone, hkeeps.trans hkeeps'⟩
      simp only [hfree]
      exact hloop

theorem freevm_spec {k : Nat} (h : Ok L vm role) (hd : role d = .dir) (hk : k ≤ 2 ^ 19)
    (hm : Mapped vm d k) :
    ∃ vm' role', vm.freevm L d = .ok vm' ∧ Ok L vm' role' ∧ Keeps {d}ᶜ vm vm' role role' := by
  have hpages : pages kernbase = 2 ^ 19 := by simp [pages]
  obtain ⟨vm₁, role₁, hdealloc, hworks, _, _⟩ := deallocuvm_spec kernbase 0 h hd
    le_rfl (by omega) hm (by simp)
  have hretired := hworks.ok.relabel (r := .dying) (by simp [hworks.dir]) (by simp)
    (hworks.ok.owned.retire hworks.dir)
  obtain ⟨vm₂, role₂, htables, hok, hdying, hnone, hkeeps⟩ := freeTables_spec (d := d) (i := 0) 1024
    hretired (by simp) rfl (.retired hworks.ok.owned hworks.dir)
  obtain ⟨vm₃, hfree, hpushed⟩ := hok.kfree (p := d) (by simp [hdying])
  have howned := hok.owned.dropDir hdying hnone
  have hkeeps₁ : Keeps {d}ᶜ vm₁ vm₁ role₁ (Function.update role₁ d .dying) :=
    .update (fun hmem => absurd rfl hmem) fun _ _ _ _ => rfl
  refine ⟨vm₃, _, ?_, hok.pushed hpushed (by simp [hdying]) howned, ?_⟩
  · rw [freevm, if_neg (h.ne_zero (by simp [hd]))]
    simp only [hdealloc]
    change (freeTables L d 1024 vm₁ 0 >>= fun vm => vm.kfree L d) = _
    rw [htables]
    exact hfree
  · exact hworks.keeps.trans (hkeeps₁.trans (hkeeps.trans
      (hpushed.keeps howned fun hmem => absurd rfl hmem)))

structure Copies (L : Layout) (d v k : Nat) (vm vm' : Vm) (role role' : Nat → Role)
    (copied : Bool) : Prop where
  works : Works L d vm vm' role role'
  whole : copied = true → Mapped vm' d (v + k)
  failed : copied = false → vm'.freelist = [] ∧ ∃ m ≤ 2 ^ 19, Mapped vm' d m
  length : vm.freelist.length ≤ vm'.freelist.length + k * 2

theorem copyLoop_spec {s : Nat} (hsd : s ≠ d) (k : Nat) : ∀ {vm : Vm} {role : Nat → Role} {v : Nat},
    Ok L vm role → role s = .dir → role d = .dir → v + k ≤ 2 ^ 19 →
    (∀ w < v + k, (vm.page s w).isSome) → Mapped vm d v →
    ∃ vm' role' copied, copyLoop s d k vm (v * pgsize) = .ok (vm', copied) ∧
      Copies L d v k vm vm' role role' copied := by
  induction k with
  | zero =>
    intro vm role v h hs hd _ _ hm
    exact ⟨vm, role, true, rfl, .refl h hd, fun _ => hm, by simp, by omega⟩
  | succ k ih =>
    intro vm role v h hs hd hk hsrc hm
    have hv : v < 2 ^ 19 := by omega
    have hsrcv := hsrc v (by omega)
    have hnext := next_page (v := v) (by omega)
    rcases page_walk vm s hv with ⟨_, hnone⟩ | ⟨pt, hwalk, _, hpage⟩
    · simp [hnone] at hsrcv
    · rw [hpage] at hsrcv
      obtain ⟨e, he⟩ := Option.isSome_iff_exists.mp hsrcv
      rw [copyLoop, hwalk]
      simp only [he]
      cases hkalloc : vm.kalloc with
      | mk vm₁ r =>
        cases r with
        | none =>
          obtain ⟨rfl, hnil⟩ := kalloc_none hkalloc
          exact ⟨vm₁, role, false, rfl, .refl h hd, by simp, fun _ => ⟨hnil, v, hv.le, hm⟩,
            by simp [hnil]⟩
        | some mem =>
          have htook := Took.copy h (kalloc_some hkalloc)
            (Function.update vm₁.data mem (vm₁.data e.page))
          rcases htook.map ⟨true, true⟩ hd hv (hm.none hv le_rfl) with
            ⟨hmap, hnil, hcost⟩ | ⟨vm₂, role₂, hmap, hworks, hpage', hpresent, hlen⟩
          · have hlen := htook.length
            rw [hnil, List.length_nil] at hlen
            refine ⟨_, _, false, ?_, htook.works hd, by simp, fun _ => ⟨hnil, v, hv.le, ?_⟩, ?_⟩
            · simp only [hmap]
              rfl
            · intro w hw
              rw [htook.page d hd, hm w hw]
            · omega
          · have hs₂ := hworks.keeps.dir s hsd hs
            obtain ⟨vm', role', copied, hloop, hc⟩ := ih hworks.ok hs₂.1 hworks.dir (by omega)
              (fun w hw => by rw [hs₂.2]; exact hsrc w (by omega)) (hm.extend hpage')
            refine ⟨vm', role', copied, ?_, hworks.trans hc.works, ?_, hc.failed, ?_⟩
            · simp only [hmap, hnext]
              exact hloop
            · intro hcopied
              rw [← Nat.add_assoc, Nat.add_right_comm]
              exact hc.whole hcopied
            · have hlen' := hc.length
              have : vm.tableCost d (v / 1024) ≤ 1 := by
                unfold tableCost
                split <;> omega
              omega

structure CopiedDir (role role' : Nat → Role) (vm : Vm) (sz d : Nat) : Prop where
  free : role d = .free
  dir : role' d = .dir
  mapped : Mapped vm d (pages sz)

theorem copyuvm_spec {s : Nat} (sz : Nat) (h : Ok L vm role) (hs : role s = .dir) (hsz : sz ≤ kernbase)
    (hm : Mapped vm s (pages sz)) :
    ∃ vm' role' r, vm.copyuvm L s sz = .ok (vm', r) ∧ Ok L vm' role' ∧
      Keeps Set.univ vm vm' role role' ∧ (∀ d, r = some d → CopiedDir role role' vm' sz d ∧
        vm.freelist.length ≤ vm'.freelist.length + 2049 + pages sz * 2) ∧
      (r = none → vm.freelist.length ≤ 2049 + pages sz * 2) := by
  have hpages := pages_le hsz
  obtain ⟨vm₁, role₁, r, hsetup, hok, hkeeps, hnil, hnew, hlen⟩ := setupkvm_spec h
  unfold copyuvm
  rw [hsetup]
  cases r with
  | none =>
    refine ⟨vm₁, role₁, none, rfl, hok, hkeeps, by simp, fun _ => ?_⟩
    rw [hnil rfl, List.length_nil] at hlen
    omega
  | some d =>
    have hd := hnew d rfl
    have hsd : s ≠ d := by
      rintro rfl
      simp [hd.free] at hs
    have hs₁ := hkeeps.dir s trivial hs
    have hm₁ : Mapped vm₁ d 0 := fun w hw => by simp [hd.page w hw]
    obtain ⟨vm₂, role₂, copied, hloop, hc⟩ := copyLoop_spec (v := 0) hsd (pages sz) hok hs₁.1 hd.dir
      (by omega) (fun w hw => by rw [hs₁.2, hm w (by omega)]; omega) hm₁
    rw [Nat.zero_mul] at hloop
    have hlen' := hc.length
    change ∃ vm' role' r, (copyLoop s d (pages sz) vm₁ 0 >>= fun x =>
      if x.2 then pure (x.1, some d) else x.1.freevm L d >>= fun vm => pure (vm, none)) = _ ∧ _
    rw [hloop]
    cases copied with
    | true =>
      refine ⟨vm₂, role₂, some d, rfl, hc.works.ok, ?_, ?_, by simp⟩
      · exact ((hkeeps.mono (Set.subset_univ _)).trans hc.works.keeps).univ hd.free
      · rintro _ ⟨⟩
        exact ⟨⟨hd.free, hc.works.dir, Nat.zero_add (pages sz) ▸ hc.whole rfl⟩, by omega⟩
    | false =>
      obtain ⟨hempty, m, hle, hm₂⟩ := hc.failed rfl
      obtain ⟨vm₃, role₃, hfree, hok₃, hkeeps₃⟩ := freevm_spec hc.works.ok hc.works.dir hle hm₂
      rw [hempty, List.length_nil] at hlen'
      refine ⟨vm₃, role₃, none, ?_, hok₃, ?_, by simp, fun _ => by omega⟩
      · change (vm₂.freevm L d >>= fun vm => pure (vm, none)) = _
        rw [hfree]
        rfl
      · exact ((hkeeps.mono (Set.subset_univ _)).trans
          (hc.works.keeps.trans hkeeps₃)).univ hd.free

theorem inituvm_spec (code : List UInt8) (h : Ok L vm role) (hd : role d = .dir)
    (hm : Mapped vm d 0) (hcode : code.length < pgsize) (hmem : 2 ≤ vm.freelist.length) :
    ∃ vm' role', vm.inituvm d code = .ok vm' ∧ Works L d vm vm' role role' ∧ Mapped vm' d 1 ∧
      vm.freelist.length ≤ vm'.freelist.length + 2 := by
  unfold inituvm
  rw [if_neg (by omega)]
  cases hk : vm.kalloc with
  | mk vm₁ r =>
    cases r with
    | none =>
      rw [(kalloc_none hk).2] at hmem
      simp at hmem
    | some mem =>
      have htook := Took.zero h (kalloc_some hk)
      rcases htook.map (v := 0) ⟨true, true⟩ hd (by omega) (hm.none (by omega) le_rfl) with
        ⟨_, hnil, _⟩ | ⟨vm₂, role₂, hmap, hworks, hpage, _, hlen⟩
      · have := htook.length
        rw [hnil, List.length_nil] at this
        omega
      · rw [Nat.zero_mul] at hmap
        have hcost : vm.tableCost d (0 / 1024) ≤ 1 := by
          unfold tableCost
          split <;> omega
        refine ⟨{ vm₂ with data := Function.update vm₂.data mem fun k => code.getD k 0 }, role₂,
          ?_, ⟨⟨hworks.ok.owned, hworks.ok.free, hworks.ok.nodup⟩, hworks.dir, ?_⟩,
          hm.extend hpage, ?_⟩
        · simp only [hmap]
          rfl
        · exact ⟨hworks.keeps.dir, hworks.keeps.stack⟩
        · rw [hlen]
          change _ ≤ vm₂.freelist.length + 2
          omega

-- What kinit leaves: a list of pages that kfree accepts.
structure FreeList (L : Layout) (vm : Vm) : Prop where
  valid : ∀ p ∈ vm.freelist, L.kend ≤ p ∧ p < 57344
  nodup : vm.freelist.Nodup

structure Boot (L : Layout) (vm : Vm) : Prop where
  valid : ∀ p ∈ vm.freelist, L.kend ≤ p ∧ p < 57344
  nodup : vm.freelist.Nodup
  enough : 2053 ≤ vm.freelist.length

theorem FreeList.ok (h : FreeList L vm) :
    Ok L vm (fun p => if p ∈ vm.freelist then .free else .reserved) := by
  refine ⟨⟨?_, ?_, ?_, ?_⟩, ?_, h.nodup⟩
  · intro p hp
    refine h.valid p ?_
    by_contra hmem
    simp [hmem] at hp
  · intro d i pt hd
    split at hd <;> cases hd
  · intro pt d i hpt
    split at hpt <;> cases hpt
  · intro pt d i j e hpt
    split at hpt <;> cases hpt
  · intro p
    by_cases hp : p ∈ vm.freelist <;> simp [hp]

theorem Boot.freeList (h : Boot L vm) : FreeList L vm := ⟨h.valid, h.nodup⟩

theorem Boot.ok (h : Boot L vm) :
    Ok L vm (fun p => if p ∈ vm.freelist then .free else .reserved) := h.freeList.ok

end Vm
end Xv6
