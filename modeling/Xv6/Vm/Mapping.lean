import Xv6.Vm.Ownership

namespace Xv6

theorem next_page {v : Nat} (hv : v + 1 < 2 ^ 20) :
    uint (v * pgsize + pgsize) = (v + 1) * pgsize := by
  simp only [uint, pgsize]
  omega

theorem pdx_page {v : Nat} (hv : v < 2 ^ 20) : pdx (v * pgsize) = v / 1024 := by
  simp only [pdx, pgsize]
  omega

theorem ptx_page (v : Nat) : ptx (v * pgsize) = v % 1024 := by
  simp only [ptx, pgsize]
  omega

namespace Vm

variable {L : Layout} {vm vm' : Vm} {role role' : Nat → Role} {d v : Nat} {perm : Perm}

def present (vm : Vm) (d i : Nat) : Bool := (vm.tables.dir d i).isSome

def tableCost (vm : Vm) (d i : Nat) : Nat := if vm.present d i then 0 else 1

structure Reached (L : Layout) (d i pt : Nat) (vm vm' : Vm) (role role' : Nat → Role) : Prop where
  ok : Ok L vm' role'
  roles : ∀ q, role q ≠ .free → role' q = role q
  pages : ∀ q, role q = .dir → ∀ w, vm'.page q w = vm.page q w
  linked : vm'.tables.dir d i = some pt
  present : vm'.present d = Function.update (vm.present d) i true
  length : vm.freelist.length = vm'.freelist.length + vm.tableCost d i

theorem Ok.link {pt i : Nat} (h : Ok L vm role) (hd : role d = .dir) (hi : i < 1024)
    (hnone : vm.tables.dir d i = none) (hp : Popped vm vm' pt) :
    Reached L d i pt vm
      { vm'.zero pt with tables := (vm'.zero pt).tables.link d i pt } role
      (Function.update role pt (.table d i)) := by
  have hfree := h.free_of_popped hp
  have hheld := h.popped hp (r := .held) (by simp) rfl
  have hloose : (Function.update role pt .held pt).loose = true := by simp [Role.loose]
  have hzero := hheld.zero (p := pt) (by simp [Role.plain])
  have hdpt : d ≠ pt := by
    rintro rfl
    simp [hd] at hfree
  have hdir : (vm'.zero pt).tables.dir d = vm.tables.dir d := by
    rw [← hp.tables]
    exact TwoLevel.dir_fill_of_ne none none hdpt
  have hleaf : ∀ j, (vm'.zero pt).tables.leaf pt j = none := fun j => by
    simp [Vm.zero, TwoLevel.fill]
  have howned := hzero.owned.link (by rw [Function.update_of_ne hdpt, hd]) hloose hi (by rw [hdir, hnone]) hleaf
  rw [Function.update_idem] at howned
  refine ⟨⟨howned, ?_, hzero.nodup⟩, ?_, ?_, ?_, ?_, ?_⟩
  · intro q
    by_cases hq : q = pt
    · subst hq
      simpa using hheld.free q
    · simpa [hq] using hheld.free q
  · intro q hq
    rw [Function.update_of_ne]
    rintro rfl
    exact hq hfree
  · intro q hq w
    have hqpt : q ≠ pt := by
      rintro rfl
      simp [hfree] at hq
    rw [page, page, ← hp.tables]
    refine (TwoLevel.get_link (by rw [hdir, hnone]) hleaf _).trans ?_
    exact hheld.page_zero (by simp [Role.plain]) (by simp [hqpt, hq]) w
  · simp [TwoLevel.dir_link]
  · funext i'
    by_cases hi' : i' = i
    · subst hi'
      simp [Vm.present, TwoLevel.dir_link]
    · simp [Vm.present, TwoLevel.dir_link, hi', hdir]
  · simp [hp.length, tableCost, Vm.present, hnone, Vm.zero]

theorem walkpgdir_alloc (va : Nat) (h : Ok L vm role) (hd : role d = .dir) :
    vm.walkpgdir d va true = (vm, none) ∧ vm.freelist = [] ∧ vm.present d (pdx va) = false ∨
      ∃ vm' pt role', vm.walkpgdir d va true = (vm', some (pt, ptx va)) ∧
        Reached L d (pdx va) pt vm vm' role role' := by
  have hi : pdx va < 1024 := Nat.mod_lt _ (by norm_num)
  unfold walkpgdir
  cases hdir : vm.tables.dir d (pdx va) with
  | some pt =>
    have hpresent : vm.present d (pdx va) = true := by simp [Vm.present, hdir]
    refine Or.inr ⟨vm, pt, role, rfl, h, fun _ _ => rfl, fun _ _ _ => rfl, hdir, ?_, ?_⟩
    · rw [← hpresent, Function.update_eq_self]
    · simp [tableCost, hpresent]
  | none =>
    cases hk : vm.kalloc with
    | mk vm' r =>
      cases r with
      | none =>
        obtain ⟨rfl, hnil⟩ := kalloc_none hk
        exact Or.inl ⟨rfl, hnil, by simp [Vm.present, hdir]⟩
      | some pt => exact Or.inr ⟨_, pt, _, rfl, h.link hd hi hdir (kalloc_some hk)⟩

theorem Reached.table {i pt : Nat} (h : Reached L d i pt vm vm' role role') (hd : role d = .dir) :
    role' pt = .table d i :=
  h.ok.owned.dir d i pt ((h.roles d (by simp [hd])).trans hd) h.linked

theorem page_setPte_self {pt : Nat} (hlink : vm.tables.dir d (v / 1024) = some pt)
    (e : Option Pte) : (vm.setPte pt (v % 1024) e).page d v = e := TwoLevel.get_put e hlink

theorem Ok.page_setPte {pt q w : Nat} (h : Ok L vm role) (hpt : role pt = .table d (v / 1024))
    (hq : role q = .dir) (hne : q = d → w ≠ v) (e : Option Pte) :
    (vm.setPte pt (v % 1024) e).page q w = vm.page q w := by
  refine h.owned.get_put hpt hq ?_ e
  intro hqd hdiv hmod
  exact hne hqd (by omega)

theorem Ok.setPte {pt pa : Nat} (h : Ok L vm role) (hpt : role pt = .table d (v / 1024))
    (hm : v < 2 ^ 19 → role (pa / pgsize) = .held) (perm : Perm) :
    ∃ role', Ok L (vm.setPte pt (v % 1024) (some ⟨pa / pgsize, perm⟩)) role' ∧
      ∀ q, role q ≠ .held → role' q = role q := by
  by_cases hv : v < 2 ^ 19
  · have hheld := hm hv
    have hv' : v / 1024 * 1024 + v % 1024 = v := by omega
    have howned := h.owned.map (j := v % 1024) hpt (Nat.mod_lt _ (by norm_num))
      (by rw [hheld]; rfl) perm
    refine ⟨_, ⟨howned, ?_, h.nodup⟩, ?_⟩
    · intro q
      by_cases hq : q = pa / pgsize
      · subst hq
        rw [Function.update_self]
        have := h.free (pa / pgsize)
        rw [hheld] at this
        simpa using this
      · rw [Function.update_of_ne hq]
        exact h.free q
    · intro q hq
      rw [Function.update_of_ne]
      rintro rfl
      exact hq hheld
  · refine ⟨role, ⟨h.owned.put hpt ?_, h.free, h.nodup⟩, fun _ _ => rfl⟩
    intro e _ hi
    omega

structure MapsPage (L : Layout) (d v : Nat) (e : Pte) (vm vm' : Vm) (role role' : Nat → Role) :
    Prop where
  works : Works L d vm vm' role role'
  page : ∀ w, vm'.page d w = if w = v then some e else vm.page d w
  present : vm'.present d = Function.update (vm.present d) (v / 1024) true
  length : vm.freelist.length = vm'.freelist.length + vm.tableCost d (v / 1024)

theorem mapPage_spec (pa : Nat) (perm : Perm) (h : Ok L vm role) (hd : role d = .dir) (hv : v < 2 ^ 20)
    (hm : v < 2 ^ 19 → role (pa / pgsize) = .held) (hnone : vm.page d v = none) :
    vm.mapPage d (v * pgsize) pa perm = .ok (vm, false) ∧ vm.freelist = [] ∧
        vm.present d (v / 1024) = false ∨
      ∃ vm' role', vm.mapPage d (v * pgsize) pa perm = .ok (vm', true) ∧
        MapsPage L d v ⟨pa / pgsize, perm⟩ vm vm' role role' := by
  unfold mapPage
  rcases walkpgdir_alloc (v * pgsize) h hd with ⟨hwalk, hnil, habs⟩ |
    ⟨vm₁, pt, role₁, hwalk, hr⟩
  · rw [pdx_page hv] at habs
    exact Or.inl ⟨by rw [hwalk], hnil, habs⟩
  · rw [pdx_page hv] at hr
    rw [ptx_page] at hwalk
    have htable := hr.table hd
    have hd₁ : role₁ d = .dir := (hr.roles d (by simp [hd])).trans hd
    have hleaf : vm₁.tables.leaf pt (v % 1024) = none := by
      have hpage := hr.pages d hd v
      rw [hnone, page, TwoLevel.get, hr.linked] at hpage
      exact hpage
    obtain ⟨role₂, hok, hroles⟩ := hr.ok.setPte htable
      (fun hv => (hr.roles _ (by rw [hm hv]; simp)).trans (hm hv)) perm
    refine Or.inr ⟨_, role₂, by rw [hwalk]; simp [hleaf], ⟨hok, ?_, ?_⟩, ?_, hr.present, hr.length⟩
    · rw [hroles d (by simp [hd₁]), hd₁]
    · refine ⟨?_, ?_⟩
      · intro q hq hdir
        have hdir₁ := (hr.roles q (by simp [hdir])).trans hdir
        refine ⟨(hroles q (by simp [hdir₁])).trans hdir₁, fun w => ?_⟩
        rw [hr.ok.page_setPte htable hdir₁ (fun hqd => absurd hqd hq), hr.pages q hdir]
      · intro q _ s hs
        have hs₁ := (hr.roles q (by simp [hs])).trans hs
        exact (hroles q (by simp [hs₁])).trans hs₁
    · intro w
      split
      · rename_i hw
        subst hw
        exact page_setPte_self hr.linked _
      · rename_i hw
        rw [hr.ok.page_setPte htable hd₁ (fun _ => hw), hr.pages d hd]

theorem mapPage_remap {pa : Nat} (hv : v < 2 ^ 20) (hpage : (vm.page d v).isSome) :
    vm.mapPage d (v * pgsize) pa perm = .error .remap := by
  unfold page TwoLevel.get at hpage
  unfold mapPage walkpgdir
  rw [pdx_page hv, ptx_page]
  cases hdir : vm.tables.dir d (v / 1024) with
  | none => simp [hdir] at hpage
  | some pt =>
    rw [hdir, Option.bind_some] at hpage
    exact if_pos hpage

structure MapsRange (L : Layout) (d v k : Nat) (vm vm' : Vm) (role role' : Nat → Role) (r : Int) :
    Prop where
  result : r = 0 ∨ r = -1 ∧ vm'.freelist = []
  works : Works L d vm vm' role role'
  page : ∀ w, w < v ∨ v + k < w → vm'.page d w = vm.page d w
  length : vm.freelist.length ≤
    vm'.freelist.length + ((v + k) / 1024 - v / 1024) + vm.tableCost d (v / 1024)

theorem MapsRange.stuck {k : Nat} (h : Ok L vm role) (hd : role d = .dir)
    (hnil : vm.freelist = []) : MapsRange L d v k vm vm role role (-1) :=
  ⟨Or.inr ⟨rfl, hnil⟩, .refl h hd, fun _ _ => rfl, by simp [hnil]⟩

theorem MapsRange.cons {k : Nat} {e : Pte} {vm'' : Vm} {role'' : Nat → Role} {r : Int}
    (h : MapsPage L d v e vm vm' role role') (h' : MapsRange L d (v + 1) k vm' vm'' role' role'' r) :
    MapsRange L d v (k + 1) vm vm'' role role'' r := by
  have hk : v + 1 + k = v + (k + 1) := by omega
  refine ⟨h'.result, h.works.trans h'.works, ?_, ?_⟩
  · intro w hw
    rw [h'.page w (by omega), h.page, if_neg (by omega)]
  · have hlen := h.length
    have hlen' := h'.length
    rw [hk] at hlen'
    by_cases hsame : (v + 1) / 1024 = v / 1024
    · have hcost : vm'.tableCost d ((v + 1) / 1024) = 0 := by
        simp [tableCost, h.present, hsame]
      omega
    · have hcost : vm'.tableCost d ((v + 1) / 1024) ≤ 1 := by
        unfold tableCost
        split <;> omega
      omega

theorem mapLoop_spec (perm : Perm) (k : Nat) : ∀ {vm : Vm} {role : Nat → Role} {v : Nat} (pa : Nat),
    Ok L vm role →
    role d = .dir → 2 ^ 19 ≤ v → v + k < 2 ^ 20 →
    (∀ w, v ≤ w → w ≤ v + k → vm.page d w = none) →
    ∃ vm' role' r, mapLoop d perm k vm (v * pgsize) pa = .ok (vm', r) ∧
      MapsRange L d v k vm vm' role role' r := by
  induction k with
  | zero =>
    intro vm role v pa h hd hv hlt hnone
    simp only [Nat.add_zero] at hlt hnone ⊢
    rcases mapPage_spec pa perm h hd hlt (by omega)
      (hnone v le_rfl le_rfl) with ⟨hmap, hnil, _⟩ | ⟨vm₁, role₁, hmap, hm⟩
    · refine ⟨vm, role, -1, ?_, .stuck h hd hnil⟩
      rw [mapLoop, hmap]
      rfl
    · refine ⟨vm₁, role₁, 0, ?_, Or.inl rfl, hm.works, ?_, ?_⟩
      · rw [mapLoop, hmap]
        rfl
      · intro w hw
        rw [hm.page, if_neg (by omega)]
      · have := hm.length
        omega
  | succ k ih =>
    intro vm role v pa h hd hv hlt hnone
    rcases mapPage_spec pa perm h hd (by omega) (by omega)
      (hnone v le_rfl (by omega)) with ⟨hmap, hnil, _⟩ | ⟨vm₁, role₁, hmap, hm⟩
    · refine ⟨vm, role, -1, ?_, .stuck h hd hnil⟩
      rw [mapLoop, hmap]
      rfl
    · have hnext := next_page (v := v) (by omega)
      obtain ⟨vm₂, role₂, r, hloop, hrange⟩ := ih (v := v + 1) (uint (pa + pgsize)) hm.works.ok
        hm.works.dir (by omega) (by omega) (by
          intro w hw hw'
          rw [hm.page, if_neg (by omega)]
          exact hnone w (by omega) (by omega))
      refine ⟨vm₂, role₂, r, ?_, .cons hm hrange⟩
      rw [mapLoop, hmap, hnext]
      exact hloop

theorem mappages_range (vm : Vm) (d m pa : Nat) (perm : Perm) (hv : v + m < 2 ^ 20) :
    vm.mappages d (v * pgsize) ((m + 1) * pgsize) pa perm =
      mapLoop d perm m vm (v * pgsize) pa := by
  have hfirst : pgrounddown (v * pgsize) = v * pgsize := by
    simp only [pgrounddown, pgsize]
    omega
  have hlast : pgrounddown (uint (v * pgsize + (m + 1) * pgsize + (2 ^ 32 - 1))) =
      (v + m) * pgsize := by
    simp only [pgrounddown, uint, pgsize]
    omega
  have hcount : uint ((v + m) * pgsize + (2 ^ 32 - v * pgsize)) / pgsize = m := by
    simp only [uint, pgsize]
    omega
  rw [mappages, hfirst, hlast, hcount]

def Ascending : Nat → List Kmap → Prop
  | _, [] => True
  | b, k :: ks => ∃ v m, k.virt = v * pgsize ∧
    uint (k.physEnd + (2 ^ 32 - k.physStart)) = (m + 1) * pgsize ∧ b ≤ v ∧ v + m < 2 ^ 20 ∧
    Ascending (v + m + 1) ks

theorem kmap_ascending (L : Layout) : Ascending (2 ^ 19) (kmap L) := by
  have h1 := L.kernlink_lt
  have h2 := L.data_lt
  have h3 := L.kend_le
  refine ⟨2 ^ 19, 255, ?_, ?_, ?_, ?_, 2 ^ 19 + 256, L.data - 257, ?_, ?_, ?_, ?_,
    2 ^ 19 + L.data, 57343 - L.data, ?_, ?_, ?_, ?_, 1040384, 8191, ?_, ?_, ?_, ?_, trivial⟩
  all_goals first
    | omega
    | (simp only [uint, pgsize, kernbase, kernlink, extmem, phystop, devspace] <;> omega)

structure MapsKernel (L : Layout) (d b : Nat) (vm vm' : Vm) (role role' : Nat → Role)
    (mapped : Bool) : Prop where
  result : mapped = true ∨ vm'.freelist = []
  works : Works L d vm vm' role role'
  page : ∀ w < b, vm'.page d w = vm.page d w

theorem mapKernel_spec (ks : List Kmap) : ∀ {vm : Vm} {role : Nat → Role} {b : Nat}, Ok L vm role →
    role d = .dir → 2 ^ 19 ≤ b → Ascending b ks → (∀ w, b ≤ w → vm.page d w = none) →
    ∃ vm' role' mapped, mapKernel d ks vm = .ok (vm', mapped) ∧
      MapsKernel L d b vm vm' role role' mapped ∧
      vm.freelist.length ≤ vm'.freelist.length + ks.length * 512 := by
  induction ks with
  | nil =>
    intro vm role b h hd _ _ _
    exact ⟨vm, role, true, rfl, ⟨Or.inl rfl, .refl h hd, fun _ _ => rfl⟩, by simp⟩
  | cons k ks ih =>
    intro vm role b h hd hb hks hnone
    obtain ⟨v, m, hvirt, hsize, hbv, hlt, hks⟩ := hks
    obtain ⟨vm₁, role₁, r, hloop, hr⟩ := mapLoop_spec k.perm m k.physStart h hd
      (hb.trans hbv) hlt fun w hw _ => hnone w (by omega)
    have hmap : vm.mappages d k.virt (uint (k.physEnd + (2 ^ 32 - k.physStart))) k.physStart k.perm =
        .ok (vm₁, r) := by rw [hvirt, hsize, mappages_range _ _ _ _ _ hlt, hloop]
    have hlen : vm.freelist.length ≤ vm₁.freelist.length + 512 := by
      have := hr.length
      have : vm.tableCost d (v / 1024) ≤ 1 := by
        unfold tableCost
        split <;> omega
      omega
    rcases hr.result with rfl | ⟨rfl, hnil⟩
    · obtain ⟨vm₂, role₂, mapped, hrest, hm, hlen'⟩ := ih hr.works.ok hr.works.dir
        (b := v + m + 1) (by omega) hks fun w hw => by
          rw [hr.page w (by omega)]
          exact hnone w (by omega)
      refine ⟨vm₂, role₂, mapped, ?_, ⟨hm.result, hr.works.trans hm.works, ?_⟩, ?_⟩
      · rw [mapKernel, hmap]
        exact hrest
      · intro w hw
        rw [hm.page w (by omega), hr.page w (by omega)]
      · rw [List.length_cons]
        omega
    · refine ⟨vm₁, role₁, false, ?_, ⟨Or.inr hnil, hr.works, ?_⟩, ?_⟩
      · rw [mapKernel, hmap]
        rfl
      · intro w hw
        rw [hr.page w (by omega)]
      · rw [List.length_cons]
        omega

structure NewDir (role role' : Nat → Role) (vm : Vm) (d : Nat) : Prop where
  free : role d = .free
  dir : role' d = .dir
  page : ∀ w < 2 ^ 19, vm.page d w = none

theorem setupkvm_spec (h : Ok L vm role) :
    ∃ vm' role' r, vm.setupkvm L = .ok (vm', r) ∧ Ok L vm' role' ∧
      Keeps Set.univ vm vm' role role' ∧ (r = none → vm'.freelist = []) ∧
      (∀ d, r = some d → NewDir role role' vm' d) ∧
      vm.freelist.length ≤ vm'.freelist.length + 2049 := by
  unfold setupkvm
  cases hk : vm.kalloc with
  | mk vm₁ r =>
    cases r with
    | none =>
      obtain ⟨rfl, hnil⟩ := kalloc_none hk
      exact ⟨vm₁, role, none, rfl, h, .refl _ _ _, fun _ => hnil, by simp, by omega⟩
    | some d =>
      have hp := kalloc_some hk
      have hfree := h.free_of_popped hp
      have hheld := (h.popped hp (r := .held) (by simp) rfl).zero (p := d) (by simp [Role.plain])
      have hdir : ∀ i, (vm₁.zero d).tables.dir d i = none := fun i => by
        simp [Vm.zero, TwoLevel.fill]
      have hok : Ok L (vm₁.zero d) (Function.update role d .dir) := by
        have howned := hheld.owned.hand (p := d) (by simp [Role.loose]) (Or.inr ⟨rfl, hdir⟩)
        have := hheld.relabel (r := .dir) (by simp) (by simp) howned
        rwa [Function.update_idem] at this
      obtain ⟨vm₂, role₂, mapped, hmap, hm, hlen⟩ := mapKernel_spec (kmap L) hok
        (Function.update_self ..) le_rfl (kmap_ascending L)
        fun w _ => by simp [page, TwoLevel.get, hdir]
      have hkeeps : Keeps {d}ᶜ vm (vm₁.zero d) role (Function.update role d .dir) := by
        refine .update (fun hmem => absurd rfl hmem) fun q hq hrole v => ?_
        have hrole' : Function.update role d .held q = .dir := by
          rwa [Function.update_of_ne hq]
        have hheld' := h.popped hp (r := .held) (by simp) rfl
        rw [hheld'.page_zero (by simp [Role.plain]) hrole', hp.page]
      refine ⟨vm₂, role₂, if mapped then some d else none, ?_, hm.works.ok,
        (hkeeps.trans hm.works.keeps).univ hfree, ?_, ?_, ?_⟩
      · dsimp only
        rw [if_neg (by simp), hmap]
        rfl
      · intro hnone
        refine hm.result.resolve_left ?_
        rintro rfl
        simp at hnone
      · intro d' hd'
        split at hd' <;> cases hd'
        refine ⟨hfree, hm.works.dir, fun w hw => ?_⟩
        rw [hm.page w hw]
        simp [page, TwoLevel.get, hdir]
      · have := hp.length
        simp only [freelist_zero, kmap, List.length_cons, List.length_nil] at hlen
        omega

end Vm
end Xv6
