import Mathlib.Data.Finset.Card
import Xv6.Vm.CopyLoop

namespace Xv6
namespace Vm

variable {L : Layout} {vm vm' vm'' : Vm} {role role' role'' : Nat → Role} {d v p : Nat}

def kernelTable (i : Nat) : Prop := 512 ≤ i ∧ i < 568 ∨ 1016 ≤ i ∧ i < 1024

instance (i : Nat) : Decidable (kernelTable i) :=
  inferInstanceAs (Decidable (512 ≤ i ∧ i < 568 ∨ 1016 ≤ i ∧ i < 1024))

def tableCount (f : Nat → Bool) : Nat := ((Finset.range 1024).filter fun i => f i = true).card

theorem tableCount_update {f : Nat → Bool} {i : Nat} (hi : i < 1024) :
    tableCount (Function.update f i true) = tableCount f + absent f i := by
  unfold tableCount absent
  have hset : (Finset.range 1024).filter (fun j => Function.update f i true j = true) =
      insert i ((Finset.range 1024).filter fun j => f j = true) := by
    ext j
    by_cases hj : j = i
    · subst hj
      simp [hi]
    · simp [hj]
  rw [hset]
  split
  · rename_i hf
    rw [Finset.insert_eq_self.mpr (by simp [hi, hf]), Nat.add_zero]
  · rename_i hf
    rw [Finset.card_insert_of_notMem (by simp [hf])]

theorem tableCount_kernel : tableCount (fun i => decide (kernelTable i)) = 64 := by decide +kernel

theorem tableCount_lt {f : Nat → Bool} {i : Nat} (h : ∀ j, f j = true → kernelTable j)
    (hi : kernelTable i) (hf : f i = false) : tableCount f < 64 := by
  rw [← tableCount_kernel]
  refine Finset.card_lt_card ⟨?_, fun hsub => ?_⟩
  · intro j hj
    simp only [Finset.mem_filter, decide_eq_true_eq] at hj ⊢
    exact ⟨hj.1, h j hj.2⟩
  · have hmem : i ∈ (Finset.range 1024).filter (fun j => decide (kernelTable j) = true) := by
      simp only [Finset.mem_filter, Finset.mem_range, decide_eq_true_eq]
      unfold kernelTable at hi ⊢
      omega
    have := hsub hmem
    simp [hf] at this

structure MapsKernelPage (L : Layout) (d v : Nat) (e : Pte) (vm vm' : Vm)
    (role role' : Nat → Role) : Prop where
  acts : Acts L d vm vm' role role'
  page : ∀ w, vm'.page d w = if w = v then some e else vm.page d w
  present : vm'.present d = Function.update (vm.present d) (v / 1024) true
  length : vm.freelist.length = vm'.freelist.length + absent (vm.present d) (v / 1024)

theorem mapPage_kernel (pa : Nat) (perm : Perm) (h : Exact L vm role) (hd : role d = .dir)
    (hv : 2 ^ 19 ≤ v) (hlt : v < 2 ^ 20) (hnone : vm.page d v = none) :
    vm.mapPage d (v * pgsize) pa perm = .ok (vm, false) ∧ vm.freelist = [] ∧
        vm.present d (v / 1024) = false ∨
      ∃ vm' role', vm.mapPage d (v * pgsize) pa perm = .ok (vm', true) ∧
        MapsKernelPage L d v ⟨pa / pgsize, perm⟩ vm vm' role role' := by
  unfold mapPage
  rcases walkpgdir_acts (v * pgsize) h hd with ⟨hnil, habs, hwalk⟩ |
    ⟨vm₁, pt, role₁, hwalk, hr, hacts⟩
  · rw [pdx_page hlt] at habs
    exact .inl ⟨by rw [hwalk], hnil, habs⟩
  · rw [pdx_page hlt] at hr
    rw [ptx_page] at hwalk
    have hd₁ := hacts.dir hd
    have hpt := hr.table hd
    have hleaf : vm₁.tables.leaf pt (v % 1024) = none := by
      have hget : vm₁.page d v = none := by rw [hr.pages d hd, hnone]
      unfold Vm.page TwoLevel.get at hget
      rwa [hr.linked] at hget
    have hother : ∀ q w, role₁ q = .dir → (q = d → w ≠ v) →
        (vm₁.setPte pt (v % 1024) (some ⟨pa / pgsize, perm⟩)).page q w = vm₁.page q w :=
      fun q w hq hne => hacts.exact.ok.page_setPte hpt hq hne _
    refine .inr ⟨vm₁.setPte pt (v % 1024) (some ⟨pa / pgsize, perm⟩), role₁, ?_,
      ⟨⟨⟨?_, ?_, ?_⟩, ?_⟩, hacts.moves, ?_⟩, ?_, hr.present, hr.length⟩
    · rw [hwalk]
      simp only [hleaf, Option.isSome_none, Bool.false_eq_true, if_false]
    · refine hacts.exact.ok.owned.put hpt fun e _ hi => ?_
      omega
    · exact hacts.exact.ok.free
    · exact hacts.exact.ok.nodup
    · intro q d' v' hq
      obtain ⟨hd', hv', perm', hpage⟩ := hacts.exact.tight q d' v' hq
      refine ⟨hd', hv', perm', ?_⟩
      rw [hother d' v' hd' (fun _ => by omega), hpage]
    · intro q hq hdir
      obtain ⟨hpres, hpages⟩ := hacts.dirs q hq hdir
      refine ⟨hpres, fun w => ?_⟩
      rw [hother q w (hacts.dir hdir) (fun hqd => absurd hqd hq), hpages]
    · intro w
      split
      · rename_i hw
        subst hw
        exact page_setPte_self hr.linked _
      · rename_i hw
        rw [hother d w hd₁ (fun _ => hw), hr.pages d hd]

structure MapsKernelPart (L : Layout) (d : Nat) (vm vm' : Vm) (role role' : Nat → Role) : Prop where
  acts : Acts L d vm vm' role role'
  count : vm'.freelist.length + tableCount (vm'.present d) =
    vm.freelist.length + tableCount (vm.present d)
  grows : ∀ i, vm.present d i = true → vm'.present d i = true
  within : ∀ i, vm'.present d i = true → vm.present d i = true ∨ kernelTable i
  low : ∀ w < 2 ^ 19, vm'.page d w = vm.page d w
  user : ∀ w e, vm'.page d w = some e → vm.page d w = some e ∨ e.perm.u = false

theorem MapsKernelPart.refl (h : Exact L vm role) : MapsKernelPart L d vm vm role role :=
  ⟨.refl h, rfl, fun _ hi => hi, fun _ hi => .inl hi, fun _ _ => rfl, fun _ _ he => .inl he⟩

theorem MapsKernelPart.trans (h : MapsKernelPart L d vm vm' role role')
    (h' : MapsKernelPart L d vm' vm'' role' role'') : MapsKernelPart L d vm vm'' role role'' := by
  refine ⟨h.acts.trans h'.acts, h'.count.trans h.count, fun i hi => h'.grows i (h.grows i hi), ?_,
    fun w hw => (h'.low w hw).trans (h.low w hw), ?_⟩
  · intro i hi
    rcases h'.within i hi with hi | hi
    · exact h.within i hi
    · exact .inr hi
  · intro w e he
    rcases h'.user w e he with he | he
    · exact h.user w e he
    · exact .inr he

theorem MapsKernelPage.part {e : Pte} (h : MapsKernelPage L d v e vm vm' role role')
    (hv : 2 ^ 19 ≤ v) (hk : kernelTable (v / 1024)) (he : e.perm.u = false) :
    MapsKernelPart L d vm vm' role role' := by
  have hi : v / 1024 < 1024 := by
    unfold kernelTable at hk
    omega
  refine ⟨h.acts, ?_, ?_, ?_, ?_, ?_⟩
  · have hlen := h.length
    rw [h.present, tableCount_update hi]
    omega
  · intro i hpres
    rw [h.present, Function.update_apply]
    split
    · rfl
    · exact hpres
  · intro i hpres
    rw [h.present, Function.update_apply] at hpres
    split at hpres
    · rename_i hi
      exact .inr (hi ▸ hk)
    · exact .inl hpres
  · intro w hw
    rw [h.page, if_neg (by omega)]
  · intro w e' he'
    rw [h.page] at he'
    split at he'
    · cases he'
      exact .inr he
    · exact .inl he'

structure MapsKernelRange (L : Layout) (d v k : Nat) (vm vm' : Vm) (role role' : Nat → Role)
    (r : Int) : Prop where
  part : MapsKernelPart L d vm vm' role role'
  outside : ∀ w, ¬ (v ≤ w ∧ w ≤ v + k) → vm'.page d w = vm.page d w
  result : r = 0 ∧ (∀ w, v ≤ w → w ≤ v + k → vm'.present d (w / 1024) = true) ∨
    r = -1 ∧ vm'.freelist = [] ∧ ∃ i, kernelTable i ∧ vm'.present d i = false

theorem mapLoop_kernel (perm : Perm) (hperm : perm.u = false) (k : Nat) : ∀ {vm : Vm}
    {role : Nat → Role} {v : Nat} (pa : Nat), Exact L vm role → role d = .dir → 2 ^ 19 ≤ v →
    v + k < 2 ^ 20 → (∀ w, v ≤ w → w ≤ v + k → kernelTable (w / 1024)) →
    (∀ w, v ≤ w → w ≤ v + k → vm.page d w = none) →
    ∃ vm' role' r, mapLoop d perm k vm (v * pgsize) pa = .ok (vm', r) ∧
      MapsKernelRange L d v k vm vm' role role' r := by
  induction k with
  | zero =>
    intro vm role v pa h hd hv hlt htab hnone
    have hk := htab v le_rfl (by omega)
    rcases mapPage_kernel pa perm h hd hv hlt (hnone v le_rfl (by omega)) with
      ⟨hmap, hnil, habs⟩ | ⟨vm₁, role₁, hmap, hm⟩
    · refine ⟨vm, role, -1, ?_, .refl h, fun _ _ => rfl, .inr ⟨rfl, hnil, _, hk, habs⟩⟩
      rw [mapLoop, hmap]
      rfl
    · refine ⟨vm₁, role₁, 0, ?_, hm.part hv hk hperm, fun w hw => ?_, .inl ⟨rfl, fun w hw hw' => ?_⟩⟩
      · rw [mapLoop, hmap]
        rfl
      · rw [hm.page, if_neg (by omega)]
      · rw [hm.present, show w = v by omega, Function.update_self]
  | succ k ih =>
    intro vm role v pa h hd hv hlt htab hnone
    have hk := htab v le_rfl (by omega)
    rcases mapPage_kernel pa perm h hd hv (by omega) (hnone v le_rfl (by omega)) with
      ⟨hmap, hnil, habs⟩ | ⟨vm₁, role₁, hmap, hm⟩
    · refine ⟨vm, role, -1, ?_, .refl h, fun _ _ => rfl, .inr ⟨rfl, hnil, _, hk, habs⟩⟩
      rw [mapLoop, hmap]
      rfl
    · have hnext := next_page (v := v) (by omega)
      obtain ⟨vm₂, role₂, r, hloop, hr⟩ := ih (v := v + 1) (uint (pa + pgsize)) hm.acts.exact
        (hm.acts.dir hd) (by omega) (by omega) (fun w hw hw' => htab w (by omega) (by omega))
        fun w hw hw' => by
          rw [hm.page, if_neg (by omega)]
          exact hnone w (by omega) (by omega)
      have hpart := hm.part hv hk hperm
      refine ⟨vm₂, role₂, r, ?_, hpart.trans hr.part, fun w hw => ?_, ?_⟩
      · rw [mapLoop, hmap, hnext]
        exact hloop
      · rw [hr.outside w (by omega), hm.page, if_neg (by omega)]
      · refine hr.result.imp_left ?_
        rintro ⟨hr0, hall⟩
        refine ⟨hr0, fun w hw hw' => ?_⟩
        rcases Nat.lt_or_eq_of_le hw with hlt' | rfl
        · exact hall w (by omega) (by omega)
        · refine hr.part.grows _ ?_
          rw [hm.present, Function.update_self]

def KernelRanges : Nat → List Kmap → Prop
  | _, [] => True
  | b, k :: ks => ∃ v m, k.virt = v * pgsize ∧
    uint (k.physEnd + (2 ^ 32 - k.physStart)) = (m + 1) * pgsize ∧ b ≤ v ∧ v + m < 2 ^ 20 ∧
    (∀ w, v ≤ w → w ≤ v + m → kernelTable (w / 1024)) ∧ k.perm.u = false ∧
    KernelRanges (v + m + 1) ks

theorem kmap_kernelRanges (L : Layout) : KernelRanges (2 ^ 19) (kmap L) := by
  have h1 := L.kernlink_lt
  have h2 := L.data_lt
  have h3 := L.kend_le
  refine ⟨2 ^ 19, 255, ?_, ?_, ?_, ?_, ?_, rfl, 2 ^ 19 + 256, L.data - 257, ?_, ?_, ?_, ?_, ?_, rfl,
    2 ^ 19 + L.data, 57343 - L.data, ?_, ?_, ?_, ?_, ?_, rfl, 1040384, 8191, ?_, ?_, ?_, ?_, ?_, rfl,
    trivial⟩
  all_goals first
    | omega
    | (simp only [uint, pgsize, kernbase, kernlink, extmem, phystop, devspace] <;> omega)
    | (unfold kernelTable; omega)

def Covers (ks : List Kmap) (w : Nat) : Prop :=
  ∃ k ∈ ks, k.virt ≤ w * pgsize ∧
    w * pgsize < k.virt + uint (k.physEnd + (2 ^ 32 - k.physStart))

theorem kmap_covers {i : Nat} (hi : kernelTable i) : Covers (kmap L) (i * 1024) := by
  have h1 := L.kernlink_lt
  have h2 := L.data_lt
  have h3 := L.kend_le
  unfold kernelTable at hi
  by_cases hdev : 1016 ≤ i
  · refine ⟨⟨devspace, devspace, 0, true, false⟩, by simp [kmap], ?_, ?_⟩
    · simp only [pgsize, devspace]
      omega
    · simp only [uint, pgsize, devspace]
      omega
  by_cases hlow : i * 1024 < 2 ^ 19 + 256
  · refine ⟨⟨kernbase, 0, extmem, true, false⟩, by simp [kmap], ?_, ?_⟩
    · change 2147483648 ≤ i * 1024 * 4096
      omega
    · have hsize : uint (extmem + (2 ^ 32 - 0)) = extmem := by norm_num [uint]
      have hend : kernbase + extmem = (2 ^ 19 + 256) * pgsize := by norm_num
      rw [hsize, hend]
      exact Nat.mul_lt_mul_of_pos_right hlow (by decide)
  by_cases htext : i * 1024 < 2 ^ 19 + L.data
  · refine ⟨⟨kernlink, extmem, L.data * pgsize, false, false⟩, by simp [kmap], ?_, ?_⟩
    · change 2147483648 + 1048576 ≤ i * 1024 * 4096
      omega
    · have hsize : uint (L.data * pgsize + (2 ^ 32 - extmem)) = L.data * pgsize - extmem := by
        simp only [uint, pgsize, extmem]
        omega
      have hend : kernlink + (L.data * pgsize - extmem) = (2 ^ 19 + L.data) * pgsize := by
        simp only [pgsize, kernlink, kernbase, extmem]
        omega
      rw [hsize, hend]
      exact Nat.mul_lt_mul_of_pos_right htext (by decide)
  · refine ⟨⟨kernbase + L.data * pgsize, L.data * pgsize, phystop, true, false⟩, by simp [kmap],
      ?_, ?_⟩
    · simp only [pgsize, kernbase]
      omega
    · simp only [uint, pgsize, kernbase, phystop]
      omega

theorem mapKernel_acts (ks : List Kmap) : ∀ {vm : Vm} {role : Nat → Role} {b : Nat},
    Exact L vm role → role d = .dir → 2 ^ 19 ≤ b → KernelRanges b ks →
    (∀ w, b ≤ w → vm.page d w = none) →
    ∃ vm' role' mapped, mapKernel d ks vm = .ok (vm', mapped) ∧
      MapsKernelPart L d vm vm' role role' ∧
      (mapped = true ∧ (∀ w, Covers ks w → vm'.present d (w / 1024) = true) ∨
        mapped = false ∧ vm'.freelist = [] ∧ ∃ i, kernelTable i ∧ vm'.present d i = false) := by
  induction ks with
  | nil =>
    intro vm role b h _ _ _ _
    refine ⟨vm, role, true, rfl, .refl h, .inl ⟨rfl, ?_⟩⟩
    rintro w ⟨k, hk, _⟩
    cases hk
  | cons k ks ih =>
    intro vm role b h hd hb hks hnone
    obtain ⟨v, m, hvirt, hsize, hbv, hlt, htab, hperm, hks⟩ := hks
    obtain ⟨vm₁, role₁, r, hloop, hr⟩ := mapLoop_kernel k.perm hperm m k.physStart h hd
      (hb.trans hbv) hlt htab fun w hw _ => hnone w (by omega)
    have hmap : vm.mappages d k.virt (uint (k.physEnd + (2 ^ 32 - k.physStart))) k.physStart
        k.perm = .ok (vm₁, r) := by rw [hvirt, hsize, mappages_range _ _ _ _ _ hlt, hloop]
    rcases hr.result with ⟨rfl, hall⟩ | ⟨rfl, hnil, habs⟩
    · obtain ⟨vm₂, role₂, mapped, hrest, hpart, hres⟩ := ih hr.part.acts.exact
        (hr.part.acts.dir hd) (b := v + m + 1) (by omega) hks fun w hw => by
          rw [hr.outside w (by omega)]
          exact hnone w (by omega)
      refine ⟨vm₂, role₂, mapped, ?_, hr.part.trans hpart, ?_⟩
      · rw [mapKernel, hmap]
        exact hrest
      · refine hres.imp_left ?_
        rintro ⟨hm, hcov⟩
        refine ⟨hm, ?_⟩
        rintro w ⟨k', hk', hlow, hhigh⟩
        rcases List.mem_cons.mp hk' with rfl | hk'
        · rw [hvirt] at hlow
          rw [hvirt, hsize, ← Nat.add_mul] at hhigh
          have hw := Nat.le_of_mul_le_mul_right hlow (by decide)
          have hw' := Nat.lt_of_mul_lt_mul_right hhigh
          exact hpart.grows _ (hall w hw (by omega))
        · exact hcov w ⟨k', hk', hlow, hhigh⟩
    · refine ⟨vm₁, role₁, false, ?_, hr.part, .inr ⟨rfl, hnil, habs⟩⟩
      rw [mapKernel, hmap]
      rfl

structure NewSpace (L : Layout) (d : Nat) (vm vm' : Vm) (role role' : Nat → Role) : Prop where
  free : role d = .free
  acts : Acts L d vm vm' (Function.update role d .dir) role'
  spans : Spans vm' d 0
  present : ∀ i, vm'.present d i = decide (kernelTable i)
  user : ∀ w e, vm'.page d w = some e → e.perm.u = false
  length : vm.freelist.length = vm'.freelist.length + 65

theorem setupkvm_empty (h : vm.freelist = []) : vm.setupkvm L = .ok (vm, none) := by
  unfold setupkvm kalloc
  rw [h]
  rfl

theorem setupkvm_one (h : vm.freelist = [d]) :
    vm.setupkvm L = .ok (Vm.zero { vm with freelist := [] } d, none) := by
  have hfail : ∀ perm k a pa, mapLoop d perm k (Vm.zero { vm with freelist := [] } d) a pa =
      .ok (Vm.zero { vm with freelist := [] } d, -1) := by
    intro perm k a pa
    have hmap : (Vm.zero { vm with freelist := [] } d).mapPage d a pa perm =
        .ok (Vm.zero { vm with freelist := [] } d, false) := by
      simp [mapPage, walkpgdir, kalloc, Vm.zero, TwoLevel.fill]
    cases k with
    | zero =>
      rw [mapLoop, hmap]
      rfl
    | succ k =>
      rw [mapLoop, hmap]
      rfl
  unfold setupkvm kalloc
  rw [h]
  dsimp only
  rw [if_neg (by simp), kmap, mapKernel, mappages]
  dsimp only
  rw [hfail]
  rfl

theorem Exact.newDir (h : Exact L vm role) (hp : Popped vm vm' d) :
    Exact L (vm'.zero d) (Function.update role d .dir) ∧
      ∀ q, q ≠ d → role q = .dir → (vm'.zero d).present q = vm.present q ∧
        ∀ w, (vm'.zero d).page q w = vm.page q w := by
  have hfree := h.ok.free_of_popped hp
  have htook := Took.zero h.ok hp
  have hheld := htook.exact h
  have hdir : ∀ i, (vm'.zero d).tables.dir d i = none := fun i => by simp [Vm.zero, TwoLevel.fill]
  have howned := hheld.ok.owned.hand (p := d) (by simp [Role.loose]) (Or.inr ⟨rfl, hdir⟩)
  have hok := hheld.ok.relabel (r := .dir) (by simp) (by simp) howned
  rw [Function.update_idem] at hok
  refine ⟨⟨hok, fun q d' v hq => ?_⟩, fun q _ hq => ⟨htook.present q hq, htook.page q hq⟩⟩
  have hqd : q ≠ d := by
    rintro rfl
    simp at hq
  rw [Function.update_of_ne hqd] at hq
  obtain ⟨hd', hv, perm, hpage⟩ := h.tight q d' v hq
  have hdd : d' ≠ d := by
    rintro rfl
    simp [hfree] at hd'
  exact ⟨(Function.update_of_ne hdd _ _).trans hd', hv, perm, (htook.page d' hd' v).trans hpage⟩

-- 64 page tables and the directory. With fewer pages setupkvm fails and gives nothing back.
theorem setupkvm_cases (h : Exact L vm role) :
    (∃ vm' role' d, vm.setupkvm L = .ok (vm', some d) ∧ NewSpace L d vm vm' role role') ∨
      vm.freelist.length < 65 ∧ ∃ vm', vm.setupkvm L = .ok (vm', none) := by
  unfold setupkvm
  cases hk : vm.kalloc with
  | mk vm₁ r =>
    cases r with
    | none =>
      rw [(kalloc_none hk).2]
      exact .inr ⟨by simp, vm₁, rfl⟩
    | some d =>
      have hp := kalloc_some hk
      have hpop := hp.length
      obtain ⟨hnew, hothers⟩ := h.newDir hp
      have hdir : ∀ i, (vm₁.zero d).tables.dir d i = none := fun i => by
        simp [Vm.zero, TwoLevel.fill]
      have habs : (vm₁.zero d).present d = fun _ => false := by
        funext i
        simp [Vm.present, hdir]
      have hnone : ∀ w, (vm₁.zero d).page d w = none := fun w => by
        simp [page, TwoLevel.get, hdir]
      obtain ⟨vm₂, role₂, mapped, hmap, hpart, hres⟩ := mapKernel_acts (kmap L) hnew
        (Function.update_self ..) le_rfl (kmap_kernelRanges L) fun w _ => hnone w
      have hcount := hpart.count
      have hzero : tableCount (fun _ => false) = 0 := by simp [tableCount]
      rw [habs, hzero, freelist_zero] at hcount
      have hwithin : ∀ i, vm₂.present d i = true → kernelTable i := by
        intro i hi
        refine (hpart.within i hi).resolve_left ?_
        simp [habs]
      rcases hres with ⟨rfl, hcov⟩ | ⟨rfl, hnil, i, hi, hf⟩
      · have hpres : ∀ i, vm₂.present d i = decide (kernelTable i) := by
          intro i
          rw [Bool.eq_iff_iff, decide_eq_true_iff]
          refine ⟨hwithin i, fun hi => ?_⟩
          have := hcov (i * 1024) (kmap_covers hi)
          rwa [Nat.mul_div_cancel _ (by norm_num)] at this
        rw [funext hpres, tableCount_kernel] at hcount
        refine .inl ⟨vm₂, role₂, d, ?_, h.ok.free_of_popped hp,
          ⟨hpart.acts.exact, hpart.acts.moves, ?_⟩, ⟨?_, .inl rfl, fun w hw _ => ?_⟩, hpres, ?_,
          by omega⟩
        · dsimp only
          rw [if_neg (by simp), hmap]
          rfl
        · intro q hq hdir'
          obtain ⟨hp₁, hpg₁⟩ := hpart.acts.dirs q hq hdir'
          rw [Function.update_of_ne hq] at hdir'
          obtain ⟨hp₀, hpg₀⟩ := hothers q hq hdir'
          exact ⟨hp₁.trans hp₀, fun w => (hpg₁ w).trans (hpg₀ w)⟩
        · intro i i' _ hi' hpres'
          have := hwithin i' hpres'
          unfold kernelTable at this
          omega
        · rw [hpart.low w hw, hnone]
        · intro w e he
          refine (hpart.user w e he).resolve_left ?_
          rw [hnone]
          simp
      · have hlt := tableCount_lt hwithin hi hf
        rw [hnil, List.length_nil] at hcount
        refine .inr ⟨by omega, vm₂, ?_⟩
        dsimp only
        rw [if_neg (by simp), hmap]
        rfl

theorem setupkvm_acts (h : Exact L vm role) (hlen : 65 ≤ vm.freelist.length) :
    ∃ vm' role' d, vm.setupkvm L = .ok (vm', some d) ∧ NewSpace L d vm vm' role role' :=
  (setupkvm_cases h).resolve_right fun hc => absurd hc.1 (by omega)

theorem freeTables_acts (k : Nat) : ∀ {vm : Vm} {role : Nat → Role} {i : Nat}, Exact L vm role →
    role d = .dying → i + k = 1024 → TablesFrom vm role d i →
    ∃ vm' role', freeTables L d k vm i = .ok vm' ∧ Acts L d vm vm' role role' ∧
      ∀ pt i', role' pt ≠ .table d i' := by
  induction k with
  | zero =>
    intro vm role i h hd hk ht
    refine ⟨vm, role, rfl, .refl h, fun pt i' hpt => ?_⟩
    have := ht.only i' pt hpt
    have := (h.ok.owned.linked pt d i' hpt).2.1
    omega
  | succ k ih =>
    intro vm role i h hd hk ht
    rw [freeTables]
    cases hdir : vm.tables.dir d i with
    | none => exact ih h hd (by omega) (ht.skip h.ok.owned hdir)
    | some pt =>
      have hpt := ht.linked i pt le_rfl hdir
      have hdpt : d ≠ pt := by
        rintro rfl
        simp [hd] at hpt
      obtain ⟨vm₁, hfree, hpushed⟩ := h.ok.kfree (p := pt) (by simp [hpt])
      have howned := h.ok.owned.dropTable hpt hd
      have hok := h.ok.pushed hpushed (by simp [hpt]) howned
      have hkeeps := hpushed.keeps (D := {d}ᶜ) howned fun _ => by simp [hpt]
      have hdirs : ∀ q, q ≠ pt → vm₁.tables.dir q = vm.tables.dir q := by
        intro q hq
        rw [hpushed.tables]
        exact TwoLevel.dir_fill_of_ne _ _ hq
      have hne : ∀ q, role q = .dir → q ≠ pt ∧ q ≠ d := by
        intro q hq
        constructor <;> rintro rfl
        · simp [hpt] at hq
        · simp [hd] at hq
      have hacts : Acts L d vm vm₁ role (Function.update role pt .free) := by
        refine ⟨⟨hok, fun q d' v hq => ?_⟩, .update (hpt ▸ belongs_table i) belongs_free, ?_⟩
        · have hqpt : q ≠ pt := by
            rintro rfl
            simp at hq
          rw [Function.update_of_ne hqpt] at hq
          obtain ⟨hd', hv, perm, hpage⟩ := h.tight q d' v hq
          obtain ⟨hd'', hpage'⟩ := hkeeps.dir d' (hne d' hd').2 hd'
          exact ⟨hd'', hv, perm, (hpage' v).trans hpage⟩
        · intro q hq hrole
          refine ⟨?_, (hkeeps.dir q hq hrole).2⟩
          funext i'
          rw [Vm.present, Vm.present, hdirs q (hne q hrole).1]
      obtain ⟨vm', role', hloop, hacts', hnone⟩ := ih hacts.exact
        (by rwa [Function.update_of_ne hdpt]) (by omega)
        (ht.drop h.ok.owned hdir (hdirs d hdpt))
      refine ⟨vm', role', ?_, hacts.trans hacts', hnone⟩
      simp only [hfree]
      exact hloop

structure Frees (L : Layout) (d : Nat) (vm vm' : Vm) (role role' : Nat → Role) : Prop where
  exact : Exact L vm' role'
  gone : ∀ p, p = d ∨ Belongs d (role p) → role' p = .free
  kept : ∀ p, p ≠ d → ¬ Belongs d (role p) → role' p = role p
  dirs : ∀ q, q ≠ d → role q = .dir →
    vm'.present q = vm.present q ∧ ∀ v, vm'.page q v = vm.page q v

theorem Exact.retire (h : Exact L vm role) (hd : role d = .dir)
    (hnone : ∀ w < 2 ^ 19, vm.page d w = none) :
    Exact L vm (Function.update role d .dying) := by
  refine ⟨h.ok.relabel (by simp [hd]) (by simp) (h.ok.owned.retire hd), fun q d' v hq => ?_⟩
  have hqd : q ≠ d := by
    rintro rfl
    simp at hq
  rw [Function.update_of_ne hqd] at hq
  obtain ⟨hd', hv, perm, hpage⟩ := h.tight q d' v hq
  have hdd : d' ≠ d := by
    rintro rfl
    simp [hnone v hv] at hpage
  exact ⟨(Function.update_of_ne hdd _ _).trans hd', hv, perm, hpage⟩

theorem Exact.drop (h : Exact L vm role) (hd : role d = .dying)
    (hnone : ∀ pt i, role pt ≠ .table d i) (hp : Pushed vm vm' d) :
    Exact L vm' (Function.update role d .free) ∧
      ∀ q, role q = .dir → vm'.present q = vm.present q ∧ ∀ v, vm'.page q v = vm.page q v := by
  have howned := h.ok.owned.dropDir hd hnone
  have hok := h.ok.pushed hp (by simp [hd]) howned
  have hkeeps := hp.keeps (D := {d}ᶜ) howned fun hmem => absurd rfl hmem
  have hne : ∀ q, role q = .dir → q ≠ d := by
    rintro q hq rfl
    simp [hd] at hq
  refine ⟨⟨hok, fun q d' v hq => ?_⟩, fun q hq => ⟨?_, (hkeeps.dir q (hne q hq) hq).2⟩⟩
  · have hqd : q ≠ d := by
      rintro rfl
      simp at hq
    rw [Function.update_of_ne hqd] at hq
    obtain ⟨hd', hv, perm, hpage⟩ := h.tight q d' v hq
    obtain ⟨hd'', hpage'⟩ := hkeeps.dir d' (hne d' hd') hd'
    exact ⟨hd'', hv, perm, (hpage' v).trans hpage⟩
  · funext i
    rw [Vm.present, Vm.present, hp.tables, TwoLevel.dir_fill_of_ne _ _ (hne q hq)]

theorem freevm_acts (h : Exact L vm role) (hd : role d = .dir) (hst : Stacked vm d) :
    ∃ vm' role', vm.freevm L d = .ok vm' ∧ Frees L d vm vm' role role' := by
  obtain ⟨vm₁, role₁, hdealloc, hu⟩ := deallocuvm_acts h hd hst le_rfl
    (show 0 < kernbase by simp)
  have hd₁ := hu.acts.dir hd
  have hpages : pages kernbase = 2 ^ 19 := by simp [pages]
  have hnone : ∀ w < 2 ^ 19, vm₁.page d w = none := by
    intro w hw
    rw [hu.page w hw, hpages, if_pos ⟨by simp [pages], hw⟩]
  have hretired := hu.acts.exact.retire hd₁ hnone
  obtain ⟨vm₂, role₂, htables, hacts, hgone⟩ := freeTables_acts (d := d) (i := 0) 1024 hretired
    (by simp) rfl (.retired hu.acts.exact.ok.owned hd₁)
  have hdying : role₂ d = .dying := by
    refine (hacts.moves.keeps ?_).mpr (Function.update_self ..)
    simp [Belongs]
  obtain ⟨vm₃, hfree, hpushed⟩ := hacts.exact.ok.kfree (p := d) (by simp [hdying])
  obtain ⟨hexact, hdirs⟩ := hacts.exact.drop hdying hgone hpushed
  have hframe : ∀ p v, role₂ p ≠ .frame d v := by
    intro p v hp
    have := (hacts.exact.tight p d v hp).1
    simp [hdying] at this
  have hmoves : ∀ p, p ≠ d → role₂ p = role p ∨ Belongs d (role p) ∧ Belongs d (role₂ p) := by
    intro p hp
    rcases hacts.moves p with heq | ⟨hb, hb'⟩
    · rw [Function.update_of_ne hp] at heq
      rw [heq]
      exact hu.acts.moves p
    · rw [Function.update_of_ne hp] at hb
      rcases hu.acts.moves p with heq | ⟨hb₀, _⟩
      · rw [heq] at hb
        exact .inr ⟨hb, hb'⟩
      · exact .inr ⟨hb₀, hb'⟩
  refine ⟨vm₃, _, ?_, hexact, fun p hp => ?_, fun p hp hb => ?_, fun q hq hrole => ?_⟩
  · rw [freevm, if_neg (h.ok.ne_zero (by simp [hd]))]
    simp only [hdealloc]
    change (freeTables L d 1024 vm₁ 0 >>= fun vm => vm.kfree L d) = _
    rw [htables]
    exact hfree
  · by_cases hpd : p = d
    · rw [hpd, Function.update_self]
    · rw [Function.update_of_ne hpd]
      have hb : Belongs d (role₂ p) := by
        rcases hmoves p hpd with heq | hb
        · rw [heq]
          exact hp.resolve_left hpd
        · exact hb.2
      rcases hb with hb | ⟨i, hb⟩ | ⟨v, hb⟩
      · exact hb
      · exact absurd hb (hgone p i)
      · exact absurd hb (hframe p v)
  · rw [Function.update_of_ne hp]
    exact (hmoves p hp).resolve_right fun hc => hb hc.1
  · have hrole₁ := hu.acts.dir hrole
    have hrole₁' : Function.update role₁ d .dying q = .dir := by rwa [Function.update_of_ne hq]
    obtain ⟨hp₁, hg₁⟩ := hu.acts.dirs q hq hrole
    obtain ⟨hp₂, hg₂⟩ := hacts.dirs q hq hrole₁'
    obtain ⟨hp₃, hg₃⟩ := hdirs q (hacts.dir hrole₁')
    exact ⟨hp₃.trans (hp₂.trans hp₁), fun v => (hg₃ v).trans ((hg₂ v).trans (hg₁ v))⟩

theorem Exact.fresh (h : Exact L vm role) (hd : role d = .free) (hp : Belongs d (role p)) :
    role p = .free := by
  rcases hp with hp | ⟨i, hp⟩ | ⟨v, hp⟩
  · exact hp
  · rcases (h.ok.owned.linked p d i hp).1 with hdir | hdir <;> simp [hd] at hdir
  · have hdir := (h.tight p d v hp).1
    simp [hd] at hdir

theorem Frees.restores (h : Exact L vm role) (hd : role d = .free)
    (hm : Moves d (Function.update role d .dir) role') (hf : Frees L d vm' vm'' role' role'') :
    role'' = role := by
  funext p
  by_cases hpd : p = d
  · subst hpd
    rw [hf.gone p (.inl rfl), hd]
  · have hmp := hm p
    rw [Function.update_of_ne hpd] at hmp
    by_cases hb : Belongs d (role' p)
    · rw [hf.gone p (.inr hb)]
      refine (h.fresh hd ?_).symm
      rcases hmp with heq | hmp
      · rwa [heq] at hb
      · exact hmp.1
    · rw [hf.kept p hpd hb]
      exact hmp.resolve_right fun hc => hb hc.2

theorem FreeList.exact (h : vm.FreeList L) :
    Exact L vm (fun p => if p ∈ vm.freelist then .free else .reserved) := by
  refine ⟨h.ok, fun p d v hp => ?_⟩
  split at hp <;> cases hp

theorem inituvm_acts {code : List UInt8} (h : Exact L vm role) (hd : role d = .dir)
    (hs : Spans vm d 0) (hcode : code.length < pgsize) (hmem : 2 ≤ vm.freelist.length)
    (habs : vm.present d 0 = false) :
    ∃ vm' role', vm.inituvm d code = .ok vm' ∧ Acts L d vm vm' role role' ∧ Spans vm' d 4096 ∧
      vm.freelist.length = vm'.freelist.length + 2 := by
  unfold inituvm
  rw [if_neg (by omega)]
  cases hk : vm.kalloc with
  | mk vm₁ r =>
    cases r with
    | none =>
      rw [(kalloc_none hk).2] at hmem
      simp at hmem
    | some mem =>
      have htook := Took.zero h.ok (kalloc_some hk)
      have hlen := htook.length
      obtain ⟨vm₂, role₂, hmap, hm⟩ := htook.maps h ⟨true, true⟩ hd (show 0 < 2 ^ 19 by decide)
        (hs.above 0 (by decide) (by simp [pages])) (.inr fun hnil => by
          rw [hnil, List.length_nil] at hlen
          omega)
      rw [Nat.zero_mul] at hmap
      have hpages : pages 4096 = 0 + 1 := rfl
      obtain ⟨hst, hr⟩ := hs.stacked.extend (k := 1) (.inl rfl) fun i =>
        ((Fills.refl hm.acts.exact fun _ _ => 0).present i).trans (present_cons hm.present)
      refine ⟨{ vm₂ with data := Function.update vm₂.data mem fun k => code.getD k 0 }, role₂, ?_,
        ⟨⟨⟨hm.acts.exact.ok.owned, hm.acts.exact.ok.free, hm.acts.exact.ok.nodup⟩,
          hm.acts.exact.tight⟩, hm.acts.moves, hm.acts.dirs⟩,
        ⟨hst, hpages ▸ hr, fun w hw hle => ?_⟩, ?_⟩
      · simp only [hmap]
        rfl
      · change vm₂.page d w = none
        rw [hm.page, if_neg (by omega)]
        exact hs.above w hw (by simp [pages])
      · have hlen₂ := hm.length
        rw [tableCost, habs, if_neg Bool.false_ne_true] at hlen₂
        exact hlen₂

def SameDirs (vm vm' : Vm) (role : Nat → Role) : Prop :=
  ∀ q, role q = .dir → vm'.present q = vm.present q ∧ ∀ v, vm'.page q v = vm.page q v

theorem Exact.takeStack {q : Nat} (h : Exact L vm role) (hp : Popped vm vm' p) :
    Exact L vm' (Function.update role p (.stack q)) ∧ SameDirs vm vm' role := by
  have htook : Took L vm vm' role p := Took.copy h.ok hp vm'.data
  refine ⟨⟨h.ok.popped hp (by simp) rfl, fun r d v hr => ?_⟩,
    fun d hd => ⟨htook.present d hd, htook.page d hd⟩⟩
  have hrp : r ≠ p := by
    rintro rfl
    simp at hr
  rw [Function.update_of_ne hrp] at hr
  obtain ⟨hd, hv, perm, hpage⟩ := h.tight r d v hr
  have hdp : d ≠ p := by
    rintro rfl
    simp [htook.free] at hd
  exact ⟨(Function.update_of_ne hdp _ _).trans hd, hv, perm, (htook.page d hd v).trans hpage⟩

theorem Exact.giveStack {q : Nat} (h : Exact L vm role) (hp : role p = .stack q) :
    ∃ vm', vm.kfree L p = .ok vm' ∧ Exact L vm' (Function.update role p .free) ∧
      SameDirs vm vm' role := by
  obtain ⟨vm', hfree, hpush⟩ := h.ok.kfree (p := p) (by simp [hp])
  have howned := h.ok.owned.hand (p := p) (r := .free) (by simp [hp, Role.loose]) (Or.inl rfl)
  have hkeeps := hpush.keeps (D := {p}ᶜ) howned fun hmem => absurd rfl hmem
  have hne : ∀ d, role d = .dir → d ≠ p := by
    rintro d hd rfl
    simp [hp] at hd
  refine ⟨vm', hfree, ⟨h.ok.pushed hpush (by simp [hp]) howned, fun r d v hr => ?_⟩, fun d hd => ⟨?_, ?_⟩⟩
  · have hrp : r ≠ p := by
      rintro rfl
      simp at hr
    rw [Function.update_of_ne hrp] at hr
    obtain ⟨hd, hv, perm, hpage⟩ := h.tight r d v hr
    obtain ⟨hd', hpage'⟩ := hkeeps.dir d (hne d hd) hd
    exact ⟨hd', hv, perm, (hpage' v).trans hpage⟩
  · funext i
    rw [Vm.present, Vm.present, hpush.tables, TwoLevel.dir_fill_of_ne _ _ (hne d hd)]
  · exact (hkeeps.dir d (hne d hd) hd).2

theorem TablesFit.congr {f g : Nat → Bool} {k free : Nat} (hv : v + k ≤ 2 ^ 19)
    (hfg : ∀ i < 512, f i = g i) (h : TablesFit f v k free) : TablesFit g v k free := by
  induction k generalizing f g v free with
  | zero => trivial
  | succ k ih =>
    have hi : v / 1024 < 512 := by omega
    have habs : absent f (v / 1024) = absent g (v / 1024) := by rw [absent, absent, hfg _ hi]
    refine h.imp_right ?_
    rintro ⟨hroom, hrest⟩
    rw [habs] at hroom hrest
    refine ⟨hroom, ih (by omega) (fun i hi' => ?_) hrest⟩
    rw [Function.update_apply, Function.update_apply, hfg i hi']

end Vm
end Xv6
