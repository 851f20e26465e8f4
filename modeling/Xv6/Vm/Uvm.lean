import Xv6.Vm.Mapping

namespace Xv6

def pages (sz : Nat) : Nat := (sz + (pgsize - 1)) / pgsize

theorem next_table {v : Nat} (hv : v < 2 ^ 19) :
    uint (v * pgsize + (nptentries - 1) * pgsize + pgsize) = (v + 1024) * pgsize := by
  simp only [uint, pgsize, nptentries]
  omega

theorem pgroundup_eq {sz : Nat} (h : sz ≤ kernbase) : pgroundup sz = pages sz * pgsize := by
  simp only [pgroundup, pages, uint, pgsize, kernbase] at *
  omega

theorem lt_pages {v sz : Nat} : v * pgsize < sz ↔ v < pages sz := by
  simp only [pages, pgsize]
  omega

theorem pages_mono {a b : Nat} (h : a ≤ b) : pages a ≤ pages b := Nat.div_le_div_right (by omega)

theorem pages_le {sz : Nat} (h : sz ≤ kernbase) : pages sz ≤ 2 ^ 19 := by
  simp only [pages, pgsize, kernbase] at *
  omega

namespace Vm

variable {L : Layout} {vm vm' : Vm} {role role' : Nat → Role} {d v : Nat} {oldsz newsz : Nat}

def Mapped (vm : Vm) (d k : Nat) : Prop := ∀ v < 2 ^ 19, (vm.page d v).isSome ↔ v < k

def mapped (vm : Vm) (pgdir va : Nat) : Bool := (vm.tables.get pgdir (pdx va) (ptx va)).isSome

theorem Mapped.iff {sz va : Nat} (h : Mapped vm d (pages sz)) (hsz : sz < kernbase)
    (hva : va < kernbase) : vm.mapped d va = true ↔ va < pgroundup sz := by
  have hpdx : pdx va = va / pgsize / 1024 := by
    simp only [pdx, pgsize, kernbase] at *
    omega
  have hptx : ptx va = va / pgsize % 1024 := rfl
  have hv := h (va / pgsize) (by simp only [pgsize, kernbase] at *; omega)
  rw [mapped, hpdx, hptx, pgroundup_eq hsz.le]
  refine hv.trans ?_
  simp only [pgsize]
  omega

def demand : (Nat → Bool) → Nat → Nat → Nat
  | _, _, 0 => 0
  | f, v, k + 1 =>
    1 + (if f (v / 1024) then 0 else 1) + demand (Function.update f (v / 1024) true) (v + 1) k

theorem Mapped.none {k w : Nat} (h : Mapped vm d k) (hw : w < 2 ^ 19) (hk : k ≤ w) :
    vm.page d w = none := by
  have := h w hw
  rw [← Option.not_isSome_iff_eq_none, this]
  omega

theorem Ok.unmap {pt : Nat} {e : Pte} (h : Ok L vm role) (hd : role d = .dir) (hv : v < 2 ^ 19)
    (hlink : vm.tables.dir d (v / 1024) = some pt)
    (he : vm.tables.leaf pt (v % 1024) = some e) (hp : Pushed vm vm' e.page) :
    Works L d vm (vm'.setPte pt (v % 1024) none) role (Function.update role e.page .free) ∧
      ∀ w, (vm'.setPte pt (v % 1024) none).page d w = if w = v then none else vm.page d w := by
  have hi : v / 1024 < 512 := by omega
  have hpt := h.owned.dir d _ pt hd hlink
  have hframe := (h.owned.frame pt d _ _ e hpt hi he).1
  have howned := h.owned.unmap hpt hi he
  have hne : pt ≠ e.page := by
    rintro rfl
    simp [hframe] at hpt
  have hdir : ∀ q, role q = .dir → Function.update role e.page .free q = .dir := by
    intro q hq
    rw [Function.update_of_ne, hq]
    rintro rfl
    simp [hframe] at hq
  have htables : (vm'.setPte pt (v % 1024) none).tables =
      (vm.tables.put pt (v % 1024) none).fill e.page (some 0x1010)
        (some ⟨0x1010, false, false⟩) := by
    rw [Vm.setPte, hp.tables]
    exact TwoLevel.put_fill hne _ _ _ _
  have hget : ∀ q, role q = .dir → ∀ i j, (vm'.setPte pt (v % 1024) none).tables.get q i j =
      (vm.tables.put pt (v % 1024) none).get q i j := by
    intro q hq i j
    rw [htables]
    exact howned.get_fill (hdir q hq) (by simp [Role.plain]) _ _ _ _
  refine ⟨⟨⟨?_, ?_, ?_⟩, hdir d hd, ?_⟩, ?_⟩
  · rw [htables]
    exact howned.fill (by simp [Role.plain]) _ _
  · intro q
    rw [freelist_setPte, hp.freelist]
    by_cases hq : q = e.page
    · subst hq
      simp
    · simp [hq, h.free]
  · rw [freelist_setPte, hp.freelist, List.nodup_cons, h.free]
    exact ⟨by simp [hframe], h.nodup⟩
  · refine .update (fun _ => by simp [hframe]) fun q hq hrole w => ?_
    rw [page, hget q hrole]
    exact h.page_setPte hpt hrole (fun hqd => absurd hqd hq) _
  · intro w
    rw [page, hget d hd]
    split
    · rename_i hw
      subst hw
      exact page_setPte_self hlink _
    · rename_i hw
      exact h.page_setPte hpt hd (fun _ => hw) _

theorem page_walk (vm : Vm) (d : Nat) (hv : v < 2 ^ 19) :
    vm.walkpgdir d (v * pgsize) false = (vm, none) ∧ vm.page d v = none ∨
      ∃ pt, vm.walkpgdir d (v * pgsize) false = (vm, some (pt, v % 1024)) ∧
        vm.tables.dir d (v / 1024) = some pt ∧
        vm.page d v = vm.tables.leaf pt (v % 1024) := by
  unfold walkpgdir
  rw [pdx_page (by omega), ptx_page, page, TwoLevel.get]
  cases hdir : vm.tables.dir d (v / 1024) with
  | none => exact Or.inl ⟨rfl, rfl⟩
  | some pt => exact Or.inr ⟨pt, rfl, rfl, rfl⟩

theorem deallocLoop_spec {k : Nat} (hold : oldsz ≤ kernbase) (hk : k ≤ pages oldsz)
    (fuel : Nat) : ∀ {vm : Vm} {role : Nat → Role} {v : Nat}, Ok L vm role → role d = .dir →
    pages oldsz ≤ v + fuel → (∀ w < 2 ^ 19, v ≤ w → ((vm.page d w).isSome ↔ w < k)) →
    ∃ vm' role', deallocLoop L d oldsz fuel vm (v * pgsize) = .ok vm' ∧
      Works L d vm vm' role role' ∧
      ∀ w < 2 ^ 19, vm'.page d w = if v ≤ w then none else vm.page d w := by
  have hdone : ∀ {vm : Vm} {v : Nat}, k ≤ v →
      (∀ w < 2 ^ 19, v ≤ w → ((vm.page d w).isSome ↔ w < k)) →
      ∀ w < 2 ^ 19, vm.page d w = if v ≤ w then none else vm.page d w := by
    intro vm v hkv hmap w hw
    split
    · rename_i hvw
      rw [← Option.not_isSome_iff_eq_none, hmap w hw hvw]
      omega
    · rfl
  induction fuel with
  | zero =>
    intro vm role v h hd hfuel hmap
    exact ⟨vm, role, rfl, .refl h hd, hdone (by omega) hmap⟩
  | succ fuel ih =>
    intro vm role v h hd hfuel hmap
    by_cases hlt : v * pgsize < oldsz
    · have hv : v < 2 ^ 19 := (lt_pages.mp hlt).trans_le (pages_le hold)
      have hskip : ∀ m, 0 < m → m ≤ 1024 → vm.page d v = none →
          ∃ vm' role', deallocLoop L d oldsz fuel vm ((v + m) * pgsize) = .ok vm' ∧
            Works L d vm vm' role role' ∧
            ∀ w < 2 ^ 19, vm'.page d w = if v ≤ w then none else vm.page d w := by
        intro m hm _ hnone
        have hkv : k ≤ v := by
          have := hmap v hv le_rfl
          simp only [hnone, Option.isSome_none, Bool.false_eq_true, false_iff] at this
          omega
        obtain ⟨vm', role', hloop, hworks, hpage⟩ := ih (v := v + m) h hd
          (by omega) fun w hw hvw => hmap w hw (by omega)
        refine ⟨vm', role', hloop, hworks, fun w hw => ?_⟩
        rw [hpage w hw, hdone hkv hmap w hw]
        split_ifs <;> first | rfl | omega
      have hnext := next_page (v := v) (by omega)
      have hjump := next_table hv
      rw [deallocLoop, if_pos hlt]
      rcases page_walk vm d hv with ⟨hwalk, hnone⟩ | ⟨pt, hwalk, hlink, hpage⟩
      · simp only [hwalk, hjump]
        exact hskip 1024 (by omega) le_rfl hnone
      · rw [hwalk]
        cases he : vm.tables.leaf pt (v % 1024) with
        | none =>
          simp only [he, hnext]
          exact hskip 1 (by omega) (by omega) (hpage.trans he)
        | some e =>
          have hpt := h.owned.dir d _ pt hd hlink
          have hframe := (h.owned.frame pt d _ _ e hpt (by omega) he).1
          have hne := h.ne_zero (p := e.page) (by simp [hframe])
          obtain ⟨vm₁, hfree, hpushed⟩ := h.kfree (p := e.page) (by simp [hframe])
          obtain ⟨hworks, hpage₁⟩ := h.unmap hd hv hlink he hpushed
          obtain ⟨vm', role', hloop, hworks', hpage'⟩ := ih (v := v + 1) hworks.ok hworks.dir
            (by omega) fun w hw hvw => by
              rw [hpage₁, if_neg (by omega)]
              exact hmap w hw (by omega)
          refine ⟨vm', role', ?_, hworks.trans hworks', fun w hw => ?_⟩
          · simp only [he, hne, if_false, hfree, hnext]
            exact hloop
          · rw [hpage' w hw, hpage₁]
            split_ifs <;> first | rfl | omega
    · refine ⟨vm, role, ?_, .refl h hd, hdone ?_ hmap⟩
      · rw [deallocLoop, if_neg hlt]
        rfl
      · rw [lt_pages] at hlt
        omega

theorem deallocuvm_spec {k : Nat} (oldsz newsz : Nat) (h : Ok L vm role) (hd : role d = .dir)
    (hold : oldsz ≤ kernbase) (hk : k ≤ pages oldsz) (hm : Mapped vm d k) (hlt : newsz < oldsz) :
    ∃ vm' role', vm.deallocuvm L d oldsz newsz = .ok (vm', newsz) ∧ Works L d vm vm' role role' ∧
      (∀ w < pages newsz, vm'.page d w = vm.page d w) ∧ Mapped vm' d (min k (pages newsz)) := by
  have hfuel : pages oldsz ≤ pages newsz + (oldsz / pgsize + 1) := by
    simp only [pages, pgsize]
    omega
  have hpages := pages_le hold
  have hle := pages_mono hlt.le
  obtain ⟨vm', role', hloop, hworks, hpage⟩ := deallocLoop_spec hold hk _ h hd hfuel
    fun w hw _ => hm w hw
  refine ⟨vm', role', ?_, hworks, ?_, ?_⟩
  · rw [deallocuvm, if_neg (by omega), pgroundup_eq (by omega), hloop]
    rfl
  · intro w hw
    rw [hpage w (by omega), if_neg (by omega)]
  · intro w hw
    rw [hpage w hw]
    have := hm w hw
    split_ifs with hvw
    · simp only [Option.isSome_none, Bool.false_eq_true, false_iff]
      omega
    · rw [this]
      omega

structure Took (L : Layout) (vm vm' : Vm) (role : Nat → Role) (mem : Nat) : Prop where
  ok : Ok L vm' (Function.update role mem .held)
  free : role mem = .free
  page : ∀ q, role q = .dir → ∀ w, vm'.page q w = vm.page q w
  present : ∀ q, role q = .dir → vm'.present q = vm.present q
  length : vm.freelist.length = vm'.freelist.length + 1

theorem Took.zero {mem : Nat} (h : Ok L vm role) (hp : Popped vm vm' mem) :
    Took L vm (vm'.zero mem) role mem := by
  have hfree := h.free_of_popped hp
  have hheld := h.popped hp (r := .held) (by simp) rfl
  have hne : ∀ q, role q = .dir → q ≠ mem := by
    rintro q hq rfl
    simp [hfree] at hq
  refine ⟨hheld.zero (by simp [Role.plain]), hfree, ?_, ?_, hp.length⟩
  · intro q hq w
    rw [hheld.page_zero (by simp [Role.plain]) (by rwa [Function.update_of_ne (hne q hq)]), hp.page]
  · intro q hq
    funext i
    rw [Vm.present, Vm.present, ← hp.tables]
    exact congrArg Option.isSome (congrFun (TwoLevel.dir_fill_of_ne none none (hne q hq)) i)

theorem Took.copy {mem : Nat} (h : Ok L vm role) (hp : Popped vm vm' mem)
    (data : Nat → Nat → UInt8) : Took L vm { vm' with data := data } role mem := by
  have hheld := h.popped hp (r := .held) (by simp) rfl
  refine ⟨⟨hheld.owned, hheld.free, hheld.nodup⟩, h.free_of_popped hp, fun q _ w => hp.page q w,
    ?_, hp.length⟩
  intro q _
  funext i
  rw [Vm.present, Vm.present, ← hp.tables]

theorem Took.works {mem : Nat} (h : Took L vm vm' role mem) (hd : role d = .dir) :
    Works L d vm vm' role (Function.update role mem .held) := by
  refine ⟨h.ok, ?_, .update (fun _ => by simp [h.free]) fun q _ hq w => h.page q hq w⟩
  rw [Function.update_of_ne, hd]
  rintro rfl
  simp [h.free] at hd

theorem Took.map {mem : Nat} (h : Took L vm vm' role mem) (perm : Perm) (hd : role d = .dir)
    (hv : v < 2 ^ 19) (hnone : vm.page d v = none) :
    vm'.mappages d (v * pgsize) pgsize (mem * pgsize) perm = .ok (vm', -1) ∧
        vm'.freelist = [] ∧ vm.tableCost d (v / 1024) = 1 ∨
      ∃ vm'' role'', vm'.mappages d (v * pgsize) pgsize (mem * pgsize) perm = .ok (vm'', 0) ∧
        Works L d vm vm'' role role'' ∧
        (∀ w, vm''.page d w = if w = v then some ⟨mem, perm⟩ else vm.page d w) ∧
        vm''.present d = Function.update (vm.present d) (v / 1024) true ∧
        vm.freelist.length = vm''.freelist.length + 1 + vm.tableCost d (v / 1024) := by
  have hworks := h.works hd
  have hmem : mem * pgsize / pgsize = mem := by simp
  have hmap := mappages_range (v := v) vm' d 0 (mem * pgsize) perm (by omega)
  rw [Nat.zero_add, Nat.one_mul, mapLoop] at hmap
  have hcost : vm'.tableCost d (v / 1024) = vm.tableCost d (v / 1024) := by
    rw [tableCost, tableCost, h.present d hd]
  rcases mapPage_spec (mem * pgsize) perm h.ok hworks.dir (by omega)
    (fun _ => by rw [hmem, Function.update_self]) ((h.page d hd v).trans hnone) with
    ⟨hpage, hnil, habs⟩ | ⟨vm'', role'', hpage, hm⟩
  · refine Or.inl ⟨?_, hnil, ?_⟩
    · rw [hmap, hpage]
      rfl
    · rw [← hcost, tableCost, habs]
      rfl
  · rw [hmem] at hm
    refine Or.inr ⟨vm'', role'', ?_, hworks.trans hm.works, ?_, ?_, ?_⟩
    · rw [hmap, hpage]
      rfl
    · intro w
      rw [hm.page, h.page d hd]
    · rw [hm.present, h.present d hd]
    · rw [h.length, hm.length, hcost]
      omega

theorem Mapped.extend {e : Pte} (h : Mapped vm d v)
    (hpage : ∀ w, vm'.page d w = if w = v then some e else vm.page d w) :
    Mapped vm' d (v + 1) := by
  intro w hw
  rw [hpage]
  have := h w hw
  split_ifs with hwv
  · simp only [Option.isSome_some, true_iff]
    omega
  · rw [this]
    omega

structure Allocs (L : Layout) (d oldsz newsz v k : Nat) (vm vm' : Vm) (role role' : Nat → Role)
    (r : Nat) : Prop where
  works : Works L d vm vm' role role'
  page : ∀ w < pages oldsz, vm'.page d w = vm.page d w
  result : r = newsz ∧ Mapped vm' d (pages newsz) ∧ demand (vm.present d) v k ≤ vm.freelist.length ∨
    r = 0 ∧ Mapped vm' d (pages oldsz) ∧ vm.freelist.length < demand (vm.present d) v k ∨
    r = newsz ∧ vm.freelist.length + 1 = demand (vm.present d) v k
  length : vm.freelist.length ≤ vm'.freelist.length + demand (vm.present d) v k

theorem demand_succ (vm : Vm) (d v k : Nat) : demand (vm.present d) v (k + 1) =
    1 + vm.tableCost d (v / 1024) +
      demand (Function.update (vm.present d) (v / 1024) true) (v + 1) k := rfl

theorem allocLoop_starved {k : Nat} (h : Ok L vm role) (hd : role d = .dir)
    (hnew : newsz < kernbase) (hv : pages oldsz ≤ v) (hvn : v < pages newsz) (hm : Mapped vm d v)
    (hnil : vm.freelist = []) (a : Nat) :
    ∃ vm' role', allocLoop L d oldsz newsz (k + 1) vm a = .ok (vm', 0) ∧
      Works L d vm vm' role role' ∧ (∀ w < pages oldsz, vm'.page d w = vm.page d w) ∧
      Mapped vm' d (pages oldsz) := by
  have hlt : oldsz < newsz := by
    simp only [pages, pgsize] at *
    omega
  obtain ⟨vm', role', hdealloc, hworks, hpage, hm'⟩ := deallocuvm_spec newsz oldsz h hd hnew.le hvn.le hm hlt
  rw [Nat.min_eq_right hv] at hm'
  refine ⟨vm', role', ?_, hworks, hpage, hm'⟩
  rw [allocLoop, kalloc, hnil]
  simp only [hdealloc]
  rfl

theorem allocLoop_spec (hnew : newsz < kernbase) (k : Nat) : ∀ {vm : Vm} {role : Nat → Role}
    {v : Nat}, Ok L vm role → role d = .dir → pages oldsz ≤ v → v + k = pages newsz →
    Mapped vm d v →
    ∃ vm' role' r, allocLoop L d oldsz newsz k vm (v * pgsize) = .ok (vm', r) ∧
      Allocs L d oldsz newsz v k vm vm' role role' r := by
  induction k with
  | zero =>
    intro vm role v h hd hold hk hm
    rw [Nat.add_zero] at hk
    exact ⟨vm, role, newsz, rfl, .refl h hd, fun _ _ => rfl, Or.inl ⟨rfl, hk ▸ hm, Nat.zero_le _⟩,
      Nat.le_refl _⟩
  | succ k ih =>
    intro vm role v h hd hold hk hm
    have hv : v < 2 ^ 19 := by
      have := pages_le hnew.le
      omega
    cases hkalloc : vm.kalloc with
    | mk vm₁ r =>
      cases r with
      | none =>
        obtain ⟨rfl, hnil⟩ := kalloc_none hkalloc
        obtain ⟨vm', role', hloop, hworks, hpage, hm'⟩ := allocLoop_starved (k := k) h hd hnew hold
          (by omega) hm hnil (v * pgsize)
        refine ⟨vm', role', 0, hloop, hworks, hpage, Or.inr (Or.inl ⟨rfl, hm', ?_⟩), ?_⟩
        · rw [hnil, demand_succ, List.length_nil]
          omega
        · rw [hnil, List.length_nil]
          omega
      | some mem =>
        have htook := Took.zero h (kalloc_some hkalloc)
        have hnext := next_page (v := v) (by omega)
        rcases htook.map ⟨true, true⟩ hd hv (hm.none hv le_rfl) with
          ⟨hmap, hnil, hcost⟩ | ⟨vm₂, role₂, hmap, hworks, hpage, hpresent, hlen⟩
        · have hworks := htook.works hd
          have hm₁ : Mapped (vm₁.zero mem) d v := fun w hw => by rw [htook.page d hd, hm w hw]
          have hlen := htook.length
          rw [hnil, List.length_nil] at hlen
          have hloop : allocLoop L d oldsz newsz (k + 1) vm (v * pgsize) =
              allocLoop L d oldsz newsz k (vm₁.zero mem) ((v + 1) * pgsize) := by
            rw [allocLoop, hkalloc]
            simp only [hmap, hnext]
            rfl
          rw [hloop]
          cases k with
          | zero =>
            have hdemand : demand (vm.present d) v (0 + 1) = 2 := by rw [demand_succ, hcost]; rfl
            exact ⟨_, _, newsz, rfl, hworks, fun w hw => htook.page d hd w,
              Or.inr (Or.inr ⟨rfl, by omega⟩), by omega⟩
          | succ k =>
            obtain ⟨vm', role', hloop', hworks', hpage', hm'⟩ := allocLoop_starved (k := k)
              hworks.ok hworks.dir hnew hold (by omega) hm₁ hnil ((v + 1) * pgsize)
            have hdemand : 2 ≤ demand (vm.present d) v (k + 1 + 1) := by
              rw [demand_succ, hcost]
              omega
            refine ⟨vm', role', 0, hloop', hworks.trans hworks', fun w hw => ?_,
              Or.inr (Or.inl ⟨rfl, hm', by omega⟩), by omega⟩
            rw [hpage' w hw, htook.page d hd]
        · obtain ⟨vm', role', r, hloop, ha⟩ := ih hworks.ok hworks.dir (by omega) (by omega)
            (hm.extend hpage)
          refine ⟨vm', role', r, ?_, hworks.trans ha.works, fun w hw => ?_, ?_, ?_⟩
          · rw [allocLoop, hkalloc]
            simp only [hmap, hnext]
            exact hloop
          · rw [ha.page w hw, hpage, if_neg (by omega)]
          · have hresult := ha.result
            rw [hpresent] at hresult
            rw [demand_succ]
            rcases hresult with ⟨hr, hm', hle⟩ | ⟨hr, hm', hlt⟩ | ⟨hr, hshort⟩
            · exact Or.inl ⟨hr, hm', by omega⟩
            · exact Or.inr (Or.inl ⟨hr, hm', by omega⟩)
            · exact Or.inr (Or.inr ⟨hr, by omega⟩)
          · have hlen' := ha.length
            rw [hpresent] at hlen'
            rw [demand_succ]
            omega

theorem allocuvm_loop {oldsz newsz : Nat} (hnew : newsz < kernbase) (hle : oldsz ≤ newsz) :
    vm.allocuvm L d oldsz newsz =
      allocLoop L d oldsz newsz (pages newsz - pages oldsz) vm (pages oldsz * pgsize) := by
  have hcount : (newsz - pages oldsz * pgsize + (pgsize - 1)) / pgsize =
      pages newsz - pages oldsz := by
    simp only [pages, pgsize]
    omega
  rw [allocuvm, if_neg (by omega), if_neg (by omega), pgroundup_eq (by omega)]
  simp only [hcount]

theorem allocuvm_spec (h : Ok L vm role) (hd : role d = .dir) (hm : Mapped vm d (pages oldsz))
    (hnew : newsz < kernbase) (hle : oldsz ≤ newsz) :
    ∃ vm' role' r, vm.allocuvm L d oldsz newsz = .ok (vm', r) ∧
      Allocs L d oldsz newsz (pages oldsz) (pages newsz - pages oldsz) vm vm' role role' r := by
  have hpages := pages_mono hle
  obtain ⟨vm', role', r, hloop, ha⟩ := allocLoop_spec hnew (pages newsz - pages oldsz) h hd le_rfl
    (by omega) hm
  exact ⟨vm', role', r, (allocuvm_loop hnew hle).trans hloop, ha⟩

structure GrowthExact (vm : Vm) (d sz : Nat) (n : Int) : Prop where
  grow : 0 < n → vm.freelist.length + 1 ≠
    demand (vm.present d) (pages sz) (pages (addInt sz n) - pages sz)
  shrink : n < 0 → addInt sz n ≠ 0

theorem report_eq (vm' : Vm) (sz : Nat) :
    ((Except.ok (vm', sz) : Except Panic (Vm × Nat)) >>= fun x =>
      if x.2 = 0 then pure (x.1, none) else pure (x.1, some x.2)) =
      .ok (vm', if sz = 0 then none else some sz) := by
  change (if sz = 0 then _ else _) = _
  split_ifs <;> rfl

theorem growproc_spec {sz : Nat} (h : Ok L vm role) (hd : role d = .dir)
    (hm : Mapped vm d (pages sz)) (hsz : sz < kernbase) (n : Int) :
    ∃ vm' role' r, vm.growproc L d sz n = .ok (vm', r) ∧ Works L d vm vm' role role' ∧
      (GrowthExact vm d sz n → Mapped vm' d (pages (r.getD sz)) ∧ r.getD sz < kernbase) := by
  unfold growproc
  by_cases hpos : 0 < n
  · rw [if_pos hpos]
    by_cases hbig : kernbase ≤ addInt sz n
    · refine ⟨vm, role, none, ?_, .refl h hd, fun _ => ⟨hm, hsz⟩⟩
      rw [allocuvm, if_pos hbig]
      rfl
    · by_cases hle : sz ≤ addInt sz n
      · obtain ⟨vm', role', r, halloc, ha⟩ := allocuvm_spec h hd hm (by omega) hle
        refine ⟨vm', role', if r = 0 then none else some r, ?_, ha.works, fun hexact => ?_⟩
        · rw [halloc]
          exact report_eq vm' r
        · rcases ha.result with ⟨rfl, hm', _⟩ | ⟨rfl, hm', _⟩ | ⟨_, hshort⟩
          · split_ifs with hzero
            · have hsame : addInt sz n = sz := by omega
              rw [hsame] at hm'
              exact ⟨hm', hsz⟩
            · exact ⟨hm', by simpa using hbig⟩
          · exact ⟨hm', hsz⟩
          · exact absurd hshort (hexact.grow hpos)
      · refine ⟨vm, role, some sz, ?_, .refl h hd, fun _ => ⟨hm, hsz⟩⟩
        rw [allocuvm, if_neg hbig, if_pos (by omega)]
        exact (report_eq vm sz).trans (by rw [if_neg (by omega)])
  · rw [if_neg hpos]
    by_cases hneg : n < 0
    · rw [if_pos hneg]
      by_cases hle : sz ≤ addInt sz n
      · refine ⟨vm, role, if sz = 0 then none else some sz, ?_, .refl h hd, fun _ => ?_⟩
        · rw [deallocuvm, if_pos hle]
          exact report_eq vm sz
        · split_ifs <;> exact ⟨hm, hsz⟩
      · obtain ⟨vm', role', hdealloc, hworks, _, hm'⟩ := deallocuvm_spec sz (addInt sz n) h hd hsz.le le_rfl hm
          (Nat.lt_of_not_le hle)
        rw [Nat.min_eq_right (pages_mono (by omega))] at hm'
        refine ⟨vm', role', if addInt sz n = 0 then none else some (addInt sz n), ?_, hworks,
          fun hexact => ?_⟩
        · rw [hdealloc]
          exact report_eq vm' _
        · rw [if_neg (hexact.shrink hneg)]
          exact ⟨hm', by simp only [Option.getD_some]; omega⟩
    · rw [if_neg hneg]
      exact ⟨vm, role, some sz, rfl, .refl h hd, fun _ => ⟨hm, hsz⟩⟩

theorem addInt_ofNat (sz k : Nat) (h : sz + k < kernbase) : addInt sz k = sz + k := by
  simp only [addInt, kernbase] at *
  omega

theorem growproc_grows (sz k : Nat) (h : Ok L vm role) (hd : role d = .dir)
    (hm : Mapped vm d (pages sz)) (hk : 0 < k) (hsz : sz + k < kernbase)
    (hmem : demand (vm.present d) (pages sz) (pages (sz + k) - pages sz) ≤ vm.freelist.length) :
    ∃ vm' role', vm.growproc L d sz k = .ok (vm', some (sz + k)) ∧ Works L d vm vm' role role' ∧
      Mapped vm' d (pages (sz + k)) ∧ vm.freelist.length ≤ vm'.freelist.length +
        demand (vm.present d) (pages sz) (pages (sz + k) - pages sz) := by
  obtain ⟨vm', role', r, halloc, ha⟩ := allocuvm_spec h hd hm hsz (Nat.le_add_right sz k)
  rcases ha.result with ⟨rfl, hm', _⟩ | ⟨_, _, hlt⟩ | ⟨_, hshort⟩
  · refine ⟨vm', role', ?_, ha.works, hm', ha.length⟩
    rw [growproc, if_pos (by omega), addInt_ofNat sz k hsz, halloc]
    exact (report_eq vm' _).trans (by rw [if_neg (by omega)])
  · omega
  · omega

theorem growproc_remap (sz k : Nat) (h : Ok L vm role) (hd : role d = .dir)
    (hpage : (vm.page d (pages sz)).isSome) (hlt : pages sz < pages (sz + k))
    (hsz : sz + k < kernbase) (hmem : vm.freelist ≠ []) :
    vm.growproc L d sz k = .error .remap := by
  have hk : 0 < k := by
    rcases Nat.eq_zero_or_pos k with rfl | hk
    · exact absurd hlt (lt_irrefl _)
    · exact hk
  have hpages := pages_le hsz.le
  have hcount : (sz + k - pages sz * pgsize + (pgsize - 1)) / pgsize =
      pages (sz + k) - pages sz - 1 + 1 := by
    simp only [pages, pgsize] at *
    omega
  rw [growproc, if_pos (by omega), addInt_ofNat sz k hsz, allocuvm, if_neg (by omega), if_neg (by omega),
    pgroundup_eq (by omega)]
  simp only [hcount, allocLoop]
  cases hkalloc : vm.kalloc with
  | mk vm₁ r =>
    cases r with
    | none => exact absurd (kalloc_none hkalloc).2 hmem
    | some mem =>
      have htook := Took.zero h (kalloc_some hkalloc)
      have hmap := mappages_range (v := pages sz) (vm₁.zero mem) d 0 (mem * pgsize)
        ⟨true, true⟩ (by omega)
      rw [Nat.zero_add, Nat.one_mul, mapLoop, mapPage_remap (by omega)
        (by rw [htook.page d hd]; exact hpage)] at hmap
      simp only [hmap]
      rfl

end Vm
end Xv6
