import Xv6.Vm.Contents
import Xv6.Vm.Copy

namespace Xv6
namespace Vm

variable {L : Layout} {vm vm' vm'' : Vm} {role role' role'' : Nat → Role} {d v p : Nat}

theorem Ok.role_page {w : Nat} {e : Pte} (h : Ok L vm role) (hd : role d = .dir) (hw : w < 2 ^ 19)
    (hpage : vm.page d w = some e) : role e.page = .frame d w := by
  rw [page, TwoLevel.get] at hpage
  cases hdir : vm.tables.dir d (w / 1024) with
  | none =>
    rw [hdir] at hpage
    cases hpage
  | some pt =>
    rw [hdir] at hpage
    have hpt := h.owned.dir d (w / 1024) pt hd hdir
    rw [(h.owned.frame pt d (w / 1024) (w % 1024) e hpt (by omega) hpage).1, Nat.div_add_mod']

theorem Ok.page_inj {d' w w' : Nat} {e e' : Pte} (h : Ok L vm role) (hd : role d = .dir)
    (hd' : role d' = .dir) (hw : w < 2 ^ 19) (hw' : w' < 2 ^ 19) (hpage : vm.page d w = some e)
    (hpage' : vm.page d' w' = some e') (heq : e.page = e'.page) : d = d' ∧ w = w' := by
  have hrole := h.role_page hd hw hpage
  rw [heq, h.role_page hd' hw' hpage'] at hrole
  cases hrole
  exact ⟨rfl, rfl⟩

theorem Ok.page_not_free {w : Nat} {e : Pte} (h : Ok L vm role) (hd : role d = .dir)
    (hw : w < 2 ^ 19) (hpage : vm.page d w = some e) : e.page ∉ vm.freelist := by
  rw [h.free, h.role_page hd hw hpage]
  simp

def Belongs (d : Nat) (r : Role) : Prop := r = .free ∨ (∃ i, r = .table d i) ∨ ∃ v, r = .frame d v

def Moves (d : Nat) (role role' : Nat → Role) : Prop :=
  ∀ p, role' p = role p ∨ Belongs d (role p) ∧ Belongs d (role' p)

def Tight (vm : Vm) (role : Nat → Role) : Prop :=
  ∀ p d v, role p = .frame d v →
    role d = .dir ∧ v < 2 ^ 19 ∧ ∃ perm, vm.page d v = some ⟨p, perm⟩

structure Exact (L : Layout) (vm : Vm) (role : Nat → Role) : Prop where
  ok : Ok L vm role
  tight : Tight vm role

structure Acts (L : Layout) (d : Nat) (vm vm' : Vm) (role role' : Nat → Role) : Prop where
  exact : Exact L vm' role'
  moves : Moves d role role'
  dirs : ∀ q, q ≠ d → role q = .dir →
    vm'.present q = vm.present q ∧ ∀ v, vm'.page q v = vm.page q v

theorem Moves.keeps {r : Role} (h : Moves d role role') (hr : ¬ Belongs d r) :
    role' p = r ↔ role p = r := by
  rcases h p with hp | ⟨hp, hp'⟩
  · rw [hp]
  · constructor
    · rintro rfl
      exact absurd hp' hr
    · rintro rfl
      exact absurd hp hr

theorem not_belongs_dir : ¬ Belongs d .dir := by simp [Belongs]

theorem not_belongs_stack (q : Nat) : ¬ Belongs d (.stack q) := by simp [Belongs]

theorem not_belongs_reserved : ¬ Belongs d .reserved := by simp [Belongs]

theorem not_belongs_held : ¬ Belongs d .held := by simp [Belongs]

theorem belongs_free : Belongs d .free := .inl rfl

theorem belongs_table (i : Nat) : Belongs d (.table d i) := .inr (.inl ⟨i, rfl⟩)

theorem belongs_frame (v : Nat) : Belongs d (.frame d v) := .inr (.inr ⟨v, rfl⟩)

theorem Moves.refl (d : Nat) (role : Nat → Role) : Moves d role role := fun _ => .inl rfl

theorem Moves.trans (h : Moves d role role') (h' : Moves d role' role'') : Moves d role role'' := by
  intro p
  rcases h p with hp | ⟨hp, hp₁⟩
  · rw [← hp]
    exact h' p
  · rcases h' p with hp' | ⟨_, hp₂⟩
    · rw [hp']
      exact .inr ⟨hp, hp₁⟩
    · exact .inr ⟨hp, hp₂⟩

theorem Moves.update {r : Role} (hp : Belongs d (role p)) (hr : Belongs d r) :
    Moves d role (Function.update role p r) := by
  intro q
  by_cases hq : q = p
  · subst hq
    rw [Function.update_self]
    exact .inr ⟨hp, hr⟩
  · exact .inl (Function.update_of_ne hq _ _)

theorem Acts.refl (h : Exact L vm role) : Acts L d vm vm role role :=
  ⟨h, .refl d role, fun _ _ _ => ⟨rfl, fun _ => rfl⟩⟩

theorem Acts.dir (h : Acts L d vm vm' role role') {q : Nat} (hq : role q = .dir) :
    role' q = .dir := (h.moves.keeps not_belongs_dir).mpr hq

theorem Acts.trans (h : Acts L d vm vm' role role') (h' : Acts L d vm' vm'' role' role'') :
    Acts L d vm vm'' role role'' := by
  refine ⟨h'.exact, h.moves.trans h'.moves, fun q hq hdir => ?_⟩
  obtain ⟨hpres, hpage⟩ := h.dirs q hq hdir
  obtain ⟨hpres', hpage'⟩ := h'.dirs q hq (h.dir hdir)
  exact ⟨hpres'.trans hpres, fun v => (hpage' v).trans (hpage v)⟩

theorem Exact.link {pt i : Nat} (h : Exact L vm role) (hd : role d = .dir) (hi : i < 1024)
    (hnone : vm.tables.dir d i = none) (hp : Popped vm vm' pt) :
    Acts L d vm { vm'.zero pt with tables := (vm'.zero pt).tables.link d i pt } role
      (Function.update role pt (.table d i)) := by
  have hr := h.ok.link hd hi hnone hp
  have hfree := h.ok.free_of_popped hp
  refine ⟨⟨hr.ok, ?_⟩, .update (hfree ▸ belongs_free) (belongs_table i), ?_⟩
  · intro q d' v hq
    have hqpt : q ≠ pt := by
      rintro rfl
      simp at hq
    rw [Function.update_of_ne hqpt] at hq
    obtain ⟨hd', hv, perm, hpage⟩ := h.tight q d' v hq
    exact ⟨(hr.roles d' (by simp [hd'])).trans hd', hv, perm, (hr.pages d' hd' v).trans hpage⟩
  · intro q hq hdir
    refine ⟨?_, hr.pages q hdir⟩
    have hqpt : q ≠ pt := by
      rintro rfl
      simp [hfree] at hdir
    funext i'
    rw [Vm.present, Vm.present, TwoLevel.dir_link, if_neg fun hc => hq hc.1, ← hp.tables]
    exact congrArg Option.isSome (congrFun (TwoLevel.dir_fill_of_ne none none hqpt) i')

theorem walkpgdir_acts (va : Nat) (h : Exact L vm role) (hd : role d = .dir) :
    vm.freelist = [] ∧ vm.present d (pdx va) = false ∧ vm.walkpgdir d va true = (vm, none) ∨
      ∃ vm' pt role', vm.walkpgdir d va true = (vm', some (pt, ptx va)) ∧
        Reached L d (pdx va) pt vm vm' role role' ∧ Acts L d vm vm' role role' := by
  have hi : pdx va < 1024 := Nat.mod_lt _ (by norm_num)
  unfold walkpgdir
  cases hdir : vm.tables.dir d (pdx va) with
  | some pt =>
    have hpresent : vm.present d (pdx va) = true := by simp [Vm.present, hdir]
    refine Or.inr ⟨vm, pt, role, rfl, ?_, .refl h⟩
    refine ⟨h.ok, fun _ _ => rfl, fun _ _ _ => rfl, hdir, ?_, ?_⟩
    · rw [← hpresent, Function.update_eq_self]
    · simp [tableCost, hpresent]
  | none =>
    cases hk : vm.kalloc with
    | mk vm₁ r =>
      cases r with
      | none =>
        obtain ⟨rfl, hnil⟩ := kalloc_none hk
        exact Or.inl ⟨hnil, by simp [Vm.present, hdir], rfl⟩
      | some pt =>
        have hp := kalloc_some hk
        exact Or.inr ⟨_, pt, _, rfl, h.ok.link hd hi hdir hp, h.link hd hi hdir hp⟩

theorem Took.exact {mem : Nat} (h : Took L vm vm' role mem) (he : Exact L vm role) :
    Exact L vm' (Function.update role mem .held) := by
  refine ⟨h.ok, fun q d' v hq => ?_⟩
  have hqm : q ≠ mem := by
    rintro rfl
    simp at hq
  rw [Function.update_of_ne hqm] at hq
  obtain ⟨hd', hv, perm, hpage⟩ := he.tight q d' v hq
  have hdm : d' ≠ mem := by
    rintro rfl
    simp [h.free] at hd'
  refine ⟨?_, hv, perm, (h.page d' hd' v).trans hpage⟩
  rw [Function.update_of_ne hdm, hd']

theorem Exact.put {pt mem : Nat} (h : Exact L vm role) (hd : role d = .dir) (hv : v < 2 ^ 19)
    (hlink : vm.tables.dir d (v / 1024) = some pt) (hnone : vm.page d v = none)
    (hmem : role mem = .held) (perm : Perm) :
    Exact L (vm.setPte pt (v % 1024) (some ⟨mem, perm⟩)) (Function.update role mem (.frame d v)) := by
  have hpt := h.ok.owned.dir d _ pt hd hlink
  have howned := h.ok.owned.map (j := v % 1024) hpt (Nat.mod_lt _ (by norm_num))
    (m := mem) (by rw [hmem]; rfl) perm
  rw [show v / 1024 * 1024 + v % 1024 = v by omega] at howned
  have hdm : ∀ q, role q = .dir → q ≠ mem := by
    rintro q hq rfl
    simp [hmem] at hq
  refine ⟨⟨howned, ?_, h.ok.nodup⟩, ?_⟩
  · intro q
    by_cases hq : q = mem
    · subst hq
      simpa [hmem] using h.ok.free q
    · rw [Function.update_of_ne hq]
      exact h.ok.free q
  · intro q d' v' hq
    by_cases hqm : q = mem
    · subst hqm
      rw [Function.update_self, Role.frame.injEq] at hq
      obtain ⟨rfl, rfl⟩ := hq
      exact ⟨(Function.update_of_ne (hdm d hd) _ _).trans hd, hv, perm, page_setPte_self hlink _⟩
    · rw [Function.update_of_ne hqm] at hq
      obtain ⟨hd', hv', perm', hpage⟩ := h.tight q d' v' hq
      refine ⟨(Function.update_of_ne (hdm d' hd') _ _).trans hd', hv', perm', ?_⟩
      rw [h.ok.page_setPte hpt hd' ?_, hpage]
      rintro rfl rfl
      simp [hnone] at hpage

structure MapsUser (L : Layout) (d v mem : Nat) (perm : Perm) (vm vm' : Vm)
    (role role' : Nat → Role) : Prop where
  acts : Acts L d vm vm' role role'
  page : ∀ w, vm'.page d w = if w = v then some ⟨mem, perm⟩ else vm.page d w
  present : vm'.present d = Function.update (vm.present d) (v / 1024) true
  length : vm.freelist.length = vm'.freelist.length + 1 + vm.tableCost d (v / 1024)

theorem Took.maps {mem : Nat} (h : Took L vm vm' role mem) (he : Exact L vm role) (perm : Perm)
    (hd : role d = .dir) (hv : v < 2 ^ 19) (hnone : vm.page d v = none)
    (hroom : vm.present d (v / 1024) = true ∨ vm'.freelist ≠ []) :
    ∃ vm'' role'', vm'.mappages d (v * pgsize) pgsize (mem * pgsize) perm = .ok (vm'', 0) ∧
      MapsUser L d v mem perm vm vm'' role role'' := by
  have hdm : ∀ q, role q = .dir → q ≠ mem := by
    rintro q hq rfl
    simp [h.free] at hq
  have hheld := h.exact he
  have hd₁ : Function.update role mem .held d = .dir := by rwa [Function.update_of_ne (hdm d hd)]
  have hmap := mappages_range (v := v) vm' d 0 (mem * pgsize) perm (by omega)
  rw [Nat.zero_add, Nat.one_mul, mapLoop] at hmap
  rcases walkpgdir_acts (v * pgsize) hheld hd₁ with ⟨hnil, habs, _⟩ |
    ⟨vm₁, pt, role₁, hwalk, hr, hacts⟩
  · rw [pdx_page (by omega), h.present d hd] at habs
    exact absurd hroom (by simp [habs, hnil])
  · rw [pdx_page (by omega)] at hr
    rw [ptx_page] at hwalk
    have hnone₁ : vm₁.page d v = none := by rw [hr.pages d hd₁, h.page d hd, hnone]
    have hleaf : vm₁.tables.leaf pt (v % 1024) = none := by
      have hget := hnone₁
      unfold Vm.page TwoLevel.get at hget
      rwa [hr.linked] at hget
    have hmem : role₁ mem = .held := by
      rw [hr.roles mem (by simp), Function.update_self]
    have hput := hacts.exact.put (hacts.dir hd₁) hv hr.linked hnone₁ hmem perm
    have hpt := hr.table hd₁
    refine ⟨_, _, ?_, ⟨hput, ?_, ?_⟩, ?_, ?_, ?_⟩
    · rw [hmap, mapPage, hwalk]
      simp only [hleaf, Option.isSome_none, Bool.false_eq_true, if_false]
      rw [show mem * pgsize / pgsize = mem by simp]
      rfl
    · intro q
      by_cases hq : q = mem
      · subst hq
        rw [Function.update_self, h.free]
        exact .inr ⟨belongs_free, belongs_frame v⟩
      · rw [Function.update_of_ne hq]
        have hmoves := hacts.moves q
        rwa [Function.update_of_ne hq] at hmoves
    · intro q hq hdir
      have hdir₁ : Function.update role mem .held q = .dir := by
        rwa [Function.update_of_ne (hdm q hdir)]
      obtain ⟨hpres, hpages⟩ := hacts.dirs q hq hdir₁
      refine ⟨hpres.trans (h.present q hdir), fun w => ?_⟩
      rw [hacts.exact.ok.page_setPte hpt (hacts.dir hdir₁) (fun hqd => absurd hqd hq), hpages,
        h.page q hdir]
    · intro w
      split
      · rename_i hw
        subst hw
        exact page_setPte_self hr.linked _
      · rename_i hw
        rw [hacts.exact.ok.page_setPte hpt (hacts.dir hd₁) (fun _ => hw), hr.pages d hd₁, h.page d hd]
    · exact hr.present.trans (by rw [h.present d hd])
    · have hlen := hr.length
      have hlen' := h.length
      rw [tableCost, h.present d hd] at hlen
      rw [tableCost]
      simp only [freelist_setPte]
      omega

theorem Exact.unmap {pt : Nat} {e : Pte} (h : Exact L vm role) (hd : role d = .dir)
    (hv : v < 2 ^ 19) (hlink : vm.tables.dir d (v / 1024) = some pt)
    (he : vm.tables.leaf pt (v % 1024) = some e) (hp : Pushed vm vm' e.page) :
    Acts L d vm (vm'.setPte pt (v % 1024) none) role (Function.update role e.page .free) ∧
      (vm'.setPte pt (v % 1024) none).present d = vm.present d ∧
      ∀ w, (vm'.setPte pt (v % 1024) none).page d w = if w = v then none else vm.page d w := by
  obtain ⟨hworks, hpage⟩ := h.ok.unmap hd hv hlink he hp
  have hpt := h.ok.owned.dir d _ pt hd hlink
  have hframe := (h.ok.owned.frame pt d _ _ e hpt (by omega) he).1
  rw [show v / 1024 * 1024 + v % 1024 = v by omega] at hframe
  have hne : ∀ q, role q = .dir → q ≠ e.page := by
    rintro q hq rfl
    simp [hframe] at hq
  have hpres : ∀ q, role q = .dir →
      (vm'.setPte pt (v % 1024) none).present q = vm.present q := by
    intro q hq
    funext i
    rw [Vm.present, Vm.present]
    change ((vm'.tables).dir q i).isSome = _
    rw [hp.tables, TwoLevel.dir_fill_of_ne _ _ (hne q hq)]
  refine ⟨⟨⟨hworks.ok, ?_⟩, .update (hframe ▸ belongs_frame v) belongs_free, ?_⟩, hpres d hd, hpage⟩
  · intro q d' v' hq
    have hqe : q ≠ e.page := by
      rintro rfl
      simp at hq
    rw [Function.update_of_ne hqe] at hq
    obtain ⟨hd', hv', perm, hpage'⟩ := h.tight q d' v' hq
    refine ⟨(Function.update_of_ne (hne d' hd') _ _).trans hd', hv', perm, ?_⟩
    by_cases hdd : d' = d
    · subst hdd
      rw [hpage, if_neg, hpage']
      rintro rfl
      rw [page, TwoLevel.get, hlink, Option.bind_some, he, Option.some.injEq] at hpage'
      exact hqe (by rw [hpage'])
    · rw [(hworks.keeps.dir d' hdd hd').2, hpage']
  · intro q hq hdir
    exact ⟨hpres q hdir, (hworks.keeps.dir q hq hdir).2⟩

theorem page_of_absent {w : Nat} (h : vm.present d (w / 1024) = false) : vm.page d w = none := by
  unfold Vm.page TwoLevel.get
  unfold Vm.present at h
  rw [Option.isSome_eq_false_iff, Option.isNone_iff_eq_none] at h
  rw [h, Option.bind_none]

theorem walkpgdir_none (hv : v < 2 ^ 20) (h : vm.walkpgdir d (v * pgsize) false = (vm', none)) :
    vm.present d (v / 1024) = false := by
  unfold walkpgdir at h
  rw [pdx_page hv] at h
  cases hdir : vm.tables.dir d (v / 1024) with
  | none => simp [Vm.present, hdir]
  | some pt => simp [hdir] at h

-- deallocuvm goes 4 MB up from the address at which a page table is missing, not to the start of
-- the next one: it never sees the pages at the start of the first table it then finds.
def Skips (f : Nat → Bool) (v w : Nat) : Prop :=
  v / 1024 < w / 1024 ∧ w % 1024 < v % 1024 ∧ ∀ j, v / 1024 ≤ j → j < w / 1024 → f j = false

theorem not_skips {f : Nat → Bool} {w : Nat} (h : f (v / 1024) = true) : ¬ Skips f v w := by
  rintro ⟨hlt, _, habs⟩
  exact Bool.noConfusion (h.symm.trans (habs _ le_rfl hlt))

theorem not_skips_succ {f : Nat → Bool} {w : Nat} (h : f (v / 1024) = true) :
    ¬ Skips f (v + 1) w := by
  rintro ⟨hlt, hoff, habs⟩
  rcases Nat.lt_or_ge (v % 1024) 1023 with hv | hv
  · rw [show (v + 1) / 1024 = v / 1024 by omega] at hlt habs
    exact Bool.noConfusion (h.symm.trans (habs _ le_rfl hlt))
  · omega

theorem skips_jump {f : Nat → Bool} {w : Nat} (h : f (v / 1024) = false) :
    Skips f v w ↔ v / 1024 < w / 1024 ∧ (w < v + 1024 ∨ Skips f (v + 1024) w) := by
  constructor
  · rintro ⟨hlt, hoff, habs⟩
    refine ⟨hlt, ?_⟩
    rcases Nat.lt_or_ge w (v + 1024) with hw | hw
    · exact .inl hw
    · exact .inr ⟨by omega, by omega, fun j hj hjw => habs j (by omega) hjw⟩
  · rintro ⟨hlt, hw | ⟨hlt', hoff, habs⟩⟩
    · refine ⟨hlt, by omega, fun j hj hjw => ?_⟩
      rw [show j = v / 1024 by omega]
      exact h
    · refine ⟨hlt, by omega, fun j hj hjw => ?_⟩
      rcases Nat.eq_or_lt_of_le hj with rfl | hj
      · exact h
      · exact habs j (by omega) hjw

def framesIn (vm : Vm) (d v k : Nat) : List Nat :=
  (List.range' v (k - v)).filterMap fun w => (vm.page d w).map Pte.page

theorem framesIn_done {k : Nat} (hk : k ≤ v) : framesIn vm d v k = [] := by
  rw [framesIn, Nat.sub_eq_zero_of_le hk]
  rfl

theorem framesIn_cons {k : Nat} (hv : v < k) :
    framesIn vm d v k = ((vm.page d v).map Pte.page).toList ++ framesIn vm d (v + 1) k := by
  rw [framesIn, framesIn, show k - v = k - (v + 1) + 1 by omega, List.range'_succ,
    List.filterMap_cons]
  cases vm.page d v <;> rfl

theorem framesIn_congr {k : Nat} (h : ∀ w, v ≤ w → w < k → vm'.page d w = vm.page d w) :
    framesIn vm' d v k = framesIn vm d v k := by
  refine List.filterMap_congr fun w hw => ?_
  rw [List.mem_range'_1] at hw
  rw [h w hw.1 (by omega)]

theorem framesIn_skip {k m : Nat}
    (h : ∀ w, v ≤ w → w < v + m → w < k → vm.page d w = none) :
    framesIn vm d v k = framesIn vm d (v + m) k := by
  induction m with
  | zero => rfl
  | succ m ih =>
    rw [ih fun w hw hwm hk => h w hw (by omega) hk]
    rcases Nat.lt_or_ge (v + m) k with hlt | hge
    · rw [framesIn_cons hlt, h (v + m) (Nat.le_add_right v m) (by omega) hlt]
      rfl
    · rw [framesIn_done hge, framesIn_done (by omega)]

structure Clears (L : Layout) (d v k : Nat) (vm vm' : Vm) (role role' : Nat → Role) : Prop where
  acts : Acts L d vm vm' role role'
  present : vm'.present d = vm.present d
  gone : ∀ w, v ≤ w → w < k → ¬ Skips (vm.present d) v w → vm'.page d w = none
  kept : ∀ w, w < v ∨ k ≤ w ∨ Skips (vm.present d) v w → vm'.page d w = vm.page d w
  freed : (∀ w, v ≤ w → w < k → (vm.page d w).isSome → ¬ Skips (vm.present d) v w) →
    vm'.freelist = (framesIn vm d v k).reverse ++ vm.freelist

theorem Clears.done {k : Nat} (h : Exact L vm role) (hk : k ≤ v) :
    Clears L d v k vm vm role role :=
  ⟨.refl h, rfl, fun _ _ _ => by omega, fun _ _ => rfl, fun _ => by rw [framesIn_done hk]; rfl⟩

theorem present_of_page {w : Nat} (h : (vm.page d w).isSome) : vm.present d (w / 1024) = true := by
  by_contra habs
  rw [page_of_absent (Bool.eq_false_of_not_eq_true habs)] at h
  cases h

theorem Clears.jump {k : Nat} (habs : vm.present d (v / 1024) = false)
    (h : Clears L d (v + 1024) k vm vm' role role') : Clears L d v k vm vm' role role' := by
  have habove : ∀ w, v ≤ w → (vm.page d w).isSome → v / 1024 < w / 1024 := by
    intro w hw hsome
    rcases Nat.lt_or_eq_of_le (Nat.div_le_div_right (c := 1024) hw) with hlt | heq
    · exact hlt
    · rw [heq, present_of_page hsome] at habs
      cases habs
  refine ⟨h.acts, h.present, fun w hvw hwk hskip => ?_, fun w hw => h.kept w ?_, fun hskip => ?_⟩
  · cases hpage : vm.page d w with
    | none =>
      rcases Nat.lt_or_ge w (v + 1024) with hw | hw
      · rw [h.kept w (.inl hw), hpage]
      · by_cases hno : Skips (vm.present d) (v + 1024) w
        · rw [h.kept w (.inr (.inr hno)), hpage]
        · exact h.gone w hw hwk hno
    | some e =>
      have hlt := habove w hvw (by rw [hpage]; rfl)
      rw [skips_jump habs] at hskip
      simp only [not_and, not_or] at hskip
      obtain ⟨hle, hno⟩ := hskip hlt
      exact h.gone w (by omega) hwk hno
  · rcases hw with hw | hw | hw
    · exact .inl (by omega)
    · exact .inr (.inl hw)
    · exact ((skips_jump habs).mp hw).2.imp_right .inr
  · have hnone : ∀ w, v ≤ w → w < v + 1024 → w < k → vm.page d w = none := by
      intro w hvw hwv hwk
      by_contra hsome
      have hsome' : (vm.page d w).isSome := Option.ne_none_iff_isSome.mp hsome
      exact hskip w hvw hwk hsome' ((skips_jump habs).mpr ⟨habove w hvw hsome', .inl hwv⟩)
    rw [framesIn_skip hnone]
    refine h.freed fun w hvw hwk hsome hno => ?_
    exact hskip w (by omega) hwk hsome ((skips_jump habs).mpr ⟨by have := hno.1; omega, .inr hno⟩)

theorem Clears.after {k : Nat} {vm₁ : Vm} {role₁ : Nat → Role} {l : List Nat}
    (hk : v < k) (hpres : vm.present d (v / 1024) = true) (hacts : Acts L d vm vm₁ role role₁)
    (hpres₁ : vm₁.present d = vm.present d)
    (hpage : ∀ w, vm₁.page d w = if w = v then none else vm.page d w)
    (hframes : ((vm.page d v).map Pte.page).toList = l)
    (hfree : vm₁.freelist = l.reverse ++ vm.freelist)
    (h : Clears L d (v + 1) k vm₁ vm' role₁ role') : Clears L d v k vm vm' role role' := by
  have hno : ∀ w, ¬ Skips (vm₁.present d) (v + 1) w := fun w => by
    rw [hpres₁]
    exact not_skips_succ hpres
  refine ⟨hacts.trans h.acts, h.present.trans hpres₁, fun w hvw hwk _ => ?_, fun w hw => ?_,
    fun _ => ?_⟩
  · rcases Nat.eq_or_lt_of_le hvw with rfl | hlt
    · rw [h.kept v (.inl (by omega)), hpage, if_pos rfl]
    · exact h.gone w hlt hwk (hno w)
  · have hw' : w < v ∨ k ≤ w := by
      rcases hw with hw | hw | hw
      · exact .inl hw
      · exact .inr hw
      · exact absurd hw (not_skips hpres)
    rw [h.kept w (by omega), hpage, if_neg (by omega)]
  · rw [h.freed fun w _ _ _ => hno w, hfree, framesIn_cons hk, hframes,
      framesIn_congr fun w hw _ => show vm₁.page d w = vm.page d w by
        rw [hpage, if_neg (by omega)]]
    simp

theorem deallocLoop_clears {oldsz : Nat} (hold : oldsz ≤ kernbase) (fuel : Nat) :
    ∀ {vm : Vm} {role : Nat → Role} {v : Nat}, Exact L vm role → role d = .dir →
    pages oldsz ≤ v + fuel →
    ∃ vm' role', deallocLoop L d oldsz fuel vm (v * pgsize) = .ok vm' ∧
      Clears L d v (pages oldsz) vm vm' role role' := by
  induction fuel with
  | zero =>
    intro vm role v h hd hfuel
    exact ⟨vm, role, rfl, .done h (by omega)⟩
  | succ fuel ih =>
    intro vm role v h hd hfuel
    rw [deallocLoop]
    by_cases hlt : v * pgsize < oldsz
    · have hvk := lt_pages.mp hlt
      have hv : v < 2 ^ 19 := hvk.trans_le (pages_le hold)
      have hnext := next_page (v := v) (by omega)
      have hjump := next_table hv
      rw [if_pos hlt]
      rcases page_walk vm d hv with ⟨hwalk, _⟩ | ⟨pt, hwalk, hlink, hpage⟩
      · obtain ⟨vm', role', hloop, hc⟩ := ih (v := v + 1024) h hd (by omega)
        refine ⟨vm', role', ?_, hc.jump (walkpgdir_none (by omega) hwalk)⟩
        simp only [hwalk, hjump]
        exact hloop
      · have hpres : vm.present d (v / 1024) = true := by simp [Vm.present, hlink]
        rw [hwalk]
        cases he : vm.tables.leaf pt (v % 1024) with
        | none =>
          rw [he] at hpage
          obtain ⟨vm', role', hloop, hc⟩ := ih (v := v + 1) h hd (by omega)
          refine ⟨vm', role', ?_, hc.after hvk hpres (.refl h) rfl (fun w => ?_) (l := [])
            (by rw [hpage]; rfl) rfl⟩
          · simp only [he, hnext]
            exact hloop
          · split
            · next hw => rw [hw, hpage]
            · rfl
        | some e =>
          rw [he] at hpage
          have hpt := h.ok.owned.dir d _ pt hd hlink
          have hframe := (h.ok.owned.frame pt d _ _ e hpt (by omega) he).1
          have hne := h.ok.ne_zero (p := e.page) (by simp [hframe])
          obtain ⟨vm₁, hfree, hpushed⟩ := h.ok.kfree (p := e.page) (by simp [hframe])
          obtain ⟨hacts, hpres₁, hpage₁⟩ := h.unmap hd hv hlink he hpushed
          obtain ⟨vm', role', hloop, hc⟩ := ih (v := v + 1) hacts.exact (hacts.dir hd) (by omega)
          refine ⟨vm', role', ?_, hc.after hvk hpres hacts hpres₁ hpage₁ (l := [e.page])
            (by rw [hpage]; rfl) hpushed.freelist⟩
          simp only [he, hne, if_false, hfree, hnext]
          exact hloop
    · rw [lt_pages] at hlt
      refine ⟨vm, role, ?_, .done h (by omega)⟩
      rw [if_neg (by rwa [lt_pages])]
      rfl

theorem deallocuvm_clears (oldsz newsz : Nat) (h : Exact L vm role) (hd : role d = .dir)
    (hold : oldsz ≤ kernbase) (hlt : newsz < oldsz) :
    ∃ vm' role', vm.deallocuvm L d oldsz newsz = .ok (vm', newsz) ∧
      Clears L d (pages newsz) (pages oldsz) vm vm' role role' := by
  have hfuel : pages oldsz ≤ pages newsz + (oldsz / pgsize + 1) := by
    simp only [pages, pgsize]
    omega
  obtain ⟨vm', role', hloop, hc⟩ := deallocLoop_clears hold (oldsz / pgsize + 1) h hd hfuel
  refine ⟨vm', role', ?_, hc⟩
  rw [deallocuvm, if_neg (by omega), pgroundup_eq (by omega), hloop]
  rfl

-- User page tables are made from the bottom up and stay until freevm.
def Stacked (vm : Vm) (d : Nat) : Prop :=
  ∀ i i', i ≤ i' → i' < 512 → vm.present d i' = true → vm.present d i = true

theorem Stacked.congr (h : Stacked vm d) (hpres : vm'.present d = vm.present d) : Stacked vm' d := by
  unfold Stacked
  rw [hpres]
  exact h

structure Unmaps (L : Layout) (d v k : Nat) (vm vm' : Vm) (role role' : Nat → Role) : Prop where
  acts : Acts L d vm vm' role role'
  present : vm'.present d = vm.present d
  page : ∀ w < 2 ^ 19, vm'.page d w = if v ≤ w ∧ w < k then none else vm.page d w

theorem Clears.unmaps {k : Nat} (h : Clears L d v k vm vm' role role')
    (hno : ∀ w < 2 ^ 19, v ≤ w → w < k → (vm.page d w).isSome → ¬ Skips (vm.present d) v w) :
    Unmaps L d v k vm vm' role role' := by
  refine ⟨h.acts, h.present, fun w hw => ?_⟩
  split
  · next hin =>
    by_cases hskip : Skips (vm.present d) v w
    · rw [h.kept w (.inr (.inr hskip))]
      by_contra hsome
      exact hno w hw hin.1 hin.2 (Option.ne_none_iff_isSome.mp hsome) hskip
    · exact h.gone w hin.1 hin.2 hskip
  · exact h.kept w (by omega)

theorem Stacked.not_skips {w : Nat} (h : Stacked vm d) (hw : w < 2 ^ 19)
    (hsome : (vm.page d w).isSome) : ¬ Skips (vm.present d) v w := by
  rintro ⟨hlt, _, habs⟩
  have := h (v / 1024) (w / 1024) hlt.le (by omega) (present_of_page hsome)
  exact Bool.noConfusion (this.symm.trans (habs _ le_rfl hlt))

theorem deallocuvm_acts {oldsz newsz : Nat} (h : Exact L vm role) (hd : role d = .dir)
    (hst : Stacked vm d) (hold : oldsz ≤ kernbase) (hlt : newsz < oldsz) :
    ∃ vm' role', vm.deallocuvm L d oldsz newsz = .ok (vm', newsz) ∧
      Unmaps L d (pages newsz) (pages oldsz) vm vm' role role' := by
  obtain ⟨vm', role', hcall, hc⟩ := deallocuvm_clears oldsz newsz h hd hold hlt
  exact ⟨vm', role', hcall, hc.unmaps fun w hw _ _ hsome => hst.not_skips hw hsome⟩

def absent (f : Nat → Bool) (i : Nat) : Nat := if f i then 0 else 1

-- When a page is at hand for the user page at `v`, one more is at hand for its table if that is
-- missing: mappages does not fail, for k pages from v on and `free` pages on the free list.
def TablesFit : (Nat → Bool) → Nat → Nat → Nat → Prop
  | _, _, 0, _ => True
  | f, v, k + 1, free => free = 0 ∨ 1 + absent f (v / 1024) ≤ free ∧
      TablesFit (Function.update f (v / 1024) true) (v + 1) k (free - (1 + absent f (v / 1024)))

instance decidableTablesFit : ∀ f v k free, Decidable (TablesFit f v k free)
  | _, _, 0, _ => isTrue trivial
  | f, v, k + 1, free =>
    have := decidableTablesFit (Function.update f (v / 1024) true) (v + 1) k
      (free - (1 + absent f (v / 1024)))
    inferInstanceAs (Decidable (free = 0 ∨ 1 + absent f (v / 1024) ≤ free ∧
      TablesFit (Function.update f (v / 1024) true) (v + 1) k
        (free - (1 + absent f (v / 1024)))))

def Reaches (vm : Vm) (d v : Nat) : Prop := v = 0 ∨ vm.present d ((v - 1) / 1024) = true

structure Extends (L : Layout) (d v k : Nat) (vm vm' : Vm) (role role' : Nat → Role) : Prop where
  acts : Acts L d vm vm' role role'
  stacked : Stacked vm' d
  reaches : Reaches vm' d (v + k)
  page : ∀ w, (v ≤ w ∧ w < v + k → ∃ q, vm'.page d w = some ⟨q, true, true⟩) ∧
    (¬ (v ≤ w ∧ w < v + k) → vm'.page d w = vm.page d w)
  present : ∀ i, vm'.present d i = true ↔
    vm.present d i = true ∨ ∃ w, v ≤ w ∧ w < v + k ∧ w / 1024 = i
  length : vm.freelist.length = vm'.freelist.length + demand (vm.present d) v k

structure Fills (L : Layout) (d v k : Nat) (bytes : Nat → Nat → UInt8) (vm vm' : Vm)
    (role role' : Nat → Role) : Prop where
  acts : Acts L d vm vm' role role'
  inside : ∀ w, v ≤ w → w < v + k → ∃ q ∈ vm.freelist,
    vm'.page d w = some ⟨q, true, true⟩ ∧ vm'.data q = bytes w
  outside : ∀ w, ¬ (v ≤ w ∧ w < v + k) → vm'.page d w = vm.page d w
  present : ∀ i, vm'.present d i = true ↔
    vm.present d i = true ∨ ∃ w, v ≤ w ∧ w < v + k ∧ w / 1024 = i
  length : vm.freelist.length = vm'.freelist.length + demand (vm.present d) v k
  allocates : Allocates vm vm'

theorem Fills.refl (h : Exact L vm role) (bytes : Nat → Nat → UInt8) :
    Fills L d v 0 bytes vm vm role role := by
  refine ⟨.refl h, fun w _ _ => by omega, fun _ _ => rfl, fun i => ?_, rfl, .refl vm⟩
  constructor
  · exact .inl
  · rintro (hi | ⟨w, hw, hw', _⟩)
    · exact hi
    · omega

theorem present_cons {i k : Nat} {vm₁ : Vm}
    (h : vm₁.present d = Function.update (vm.present d) (v / 1024) true) :
    (vm₁.present d i = true ∨ ∃ w, v + 1 ≤ w ∧ w < v + 1 + k ∧ w / 1024 = i) ↔
      (vm.present d i = true ∨ ∃ w, v ≤ w ∧ w < v + (k + 1) ∧ w / 1024 = i) := by
  rw [h]
  by_cases hi : i = v / 1024
  · subst hi
    rw [Function.update_self]
    exact ⟨fun _ => .inr ⟨v, le_rfl, by omega, rfl⟩, fun _ => .inl rfl⟩
  · rw [Function.update_of_ne hi]
    refine or_congr_right ⟨?_, ?_⟩
    · rintro ⟨w, hw, hw', rfl⟩
      exact ⟨w, by omega, by omega, rfl⟩
    · rintro ⟨w, hw, hw', rfl⟩
      refine ⟨w, ?_, by omega, rfl⟩
      rcases Nat.lt_or_eq_of_le hw with hlt | rfl
      · omega
      · exact absurd rfl hi

structure Newly (vm vm' : Vm) (q : Nat) (bytes : Nat → UInt8) : Prop where
  free : q ∈ vm.freelist
  taken : q ∉ vm'.freelist
  data : vm'.data q = bytes

theorem MapsUser.fills {mem k : Nat} {bytes : Nat → Nat → UInt8}
    (h : MapsUser L d v mem ⟨true, true⟩ vm vm' role role') (ha : Allocates vm vm')
    (hn : Newly vm vm' mem (bytes v)) (h' : Fills L d (v + 1) k bytes vm' vm'' role' role'') :
    Fills L d v (k + 1) bytes vm vm'' role role'' := by
  refine ⟨h.acts.trans h'.acts, fun w hw hwk => ?_, fun w hw => ?_, fun i => ?_, ?_,
    ha.trans h'.allocates⟩
  · rcases Nat.eq_or_lt_of_le hw with rfl | hlt
    · refine ⟨mem, hn.free, ?_, ?_⟩
      · rw [h'.outside v (by omega), h.page, if_pos rfl]
      · rw [h'.allocates.data mem hn.taken, hn.data]
    · obtain ⟨q, hq, hpage, hdata⟩ := h'.inside w hlt (by omega)
      exact ⟨q, ha.freelist.mem hq, hpage, hdata⟩
  · rw [h'.outside w (by omega), h.page, if_neg (by omega)]
  · rw [h'.present, present_cons h.present]
  · have hlen := h'.length
    rw [h.present] at hlen
    rw [demand_succ, h.length, hlen]
    omega

structure Undoes (L : Layout) (d oldsz newsz v k : Nat) (vm vm' : Vm) (role role' : Nat → Role) :
    Prop where
  acts : Acts L d vm vm' role role'
  present : ∃ m ≤ k, ∀ i, vm'.present d i = true ↔
    vm.present d i = true ∨ ∃ w, v ≤ w ∧ w < v + m ∧ w / 1024 = i
  page : ∀ w, vm'.page d w = if pages oldsz ≤ w ∧ w < pages newsz then none else vm.page d w
  settles : ∀ p ∉ vm.freelist, p ∉ vm'.freelist → vm'.data p = vm.data p

theorem MapsUser.undoes {oldsz newsz mem k : Nat} {perm : Perm}
    (h : MapsUser L d v mem perm vm vm' role role') (ha : Allocates vm vm')
    (h' : Undoes L d oldsz newsz (v + 1) k vm' vm'' role' role'') (hold : pages oldsz ≤ v)
    (hnew : v < pages newsz) : Undoes L d oldsz newsz v (k + 1) vm vm'' role role'' := by
  obtain ⟨m, hm, hpres⟩ := h'.present
  refine ⟨h.acts.trans h'.acts, ⟨m + 1, by omega, fun i => ?_⟩, fun w => ?_, fun p hp hp' => ?_⟩
  · rw [hpres, present_cons h.present]
  · rw [h'.page w, h.page]
    split_ifs <;> first | rfl | omega
  · rw [h'.settles p (fun hmem => hp (ha.freelist.mem hmem)) hp', ha.data p hp]

theorem deallocuvm_undoes {oldsz newsz k : Nat} (h : Exact L vm role) (hd : role d = .dir)
    (hnew : newsz < kernbase) (hlt : oldsz < newsz)
    (hstart : v = pages oldsz ∨ vm.present d (pages oldsz / 1024) = true)
    (hnone : ∀ w < 2 ^ 19, v ≤ w → vm.page d w = none) :
    ∃ vm' role', vm.deallocuvm L d newsz oldsz = .ok (vm', oldsz) ∧
      Undoes L d oldsz newsz v k vm vm' role role' := by
  have hpages := pages_le hnew.le
  obtain ⟨vm', role', hcall, hc⟩ := deallocuvm_clears newsz oldsz h hd hnew.le hlt
  have hno : ∀ w, pages oldsz ≤ w → w < pages newsz → (vm.page d w).isSome →
      ¬ Skips (vm.present d) (pages oldsz) w := by
    intro w hw hwk hsome
    rcases hstart with rfl | hstart
    · rw [hnone w (by omega) hw] at hsome
      cases hsome
    · exact not_skips hstart
  refine ⟨vm', role', hcall, hc.acts, ⟨0, Nat.zero_le _, fun i => ?_⟩, fun w => ?_,
    fun p _ hp => (deallocuvm_releases hcall).data p hp⟩
  · rw [hc.present]
    constructor
    · exact .inl
    · rintro (hi | ⟨w, hw, hw', _⟩)
      · exact hi
      · omega
  · split
    · next hin =>
      by_cases hskip : Skips (vm.present d) (pages oldsz) w
      · rw [hc.kept w (.inr (.inr hskip))]
        by_contra hsome
        exact hno w hin.1 hin.2 (Option.ne_none_iff_isSome.mp hsome) hskip
      · exact hc.gone w hin.1 hin.2 hskip
    · exact hc.kept w (by omega)

theorem Took.newly {mem : Nat} {vm₁ : Vm} (h : Took L vm vm₁ role mem) (he : Exact L vm role)
    (ha : Allocates vm vm₁) (hd : role d = .dir) (hv : v < 2 ^ 19) (hnone : vm.page d v = none)
    (hroom : 1 + absent (vm.present d) (v / 1024) ≤ vm.freelist.length) :
    ∃ vm₂ role₂, vm₁.mappages d (v * pgsize) pgsize (mem * pgsize) ⟨true, true⟩ = .ok (vm₂, 0) ∧
      MapsUser L d v mem ⟨true, true⟩ vm vm₂ role role₂ ∧ Allocates vm vm₂ ∧
      Newly vm vm₂ mem (vm₁.data mem) ∧
      vm₂.freelist.length = vm.freelist.length - (1 + absent (vm.present d) (v / 1024)) := by
  have hlen := h.length
  have htable : vm.present d (v / 1024) = true ∨ vm₁.freelist ≠ [] := by
    by_cases hpres : vm.present d (v / 1024) = true
    · exact .inl hpres
    · refine .inr fun hnil => ?_
      rw [hnil, List.length_nil] at hlen
      rw [absent, if_neg hpres] at hroom
      omega
  obtain ⟨vm₂, role₂, hmap, hm⟩ := h.maps he ⟨true, true⟩ hd hv hnone htable
  have ha₂ := mappages_allocates hmap
  have htaken : mem ∉ vm₁.freelist := by
    rw [h.ok.free, Function.update_self]
    simp
  have hcost : vm.tableCost d (v / 1024) = absent (vm.present d) (v / 1024) := rfl
  have hlen₂ := hm.length
  exact ⟨vm₂, role₂, hmap, hm, ha.trans ha₂, ⟨(he.ok.free mem).mpr h.free,
    fun hmem => htaken (ha₂.freelist.mem hmem), ha₂.data mem htaken⟩, by omega⟩

theorem Took.stuck {mem : Nat} {vm₁ : Vm} (h : Took L vm vm₁ role mem) (hd : role d = .dir)
    (hv : v < 2 ^ 19) (hnone : vm.page d v = none)
    (hroom : vm.freelist.length < 1 + absent (vm.present d) (v / 1024)) :
    vm.present d (v / 1024) = false ∧ vm₁.freelist = [] ∧
      vm₁.mappages d (v * pgsize) pgsize (mem * pgsize) ⟨true, true⟩ = .ok (vm₁, -1) := by
  have hlen := h.length
  have hcost : vm.tableCost d (v / 1024) = absent (vm.present d) (v / 1024) := rfl
  have habs : vm.present d (v / 1024) = false := by
    rw [← Bool.not_eq_true]
    intro hpres
    rw [absent, if_pos hpres] at hroom
    omega
  refine ⟨habs, ?_, ?_⟩
  · rw [absent, habs] at hroom
    simp only [Bool.false_eq_true, if_false] at hroom
    exact List.length_eq_zero_iff.mp (by omega)
  · rcases h.map ⟨true, true⟩ hd hv hnone with ⟨hmap, _⟩ | ⟨vm₂, role₂, _, _, _, _, hlen₂⟩
    · exact hmap
    · omega

theorem start_kept {oldsz : Nat} {vm₁ : Vm}
    (hpres : vm₁.present d = Function.update (vm.present d) (v / 1024) true)
    (hstart : v = pages oldsz ∨ vm.present d (pages oldsz / 1024) = true) :
    v + 1 = pages oldsz ∨ vm₁.present d (pages oldsz / 1024) = true := by
  refine .inr ?_
  rw [hpres]
  rcases hstart with rfl | hstart
  · exact Function.update_self ..
  · by_cases hi : pages oldsz / 1024 = v / 1024
    · rw [hi, Function.update_self]
    · rw [Function.update_of_ne hi, hstart]

theorem allocLoop_fills {oldsz newsz : Nat} (hnew : newsz < kernbase) (k : Nat) : ∀ {vm : Vm}
    {role : Nat → Role} {v : Nat}, Exact L vm role → role d = .dir →
    pages oldsz ≤ v → v + k = pages newsz →
    (v = pages oldsz ∨ vm.present d (pages oldsz / 1024) = true) →
    (∀ w < 2 ^ 19, v ≤ w → vm.page d w = none) →
    TablesFit (vm.present d) v k vm.freelist.length →
    ∃ vm' role' r, allocLoop L d oldsz newsz k vm (v * pgsize) = .ok (vm', r) ∧
      (r = newsz ∧ Fills L d v k (fun _ _ => 0) vm vm' role role' ∨
        r = 0 ∧ Undoes L d oldsz newsz v k vm vm' role role' ∧
          vm.freelist.length < demand (vm.present d) v k) := by
  induction k with
  | zero =>
    intro vm role v h hd _ _ _ _ _
    exact ⟨vm, role, newsz, rfl, .inl ⟨rfl, .refl h _⟩⟩
  | succ k ih =>
    intro vm role v h hd hold hk hstart hnone hfit
    have hv : v < 2 ^ 19 := by
      have := pages_le hnew.le
      omega
    cases hkalloc : vm.kalloc with
    | mk vm₁ r =>
      cases r with
      | none =>
        obtain ⟨rfl, hnil⟩ := kalloc_none hkalloc
        have hlt : oldsz < newsz := by
          simp only [pages, pgsize] at *
          omega
        obtain ⟨vm', role', hdealloc, hu⟩ := deallocuvm_undoes h hd hnew hlt hstart hnone
        refine ⟨vm', role', 0, ?_, .inr ⟨rfl, hu, ?_⟩⟩
        · rw [allocLoop, hkalloc]
          simp only [hdealloc]
          rfl
        · rw [hnil, demand_succ, List.length_nil]
          omega
      | some mem =>
        have hlen := (kalloc_some hkalloc).length
        obtain ⟨hroom, hrest⟩ := hfit.resolve_left (by omega)
        obtain ⟨vm₂, role₂, hmap, hm, ha, hn, hfree⟩ := (Took.zero h.ok (kalloc_some hkalloc)).newly
          h (kalloc_zero hkalloc) hd hv (hnone v hv le_rfl) hroom
        have hzero : (vm₁.zero mem).data mem = fun _ => 0 := Function.update_self ..
        rw [hzero] at hn
        have hnext := next_page (v := v) (by omega)
        obtain ⟨vm', role', r, hloop, hres⟩ := ih hm.acts.exact (hm.acts.dir hd) (by omega)
          (by omega) (start_kept hm.present hstart) (fun w hw hvw => by
            rw [hm.page, if_neg (by omega)]
            exact hnone w hw (by omega)) (by rw [hm.present, hfree]; exact hrest)
        refine ⟨vm', role', r, ?_, ?_⟩
        · rw [allocLoop, hkalloc]
          simp only [hmap, hnext]
          exact hloop
        · rcases hres with ⟨rfl, hfill⟩ | ⟨rfl, hundo, hshort⟩
          · exact .inl ⟨rfl, hm.fills ha hn hfill⟩
          · refine .inr ⟨rfl, hm.undoes ha hundo hold (by omega), ?_⟩
            rw [hm.present] at hshort
            rw [demand_succ, hm.length]
            omega

theorem Stacked.extend {k : Nat} (h : Stacked vm d) (hr : Reaches vm d v)
    (hpres : ∀ i, vm'.present d i = true ↔
      vm.present d i = true ∨ ∃ w, v ≤ w ∧ w < v + k ∧ w / 1024 = i) :
    Stacked vm' d ∧ Reaches vm' d (v + k) := by
  refine ⟨fun i i' hle hi' hp => ?_, ?_⟩
  · rw [hpres] at hp ⊢
    rcases hp with hp | ⟨w, hw, hwk, rfl⟩
    · exact .inl (h i i' hle hi' hp)
    · rcases Nat.lt_or_ge i (v / 1024) with hlt | hge
      · rcases hr with rfl | hr
        · omega
        · exact .inl (h i ((v - 1) / 1024) (by omega) (by omega) hr)
      · refine .inr ⟨max v (i * 1024), le_max_left _ _, ?_, ?_⟩ <;> omega
  · rcases Nat.eq_zero_or_pos k with rfl | hk
    · refine hr.imp id fun hr => ?_
      rw [hpres]
      exact .inl hr
    · refine .inr ((hpres _).mpr (.inr ⟨v + k - 1, by omega, by omega, rfl⟩))

theorem Fills.extends {k : Nat} {bytes : Nat → Nat → UInt8}
    (h : Fills L d v k bytes vm vm' role role') (hst : Stacked vm d) (hr : Reaches vm d v) :
    Extends L d v k vm vm' role role' := by
  obtain ⟨hst', hr'⟩ := hst.extend hr h.present
  refine ⟨h.acts, hst', hr', fun w => ⟨fun hw => ?_, h.outside w⟩, h.present, h.length⟩
  obtain ⟨q, _, hpage, _⟩ := h.inside w hw.1 hw.2
  exact ⟨q, hpage⟩

structure Fails (L : Layout) (d oldsz newsz : Nat) (vm vm' : Vm) (role role' : Nat → Role) :
    Prop where
  acts : Acts L d vm vm' role role'
  stacked : Stacked vm' d
  present : ∀ i, vm.present d i = true → vm'.present d i = true
  page : ∀ w < 2 ^ 19,
    vm'.page d w = if pages oldsz ≤ w ∧ w < pages newsz then none else vm.page d w

theorem Undoes.fails {oldsz newsz k : Nat} (h : Undoes L d oldsz newsz v k vm vm' role role')
    (hst : Stacked vm d) (hr : Reaches vm d v) : Fails L d oldsz newsz vm vm' role role' := by
  obtain ⟨m, _, hpres⟩ := h.present
  exact ⟨h.acts, (hst.extend hr hpres).1, fun i hi => (hpres i).mpr (.inl hi), fun w _ => h.page w⟩

structure Spans (vm : Vm) (d sz : Nat) : Prop where
  stacked : Stacked vm d
  reaches : Reaches vm d (pages sz)
  above : ∀ w < 2 ^ 19, pages sz ≤ w → vm.page d w = none

theorem allocuvm_fills {oldsz newsz : Nat} (h : Exact L vm role) (hd : role d = .dir)
    (hnone : ∀ w < 2 ^ 19, pages oldsz ≤ w → vm.page d w = none) (hnew : newsz < kernbase)
    (hle : oldsz ≤ newsz)
    (hfit : TablesFit (vm.present d) (pages oldsz) (pages newsz - pages oldsz)
      vm.freelist.length) :
    ∃ vm' role' r, vm.allocuvm L d oldsz newsz = .ok (vm', r) ∧
      (r = newsz ∧
          Fills L d (pages oldsz) (pages newsz - pages oldsz) (fun _ _ => 0) vm vm' role role' ∨
        r = 0 ∧ Undoes L d oldsz newsz (pages oldsz) (pages newsz - pages oldsz) vm vm' role role' ∧
          vm.freelist.length < demand (vm.present d) (pages oldsz) (pages newsz - pages oldsz)) := by
  have hpages := pages_mono hle
  rw [allocuvm_loop hnew hle]
  exact allocLoop_fills hnew (pages newsz - pages oldsz) h hd le_rfl (by omega) (.inl rfl) hnone
    hfit

theorem allocuvm_acts {oldsz newsz : Nat} (h : Exact L vm role) (hd : role d = .dir)
    (hs : Spans vm d oldsz) (hnew : newsz < kernbase) (hle : oldsz ≤ newsz)
    (hfit : TablesFit (vm.present d) (pages oldsz) (pages newsz - pages oldsz)
      vm.freelist.length) :
    ∃ vm' role' r, vm.allocuvm L d oldsz newsz = .ok (vm', r) ∧
      (r = newsz ∧ Extends L d (pages oldsz) (pages newsz - pages oldsz) vm vm' role role' ∨
        r = 0 ∧ Fails L d oldsz newsz vm vm' role role' ∧
          vm.freelist.length < demand (vm.present d) (pages oldsz) (pages newsz - pages oldsz)) := by
  obtain ⟨vm', role', r, hcall, hres⟩ := allocuvm_fills h hd hs.above hnew hle hfit
  refine ⟨vm', role', r, hcall, hres.imp ?_ ?_⟩
  · rintro ⟨rfl, hfill⟩
    exact ⟨rfl, hfill.extends hs.stacked hs.reaches⟩
  · rintro ⟨rfl, hundo, hshort⟩
    exact ⟨rfl, hundo.fails hs.stacked hs.reaches, hshort⟩

theorem Extends.spans {oldsz newsz : Nat} (hs : Spans vm d oldsz) (hle : oldsz ≤ newsz)
    (h : Extends L d (pages oldsz) (pages newsz - pages oldsz) vm vm' role role') :
    Spans vm' d newsz := by
  have hk : pages oldsz + (pages newsz - pages oldsz) = pages newsz := by
    have := pages_mono hle
    omega
  refine ⟨h.stacked, hk ▸ h.reaches, fun w hw hle' => ?_⟩
  rw [(h.page w).2 (by omega), hs.above w hw (by omega)]

theorem Fails.spans {oldsz newsz : Nat} (hs : Spans vm d oldsz)
    (h : Fails L d oldsz newsz vm vm' role role') : Spans vm' d oldsz := by
  refine ⟨h.stacked, hs.reaches.imp_right (h.present _), fun w hw hle => ?_⟩
  rw [h.page w hw]
  split_ifs
  · rfl
  · exact hs.above w hw hle

theorem Unmaps.spans {oldsz newsz : Nat} (hs : Spans vm d oldsz) (hold : oldsz ≤ kernbase)
    (hle : newsz ≤ oldsz) (h : Unmaps L d (pages newsz) (pages oldsz) vm vm' role role') :
    Spans vm' d newsz := by
  have hpages := pages_mono hle
  have hbound := pages_le hold
  refine ⟨hs.stacked.congr h.present, ?_, fun w hw hle' => ?_⟩
  · rcases Nat.eq_zero_or_pos (pages newsz) with hzero | hpos
    · exact .inl hzero
    · refine .inr ?_
      rw [h.present]
      exact hs.stacked _ _ (by omega) (by omega) (hs.reaches.resolve_left (by omega))
  · rw [h.page w hw]
    split_ifs
    · rfl
    · exact hs.above w hw (by omega)

theorem Unmaps.spans_same {sz k : Nat} (hs : Spans vm d sz)
    (h : Unmaps L d v k vm vm' role role') : Spans vm' d sz := by
  refine ⟨hs.stacked.congr h.present, ?_, fun w hw hle => ?_⟩
  · unfold Reaches
    rw [h.present]
    exact hs.reaches
  · rw [h.page w hw]
    split_ifs
    · rfl
    · exact hs.above w hw hle

def GrowthFits (vm : Vm) (d sz : Nat) (n : Int) : Prop :=
  0 < n → sz ≤ addInt sz n → addInt sz n < kernbase →
    TablesFit (vm.present d) (pages sz) (pages (addInt sz n) - pages sz) vm.freelist.length

theorem growproc_acts {sz : Nat} {n : Int} (h : Exact L vm role) (hd : role d = .dir)
    (hs : Spans vm d sz) (hsz : sz < kernbase) (hfit : GrowthFits vm d sz n) :
    ∃ vm' role' r, vm.growproc L d sz n = .ok (vm', r) ∧ Acts L d vm vm' role role' ∧
      Spans vm' d (r.getD sz) ∧ r.getD sz < kernbase := by
  unfold growproc
  by_cases hpos : 0 < n
  · rw [if_pos hpos]
    by_cases hbig : kernbase ≤ addInt sz n
    · refine ⟨vm, role, none, ?_, .refl h, hs, hsz⟩
      rw [allocuvm, if_pos hbig]
      rfl
    · by_cases hle : sz ≤ addInt sz n
      · obtain ⟨vm', role', r, halloc, hres⟩ := allocuvm_acts h hd hs (by omega) hle
          (hfit hpos hle (by omega))
        refine ⟨vm', role', if r = 0 then none else some r, ?_, ?_⟩
        · rw [halloc]
          exact report_eq vm' r
        · rcases hres with ⟨rfl, hext⟩ | ⟨rfl, hfail, _⟩
          · refine ⟨hext.acts, ?_⟩
            have hspans := hext.spans hs hle
            split_ifs with hzero
            · have hsame : addInt sz n = sz := by omega
              rw [hsame] at hspans
              exact ⟨hspans, hsz⟩
            · exact ⟨hspans, by simpa using hbig⟩
          · rw [if_pos rfl]
            exact ⟨hfail.acts, hfail.spans hs, hsz⟩
      · refine ⟨vm, role, some sz, ?_, .refl h, hs, hsz⟩
        rw [allocuvm, if_neg hbig, if_pos (by omega)]
        exact (report_eq vm sz).trans (by rw [if_neg (by omega)])
  · rw [if_neg hpos]
    by_cases hneg : n < 0
    · rw [if_pos hneg]
      by_cases hlt : addInt sz n < sz
      · obtain ⟨vm', role', hdealloc, hu⟩ := deallocuvm_acts h hd hs.stacked hsz.le hlt
        refine ⟨vm', role', if addInt sz n = 0 then none else some (addInt sz n), ?_, hu.acts, ?_⟩
        · rw [hdealloc]
          exact report_eq vm' _
        · split_ifs with hzero
          · exact ⟨hu.spans_same hs, hsz⟩
          · exact ⟨hu.spans hs hsz.le hlt.le, hlt.trans hsz⟩
      · refine ⟨vm, role, if sz = 0 then none else some sz, ?_, .refl h, ?_⟩
        · rw [deallocuvm, if_pos (by omega)]
          exact report_eq vm sz
        · split_ifs
          · exact ⟨hs, hsz⟩
          · exact ⟨hs, hsz⟩
    · rw [if_neg hneg]
      exact ⟨vm, role, some sz, rfl, .refl h, hs, hsz⟩

end Vm
end Xv6
