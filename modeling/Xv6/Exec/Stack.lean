import Xv6.Exec.Load

namespace Xv6
namespace Vm

variable {L : Layout} {vm vm' vm₀ : Vm} {role role' role₀ : Nat → Role} {d v mapped top : Nat}
  {s : Loading}

theorem pages_mul (k : Nat) : pages (k * pgsize) = k := by
  simp only [pages, pgsize]
  omega

theorem Space.round (h : Space L d s vm₀ vm role₀ role) (hlt : pages s.sz * pgsize < kernbase) :
    Space L d { s with sz := pages s.sz * pgsize } vm₀ vm role₀ role := by
  refine ⟨h.free, h.acts, h.stacked, hlt, h.mapped, h.above, h.kernel, h.present, h.length, ?_⟩
  dsimp only
  rw [pages_mul]
  exact h.whole

theorem Loading.grow_sz {s' : Loading} {newsz : Nat} (hle : s.sz ≤ newsz)
    (h : s.grow newsz = some s') : s'.sz = newsz := by
  rw [Loading.grow, if_neg (by omega)] at h
  split_ifs at h
  · cases h
    rfl
  · cases h
    rfl

theorem Exact.protect {pt q : Nat} {perm : Perm} (h : Exact L vm role) (hd : role d = .dir)
    (hv : v < 2 ^ 19) (hlink : vm.tables.dir d (v / 1024) = some pt)
    (hpage : vm.page d v = some ⟨q, perm⟩) (perm' : Perm) :
    Acts L d vm (vm.setPte pt (v % 1024) (some ⟨q, perm'⟩)) role role := by
  have hpt := h.ok.owned.dir d _ pt hd hlink
  have hleaf : vm.tables.leaf pt (v % 1024) = some ⟨q, perm⟩ := by
    unfold Vm.page TwoLevel.get at hpage
    rwa [hlink, Option.bind_some] at hpage
  have hframe := h.ok.owned.frame pt d _ _ _ hpt (by omega) hleaf
  have hother : ∀ r w, role r = .dir → (r = d → w ≠ v) →
      (vm.setPte pt (v % 1024) (some ⟨q, perm'⟩)).page r w = vm.page r w :=
    fun r w hr hne => h.ok.page_setPte hpt hr hne _
  refine ⟨⟨⟨?_, h.ok.free, h.ok.nodup⟩, ?_⟩, .refl d role, ?_⟩
  · refine h.ok.owned.put hpt ?_
    rintro e ⟨⟩ _
    exact hframe
  · intro p d' v' hp
    obtain ⟨hd', hv', perm'', hpage'⟩ := h.tight p d' v' hp
    refine ⟨hd', hv', ?_⟩
    by_cases hsame : d' = d ∧ v' = v
    · obtain ⟨rfl, rfl⟩ := hsame
      rw [hpage] at hpage'
      cases hpage'
      exact ⟨perm', page_setPte_self hlink _⟩
    · refine ⟨perm'', ?_⟩
      rw [hother d' v' hd' (fun hdd hvv => hsame ⟨hdd, hvv⟩), hpage']
  · intro r hr hdir
    exact ⟨rfl, fun w => hother r w hdir (fun hrd => absurd hrd hr)⟩

structure StackSpace (L : Layout) (d mapped top : Nat) (vm₀ vm : Vm) (role₀ role : Nat → Role) :
    Prop where
  free : role₀ d = .free
  acts : Acts L d vm₀ vm (Function.update role₀ d .dir) role
  stacked : Stacked vm d
  size : ∃ k, top = (k + 2) * pgsize ∧ top < kernbase
  above : ∀ w < 2 ^ 19, mapped ≤ w → vm.page d w = none
  present : ∀ i, vm.present d i = true ↔ kernelTable i ∨ i * 1024 < mapped
  guard : ∀ e, vm.page d (pages top - 2) = some e → e.perm.u = false
  last : mapped = pages top → ∃ q, vm.page d (pages top - 1) = some ⟨q, true, true⟩
  kernel : ∀ w e, 2 ^ 19 ≤ w → vm.page d w = some e → e.perm.u = false
  whole : mapped = pages top ∨ mapped + 1 = pages top ∧ mapped % 1024 = 0

theorem StackSpace.discardable (h : StackSpace L d mapped top vm₀ vm role₀ role) :
    Discardable L d vm₀ vm role₀ role := ⟨h.free, h.acts, h.stacked⟩

theorem StackSpace.same (h : StackSpace L d mapped top vm₀ vm role₀ role) (hs : SameTables vm vm') :
    StackSpace L d mapped top vm₀ vm' role₀ role := by
  refine ⟨h.free, hs.acts h.acts, h.stacked.congr (hs.present d), h.size, ?_, ?_, ?_, ?_, ?_, h.whole⟩
  · intro w hw hle
    rw [hs.page, h.above w hw hle]
  · intro i
    rw [hs.present]
    exact h.present i
  · intro e he
    rw [hs.page] at he
    exact h.guard e he
  · rw [hs.page]
    exact h.last
  · intro w e hw he
    rw [hs.page] at he
    exact h.kernel w e hw he

theorem StackSpace.spans (h : StackSpace L d (pages top) top vm₀ vm role₀ role) : Spans vm d top := by
  refine ⟨h.stacked, .inr ((h.present _).mpr (.inr ?_)), h.above⟩
  obtain ⟨k, hk, _⟩ := h.size
  rw [hk, pages_mul]
  omega

theorem StackSpace.present_at {va : Nat} (h : StackSpace L d mapped top vm₀ vm role₀ role) :
    vm.present d (va / pgsize / 1024) = true ↔ tableAt mapped va := by
  rw [h.present, tableAt, Nat.div_div_eq_div_mul]
  rfl

theorem clearpteu_spec {k : Nat} (h : Space L d s vm₀ vm role₀ role)
    (hsz : s.sz = (k + 2) * pgsize) :
    ∃ vm', vm.clearpteu d (k * pgsize) = .ok vm' ∧
      StackSpace L d s.mapped s.sz vm₀ vm' role₀ role := by
  have hpages : pages s.sz = k + 2 := by rw [hsz, pages_mul]
  have hbound := pages_le h.small.le
  have hin : k < s.mapped := by
    rcases h.whole with hw | ⟨_, hw, _⟩
    · omega
    · omega
  have hpres : vm.present d (k / 1024) = true := (h.present _).mpr (.inr (by omega))
  obtain ⟨pt, hwalk, hlink, hleaf⟩ := walk_present (by omega) hpres
  obtain ⟨q, hq⟩ := h.mapped k hin
  have hacts := h.acts.exact.protect h.dir (by omega) hlink hq ⟨true, false⟩
  have hpt := h.acts.exact.ok.owned.dir d _ pt h.dir hlink
  have hother : ∀ w, w ≠ k →
      (vm.setPte pt (k % 1024) (some ⟨q, true, false⟩)).page d w = vm.page d w :=
    fun w hw => h.acts.exact.ok.page_setPte hpt h.dir (fun _ => hw) _
  refine ⟨vm.setPte pt (k % 1024) (some ⟨q, true, false⟩), ?_, h.free, h.acts.trans hacts,
    h.stacked, ⟨k, hsz, h.small⟩, ?_, h.present, ?_, ?_, ?_, h.whole.imp_right And.right⟩
  · rw [clearpteu, hwalk]
    simp only [← hleaf, hq, Option.map_some]
  · intro w hw hle
    rw [hother w (by omega), h.above w hw hle]
  · intro e he
    rw [hpages, Nat.add_sub_cancel, page_setPte_self hlink] at he
    cases he
    rfl
  · intro hw
    rw [hother _ (by omega)]
    exact h.mapped _ (by omega)
  · intro w e hw he
    rw [hother w (by omega)] at he
    exact h.kernel w e hw he

structure Stacks (L : Layout) (d : Nat) (s : Loading) (vm₀ vm : Vm) (role₀ role₁ role : Nat → Role)
    (r : Option Loading) : Prop where
  loses : Loses role₀ role₁
  kept : ∀ argv, StackFits Loading.Keeps argv s → role₁ = role₀
  gaveUp : r = none → Discardable L d vm₀ vm role₁ role
  space : ∀ s', r = some s' → StackSpace L d s'.mapped s'.sz vm₀ vm role₁ role
  fits : ∀ argv, StackFits Loading.Any argv s ↔ ∀ s' ∈ r, ArgsFit s'.mapped s'.sz argv 0 s'.sz

theorem makeStack_spec (h : Space L d s vm₀ vm role₀ role) (hf : Fresh d vm₀ role₀) :
    ∃ vm' role₁ role' r, vm.makeStack L d s.sz = .ok (vm', r.map Loading.sz) ∧
      Stacks L d s vm₀ vm' role₀ role₁ role' r := by
  have hround : pgroundup s.sz = pages s.sz * pgsize := pgroundup_eq h.small.le
  have hbound := pages_le h.small.le
  have htop : uint (pages s.sz * pgsize + 2 * pgsize) = (pages s.sz + 2) * pgsize := by
    simp only [uint, pgsize]
    omega
  unfold makeStack
  dsimp only
  rw [hround, htop]
  by_cases hbig : kernbase ≤ (pages s.sz + 2) * pgsize
  · have halloc : vm.allocuvm L d (pages s.sz * pgsize) ((pages s.sz + 2) * pgsize) =
        .ok (vm, 0) := by
      rw [allocuvm, if_pos hbig]
      rfl
    rw [lift_ok halloc]
    exact ⟨vm, role₀, role, none, rfl, .refl role₀, fun _ _ => rfl, fun _ => h.discardable, by simp,
      fun argv => iff_of_true (.inl hbig) (by simp)⟩
  have hle : pages s.sz * pgsize ≤ (pages s.sz + 2) * pgsize := Nat.mul_le_mul_right _ (by omega)
  have hspace := h.round (by omega)
  obtain ⟨vm₁, role₁, role', halloc, hbuilt⟩ := hspace.alloc hf
    (show (pages s.sz + 2) * pgsize < kernbase by omega)
  have hkept : ∀ argv, StackFits Loading.Keeps argv s → role₁ = role₀ :=
    fun argv hc => hbuilt.kept (hc.resolve_left hbig).1
  rw [lift_ok halloc]
  generalize hgrow : Loading.grow { s with sz := pages s.sz * pgsize } ((pages s.sz + 2) * pgsize) = r
    at hbuilt ⊢
  have hfits : ∀ argv, StackFits Loading.Any argv s ↔ ∀ s' ∈ r,
      ArgsFit s'.mapped ((pages s.sz + 2) * pgsize) argv 0 ((pages s.sz + 2) * pgsize) := by
    intro argv
    rw [StackFits, hgrow]
    exact ⟨fun hc => (hc.resolve_left hbig).2, fun hc => .inr ⟨trivial, hc⟩⟩
  cases r with
  | none =>
    exact ⟨vm₁, role₁, role', none, rfl, hbuilt.loses, hkept, hbuilt.gaveUp, by simp,
      fun argv => (hfits argv).trans (by simp)⟩
  | some s' =>
    have hsz := Loading.grow_sz hle hgrow
    have hne : (pages s.sz + 2) * pgsize ≠ 0 := by
      simp only [pgsize]
      omega
    have hguard : uint ((pages s.sz + 2) * pgsize + (2 ^ 32 - 2 * pgsize)) =
        pages s.sz * pgsize := by
      simp only [uint, pgsize]
      omega
    obtain ⟨vm₂, hclear, hstack⟩ := clearpteu_spec (hbuilt.space s' rfl) hsz
    refine ⟨vm₂, role₁, role', some s', ?_, hbuilt.loses, hkept, by simp, ?_, ?_⟩
    · simp only [Option.elim_some, hsz, if_neg hne, hguard]
      rw [bind_ok hclear, Option.map_some, hsz]
    · rintro s'' ⟨⟩
      exact hstack
    · intro argv
      rw [hfits]
      simp only [Option.mem_some_iff, forall_eq', hsz]

theorem copyoutLoop_user (h : StackSpace L d mapped top vm₀ vm role₀ role) (fuel : Nat) :
    ∀ {vm' : Vm} {va : Nat} {bs : List UInt8}, SameTables vm vm' → bs.length ≤ fuel →
    va + bs.length ≤ top → (mapped = pages top ∨ va < top - pgsize) →
    ∃ vm'' copied, copyoutLoop d fuel vm' va bs = .ok (vm'', copied) ∧ SameTables vm vm'' ∧
      (copied = true → bs ≠ [] → top - pgsize ≤ va ∨ va + bs.length ≤ top - 2 * pgsize) ∧
      (top - pgsize ≤ va → copied = true) := by
  obtain ⟨k, hk, hlt⟩ := h.size
  have hpages : pages top = k + 2 := by rw [hk, pages_mul]
  have hk' : k + 2 < 2 ^ 19 := by
    simp only [pgsize, kernbase] at hk hlt
    omega
  induction fuel with
  | zero =>
    intro vm' va bs hs hlen _ _
    exact ⟨vm', true, rfl, hs, fun _ hne => absurd (List.length_eq_zero_iff.mp (by omega)) hne,
      fun _ => rfl⟩
  | succ fuel ih =>
    intro vm' va bs hs hlen hva hlow
    cases bs with
    | nil => exact ⟨vm', true, rfl, hs, fun _ hne => absurd rfl hne, fun _ => rfl⟩
    | cons b bs =>
      have hround : pgrounddown va = va / pgsize * pgsize := rfl
      have hpage : va / pgsize < k + 2 := by
        rw [List.length_cons] at hva
        simp only [pgsize] at *
        omega
      have hin : va / pgsize < mapped := by
        rcases hlow with hw | hlow
        · omega
        · have hw := h.whole
          simp only [pgsize] at *
          omega
      have hpres : vm'.present d (va / pgsize / 1024) = true := by
        rw [hs.present]
        exact (h.present _).mpr (.inr (by omega))
      obtain ⟨pt, hwalk, _, hleaf⟩ := walk_present (by omega) hpres
      rw [copyoutLoop]
      simp only [hround, hwalk]
      split
      · rename_i page w he
        generalize hn : min (pgsize - (va - va / pgsize * pgsize)) (b :: bs).length = n
        have hn' : 0 < n ∧ n ≤ (b :: bs).length ∧
            (n = (b :: bs).length ∨ va + n = (va / pgsize + 1) * pgsize) := by
          subst hn
          rw [List.length_cons]
          simp only [pgsize]
          omega
        have hnext : uint (va / pgsize * pgsize + pgsize) = (va / pgsize + 1) * pgsize := by
          simp only [uint, pgsize] at hpage ⊢
          omega
        have hguard : va / pgsize ≠ k := by
          rintro hvk
          have hu := h.guard ⟨page, w, true⟩ (by
            rw [hpages, Nat.add_sub_cancel, ← hs.page, ← hvk, hleaf, he])
          cases hu
        rw [hnext]
        have hdrop : ((b :: bs).drop n).length = (b :: bs).length - n := List.length_drop
        have hrest : (va / pgsize + 1) * pgsize + ((b :: bs).drop n).length ≤ top := by
          rw [hdrop]
          rcases hn'.2.2 with hall | hmore
          · have hle := Nat.mul_le_mul_right pgsize (show va / pgsize + 1 ≤ k + 2 from hpage)
            rw [← hk] at hle
            omega
          · omega
        have hlow' : mapped = pages top ∨ (va / pgsize + 1) * pgsize < top - pgsize := by
          refine hlow.imp_right fun hlow => ?_
          simp only [pgsize] at *
          omega
        obtain ⟨vm'', copied, hloop, hs', hres, htop⟩ := ih
          (hs.trans (store_same vm' page (va - va / pgsize * pgsize) ((b :: bs).take n)))
          (by omega) hrest hlow'
        refine ⟨vm'', copied, hloop, hs', fun hc _ => ?_, fun hin => htop (by
          simp only [pgsize] at *
          omega)⟩
        rcases hn'.2.2 with hall | hmore
        · simp only [pgsize] at *
          omega
        · by_cases hnil : (b :: bs).drop n = []
          · rw [hnil, List.length_nil] at hdrop
            simp only [pgsize] at *
            omega
          · have := hres hc hnil
            simp only [pgsize] at *
            omega
      · rename_i hno
        refine ⟨vm', false, rfl, hs, by simp, fun hin => ?_⟩
        have hlast : va / pgsize = pages top - 1 := by
          simp only [pgsize] at *
          omega
        obtain ⟨q, hq⟩ := h.last (hlow.resolve_right (by omega))
        rw [← hlast, ← hs.page, hleaf] at hq
        exact absurd hq (hno q true)

theorem copyoutLoop_kernel (h : StackSpace L d mapped top vm₀ vm role₀ role) (hs : SameTables vm vm')
    {va fuel : Nat} {b : UInt8} {bs : List UInt8} (hlow : kernbase ≤ va) (hhigh : va < 2 ^ 32)
    (htab : tableAt mapped va) : copyoutLoop d (fuel + 1) vm' va (b :: bs) = .ok (vm', false) := by
  have hround : pgrounddown va = va / pgsize * pgsize := rfl
  have hpage : 2 ^ 19 ≤ va / pgsize ∧ va / pgsize < 2 ^ 20 := by
    simp only [pgsize, kernbase] at *
    omega
  have hpres : vm'.present d (va / pgsize / 1024) = true := by
    rw [hs.present]
    exact h.present_at.mpr htab
  obtain ⟨pt, hwalk, _, hleaf⟩ := walk_present hpage.2 hpres
  rw [copyoutLoop]
  simp only [hround, hwalk]
  split
  · rename_i page w he
    have hu := h.kernel (va / pgsize) ⟨page, w, true⟩ hpage.1 (by rw [← hs.page, hleaf, he])
    cases hu
  · rfl

theorem copyoutLoop_missing (h : StackSpace L d mapped top vm₀ vm role₀ role)
    (hs : SameTables vm vm') {va fuel : Nat} {b : UInt8} {bs : List UInt8} (hhigh : va < 2 ^ 32)
    (htab : ¬ tableAt mapped va) : copyoutLoop d (fuel + 1) vm' va (b :: bs) = .error .nullPte := by
  have hround : pgrounddown va = va / pgsize * pgsize := rfl
  have hpage : va / pgsize < 2 ^ 20 := by
    simp only [pgsize]
    omega
  have hpres : vm'.present d (va / pgsize / 1024) = false := by
    rw [hs.present, ← Bool.not_eq_true, h.present_at]
    exact htab
  rw [copyoutLoop]
  simp only [hround, walk_absent hpage hpres]

theorem StackSpace.tableAt_top {va : Nat} (h : StackSpace L d mapped top vm₀ vm role₀ role)
    (hlow : top - pgsize ≤ va) (hhigh : va < top) : tableAt mapped va ↔ mapped = pages top := by
  obtain ⟨k, hk, hlt⟩ := h.size
  have hpages : pages top = k + 2 := by rw [hk, pages_mul]
  have hw := h.whole
  unfold tableAt kernelTable
  simp only [pgsize, kernbase] at *
  omega

inductive Pushes (mapped top : Nat) (argv : List (List UInt8)) (argc sp : Nat) (vm : Vm) :
    Except ExecFault (Vm × Option (List Nat × Nat)) → Prop
  | fault {e : ExecFault} (hfit : ¬ ArgsFit mapped top argv argc sp) :
      Pushes mapped top argv argc sp vm (.error e)
  | bad {vm' : Vm} (hsame : SameTables vm vm') (hfit : ArgsFit mapped top argv argc sp) :
      Pushes mapped top argv argc sp vm (.ok (vm', none))
  | done {vm' : Vm} {args : List Nat} {sp' : Nat} (hsame : SameTables vm vm')
      (hfit : ArgsFit mapped top argv argc sp ↔ mapped = pages top) (hmax : args.length ≤ maxarg)
      (hlow : top - pgsize ≤ sp') (hhigh : sp' ≤ top)
      (hempty : mapped = pages top ∨ args = [] ∧ sp' = top) :
      Pushes mapped top argv argc sp vm (.ok (vm', some (args, sp')))

theorem pushArgs_spec (h : StackSpace L d mapped top vm₀ vm role₀ role) (argv : List (List UInt8)) :
    ∀ {vm' : Vm} {ustack : List Nat} {sp : Nat}, SameTables vm vm' →
    (∀ arg ∈ argv, arg.length < kernbase) → ustack.length ≤ maxarg → top - pgsize ≤ sp →
    sp ≤ top → (mapped = pages top ∨ ustack = [] ∧ sp = top) →
    Pushes mapped top argv ustack.length sp vm (pushArgs d argv vm' ustack sp) := by
  obtain ⟨k, hk, hlt⟩ := h.size
  induction argv with
  | nil =>
    intro vm' ustack sp hs _ hmax hlow hhigh hempty
    exact .done hs Iff.rfl hmax hlow hhigh hempty
  | cons arg argv ih =>
    intro vm' ustack sp hs hargs hmax hlow hhigh hempty
    rw [pushArgs]
    by_cases hfull : maxarg ≤ ustack.length
    · rw [if_pos hfull]
      exact .bad hs (.inl hfull)
    rw [if_neg hfull]
    have hunfold : ArgsFit mapped top (arg :: argv) ustack.length sp ↔
        tableAt mapped (pushString sp arg.length) ∧ (top - pgsize ≤ pushString sp arg.length →
          pushString sp arg.length < top →
            ArgsFit mapped top argv (ustack.length + 1) (pushString sp arg.length)) := by
      rw [ArgsFit, or_iff_right hfull]
    have hlen := hargs arg List.mem_cons_self
    generalize hsp : pushString sp arg.length = sp' at hunfold ⊢
    have hbytes : (arg ++ [0]).length = arg.length + 1 := List.length_append
    obtain ⟨b, bs, hcons⟩ : ∃ b bs, arg ++ [0] = b :: bs := List.exists_cons_of_ne_nil (by simp)
    dsimp only [copyout]
    rw [hbytes]
    by_cases htab : tableAt mapped sp'
    swap
    · have hsp' : sp' < 2 ^ 32 := by
        subst hsp
        simp only [pushString, uint]
        omega
      rw [hcons, bind_error (copyoutLoop_missing h hs hsp' htab)]
      exact .fault fun hc => htab (hunfold.mp hc).1
    by_cases hwrap : arg.length + 1 ≤ sp
    · have hsp' : sp' + (arg.length + 1) ≤ sp ∧ sp ≤ sp' + (arg.length + 1) + 3 := by
        subst hsp
        simp only [pushString, uint, pgsize, kernbase] at *
        omega
      have hbelow : mapped = pages top ∨ sp' < top - pgsize := by
        by_cases hin : top - pgsize ≤ sp'
        · exact .inl ((h.tableAt_top hin (by omega)).mp htab)
        · exact .inr (by omega)
      obtain ⟨vm₁, copied, hcopy, hs₁, hres, htop⟩ := copyoutLoop_user h (arg.length + 1) hs
        (show (arg ++ [0]).length ≤ arg.length + 1 by omega)
        (show sp' + (arg ++ [0]).length ≤ top by omega) hbelow
      rw [bind_ok hcopy]
      have hin : copied = true → top - pgsize ≤ sp' := by
        intro hc
        refine (hres hc (by simp)).resolve_right ?_
        rw [hbytes]
        simp only [pgsize] at *
        omega
      cases copied with
      | false =>
        exact .bad hs₁ (hunfold.mpr ⟨htab, fun hin' _ => absurd (htop hin') Bool.false_ne_true⟩)
      | true =>
        have hwhole := (h.tableAt_top (hin rfl) (by omega)).mp htab
        have hlen' : (ustack ++ [sp']).length = ustack.length + 1 := List.length_append
        have hnext := ih hs₁ (fun a ha => hargs a (List.mem_cons_of_mem _ ha))
          (show (ustack ++ [sp']).length ≤ maxarg by omega) (hin rfl) (by omega) (.inl hwhole)
        rw [hlen'] at hnext
        have hiff : ArgsFit mapped top (arg :: argv) ustack.length sp ↔
            ArgsFit mapped top argv (ustack.length + 1) sp' :=
          hunfold.trans ⟨fun hc => hc.2 (hin rfl) (by omega), fun hc => ⟨htab, fun _ _ => hc⟩⟩
        simp only [if_true]
        generalize pushArgs d argv vm₁ (ustack ++ [sp']) sp' = r at hnext ⊢
        cases hnext with
        | fault hno => exact .fault fun hc => hno (hiff.mp hc)
        | bad hsame hfit => exact .bad hsame (hiff.mpr hfit)
        | done hsame hfit hmax' hlow' hhigh' hempty' =>
          exact .done hsame (hiff.trans hfit) hmax' hlow' hhigh' hempty'
    · have hkernel : kernbase ≤ sp' ∧ sp' < 2 ^ 32 := by
        subst hsp
        simp only [pushString, uint, pgsize, kernbase] at *
        omega
      rw [hcons, bind_ok (copyoutLoop_kernel h hs hkernel.1 hkernel.2 htab)]
      exact .bad hs (hunfold.mpr ⟨htab, fun _ hc => by omega⟩)

theorem flatMap_wordBytes (l : List Nat) : (l.flatMap wordBytes).length = 4 * l.length := by
  induction l with
  | nil => rfl
  | cons x l ih =>
    rw [List.flatMap_cons, List.length_append, ih, List.length_cons]
    change 4 + 4 * l.length = _
    omega

theorem pushFrame_spec (h : StackSpace L d mapped top vm₀ vm role₀ role) (hs : SameTables vm vm')
    {args : List Nat} {sp : Nat} (hmax : args.length ≤ maxarg) (hlow : top - pgsize ≤ sp)
    (hhigh : sp ≤ top) (hempty : mapped = pages top ∨ args = [] ∧ sp = top) :
    mapped ≠ pages top ∧ vm'.pushFrame d args sp = .error .nullPte ∨
      mapped = pages top ∧ ∃ vm'' r, vm'.pushFrame d args sp = .ok (vm'', r) ∧
        SameTables vm vm'' := by
  obtain ⟨k, hk, hlt⟩ := h.size
  have hsp : uint (sp + (2 ^ 32 - (3 + args.length + 1) * 4)) = sp - (4 + args.length) * 4 ∧
      (4 + args.length) * 4 ≤ sp := by
    simp only [uint, pgsize, kernbase, maxarg] at *
    omega
  unfold pushFrame
  dsimp only [copyout]
  rw [hsp.1]
  generalize hbytes : ([0xffffffff, args.length, uint (sp + (2 ^ 32 - (args.length + 1) * 4))] ++
    args ++ [0]).flatMap wordBytes = bs
  have hlen : bs.length = (4 + args.length) * 4 := by
    rw [← hbytes, flatMap_wordBytes]
    simp only [List.length_append, List.length_cons, List.length_nil]
    omega
  by_cases hwhole : mapped = pages top
  · obtain ⟨vm₁, copied, hcopy, hs₁, _⟩ := copyoutLoop_user h bs.length hs le_rfl
      (show sp - (4 + args.length) * 4 + bs.length ≤ top by omega) (.inl hwhole)
    rw [bind_ok hcopy]
    exact .inr ⟨hwhole, vm₁, _, rfl, hs₁⟩
  · obtain ⟨rfl, rfl⟩ := hempty.resolve_left hwhole
    have htab : ¬ tableAt mapped (sp - (4 + 0) * 4) := by
      rw [h.tableAt_top (by simp only [pgsize]; omega) (by omega)]
      exact hwhole
    obtain ⟨b, bs', rfl⟩ : ∃ b bs', bs = b :: bs' := by
      refine List.exists_cons_of_ne_nil ?_
      rintro rfl
      simp at hlen
    rw [List.length_cons, List.length_nil,
      bind_error (copyoutLoop_missing h hs (by simp only [kernbase] at hlt; omega) htab)]
    exact .inl ⟨hwhole, rfl⟩

inductive Builds (L : Layout) (d : Nat) (file : List UInt8) (elf : Elfhdr)
    (argv : List (List UInt8)) (s : Loading) (vm₀ : Vm) (role₀ : Nat → Role) :
    Except ExecFault (Vm × List Store × Option (Nat × Nat)) → Prop
  | fault {e : ExecFault}
      (hfit : ¬ SegmentsFit file Loading.Any (StackFits Loading.Any argv) elf.phnum elf.phoff s) :
      Builds L d file elf argv s vm₀ role₀ (.error e)
  | bad {vm : Vm} {role₁ role : Nat → Role} {stores : List Store}
      (hst : ∀ st ∈ stores, StoreOk vm₀ st) (hloses : Loses role₀ role₁)
      (hkept : SegmentsFit file Loading.Keeps (StackFits Loading.Keeps argv) elf.phnum elf.phoff s →
        role₁ = role₀)
      (hfit : SegmentsFit file Loading.Any (StackFits Loading.Any argv) elf.phnum elf.phoff s)
      (h : Discardable L d vm₀ vm role₁ role) :
      Builds L d file elf argv s vm₀ role₀ (.ok (vm, stores, none))
  | done {vm : Vm} {role₁ role : Nat → Role} {stores : List Store} {sz sp : Nat}
      (hst : ∀ st ∈ stores, StoreOk vm₀ st) (hloses : Loses role₀ role₁)
      (hkept : SegmentsFit file Loading.Keeps (StackFits Loading.Keeps argv) elf.phnum elf.phoff s →
        role₁ = role₀)
      (hfit : SegmentsFit file Loading.Any (StackFits Loading.Any argv) elf.phnum elf.phoff s)
      (h : StackSpace L d (pages sz) sz vm₀ vm role₁ role) :
      Builds L d file elf argv s vm₀ role₀ (.ok (vm, stores, some (sz, sp)))

theorem buildImage_spec {file : List UInt8} {elf : Elfhdr} {argv : List (List UInt8)}
    (hfile : file.length < 2 ^ 32) (hargs : ∀ arg ∈ argv, arg.length < kernbase)
    (hf : Fresh d vm₀ role₀) (h : Space L d s vm₀ vm role₀ role) (hs : s.sz = 0) :
    Builds L d file elf argv s vm₀ role₀ (vm.buildImage L d file elf argv) := by
  have hload : LoadsAll L d file elf.phnum elf.phoff s vm₀ role₀
      (loadSegments L d file elf.phnum vm [] elf.phoff 0) :=
    hs ▸ loadSegments_spec hfile elf.phnum [] hf h (by simp)
  unfold buildImage
  generalize loadSegments L d file elf.phnum vm [] elf.phoff 0 = r at hload ⊢
  cases hload with
  | fault hno => exact .fault (hno _)
  | done hst hb hiff =>
    rename_i vm₁ role₁ role' stores final
    rw [bind_ok rfl]
    have hweak : ∀ {argv}, SegmentsFit file Loading.Keeps (StackFits Loading.Keeps argv) elf.phnum
        elf.phoff s → SegmentsFit file Loading.Keeps (fun _ => True) elf.phnum elf.phoff s :=
      fun hk => hk.mono (fun _ _ hg => hg) fun _ _ => trivial
    cases final with
    | none =>
      exact .bad hst hb.loses (fun hk => hb.kept (hweak hk)) ((hiff _).mpr (by simp)) (hb.gaveUp rfl)
    | some s₁ =>
      have hspace := hb.space s₁ rfl
      have hfits : ∀ rest, SegmentsFit file Loading.Any rest elf.phnum elf.phoff s ↔ rest s₁ :=
        fun rest => (hiff rest).trans (by simp)
      have hlast : SegmentsFit file Loading.Keeps (StackFits Loading.Keeps argv) elf.phnum elf.phoff
          s → StackFits Loading.Keeps argv s₁ :=
        fun hk => (hfits _).mp (hk.mono (fun _ _ _ => trivial) fun _ hr => hr)
      obtain ⟨vm₂, role₂, role₂', r₂, hmake, hstack⟩ := makeStack_spec hspace (hf.loses hb.loses)
      have hloses := hb.loses.trans hstack.loses
      have hkept : SegmentsFit file Loading.Keeps (StackFits Loading.Keeps argv) elf.phnum elf.phoff
          s → role₂ = role₀ := fun hk => by
        rw [hstack.kept argv (hlast hk), hb.kept (hweak hk)]
      simp only [Option.map_some]
      rw [bind_ok hmake]
      cases r₂ with
      | none =>
        exact .bad hst hloses hkept ((hfits _).mpr ((hstack.fits argv).mpr (by simp)))
          (hstack.gaveUp rfl)
      | some s₂ =>
        have hss := hstack.space s₂ rfl
        have hfit : SegmentsFit file Loading.Any (StackFits Loading.Any argv) elf.phnum elf.phoff s ↔
            ArgsFit s₂.mapped s₂.sz argv 0 s₂.sz :=
          (hfits _).trans ((hstack.fits argv).trans (by simp))
        have hpush : Pushes s₂.mapped s₂.sz argv 0 s₂.sz vm₂ (pushArgs d argv vm₂ [] s₂.sz) :=
          pushArgs_spec hss argv (.refl vm₂) hargs (Nat.zero_le _) (Nat.sub_le _ _) le_rfl
            (.inr ⟨rfl, rfl⟩)
        simp only [Option.map_some]
        generalize pushArgs d argv vm₂ [] s₂.sz = r₃ at hpush ⊢
        cases hpush with
        | fault hno => exact .fault fun hc => hno (hfit.mp hc)
        | bad hsame hargs' =>
          rw [bind_ok rfl]
          exact .bad hst hloses hkept (hfit.mpr hargs') (hss.same hsame).discardable
        | done hsame hargs' hmax hlow hhigh hempty =>
          rw [bind_ok rfl]
          dsimp only
          rcases pushFrame_spec hss hsame hmax hlow hhigh hempty with ⟨hno, hframe⟩ |
            ⟨hwhole, vm₄, r₄, hframe, hsame'⟩
          · rw [bind_error hframe]
            exact .fault fun hc => hno (hargs'.mp (hfit.mp hc))
          · rw [bind_ok hframe]
            have hok := hfit.mpr (hargs'.mpr hwhole)
            have hdone := hss.same hsame'
            cases r₄ with
            | none => exact .bad hst hloses hkept hok hdone.discardable
            | some sp =>
              rw [hwhole] at hdone
              exact .done hst hloses hkept hok hdone

end Vm
end Xv6
