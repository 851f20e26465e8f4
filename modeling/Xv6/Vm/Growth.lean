import Xv6.Vm.Delivers

namespace Xv6
namespace Vm

variable {L : Layout} {vm vm' : Vm} {role role' : Nat → Role} {d sz newsz w : Nat} {n : Int}

def Kept (d k : Nat) (vm vm' : Vm) : Prop :=
  ∀ w < k, vm'.page d w = vm.page d w ∧
    ∀ e, vm.page d w = some e → vm'.data e.page = vm.data e.page

-- No result is the return value -1; otherwise the result is what `proc->sz` becomes.
structure Grows (d sz : Nat) (n : Int) (vm vm' : Vm) (r : Option Nat) : Prop where
  size : ∀ sz', r = some sz' → (sz' : Int) = sz + n
  mapped : ∀ sz', r = some sz' → Mapped vm' d (pages sz')
  kept : ∀ sz', r = some sz' → Kept d (min (pages sz) (pages sz')) vm vm'
  same : r = none → ∀ w < 2 ^ 19, vm'.page d w = vm.page d w

def GrowprocExact (L : Layout) (d sz : Nat) (n : Int) (vm : Vm) : Prop :=
  ∃ vm' r, vm.growproc L d sz n = .ok (vm', r) ∧ Grows d sz n vm vm' r

-- Not the case: the last page needs a page table and takes the last free page itself, or the
-- break is moved to 0 or below.
structure GrowthSafe (vm : Vm) (d sz : Nat) (n : Int) : Prop where
  grow : 0 < n → sz + n < kernbase →
    TablesFit (vm.present d) (pages sz) (pages (sz + n).toNat - pages sz) vm.freelist.length ∨
      vm.freelist.length + 1 ≠ demand (vm.present d) (pages sz) (pages (sz + n).toNat - pages sz)
  shrink : n < 0 → sz = 0 ∨ 0 < sz + n

theorem Grows.error (h : ∀ w < 2 ^ 19, vm'.page d w = vm.page d w) : Grows d sz n vm vm' none :=
  ⟨fun _ => nofun, fun _ => nofun, fun _ => nofun, fun _ => h⟩

theorem Grows.ok (hsize : (newsz : Int) = sz + n) (hmapped : Mapped vm' d (pages newsz))
    (hkept : Kept d (min (pages sz) (pages newsz)) vm vm') :
    Grows d sz n vm vm' (some newsz) := by
  refine ⟨?_, ?_, ?_, nofun⟩ <;> rintro _ ⟨⟩ <;> assumption

theorem Ok.lt_kernbase (h : Ok L vm role) (hd : role d = .dir)
    (hpage : ∀ w < pages sz, w < 2 ^ 19 → (vm.page d w).isSome) : sz < kernbase := by
  by_contra hge
  have hpages : 57345 ≤ pages sz := by
    simp only [pages, pgsize, kernbase] at *
    omega
  have hsome : ∀ w : Fin 57345, ∃ e, vm.page d w = some e := fun w =>
    Option.isSome_iff_exists.mp (hpage w (by omega) (by omega))
  choose f hf using hsome
  have hlt : ∀ w : Fin 57345, (f w).page < 57344 := fun w => by
    refine (h.owned.valid (f w).page ?_).2
    rw [h.role_page hd (by omega) (hf w)]
    simp
  obtain ⟨w, w', hne, heq⟩ := Fintype.exists_ne_map_eq_of_card_lt
    (fun w => (⟨(f w).page, hlt w⟩ : Fin 57344)) (by simp)
  exact hne (Fin.ext (h.page_inj hd hd (by omega) (by omega) (hf w) (hf w')
    (congrArg Fin.val heq)).2)

theorem Mapped.lt_kernbase (h : Ok L vm role) (hd : role d = .dir) (hm : Mapped vm d (pages sz)) :
    sz < kernbase := h.lt_kernbase hd fun w hlt hw => (hm w hw).mpr hlt

theorem Mapped.not_skips {v k : Nat} (hm : Mapped vm d k) (hvw : v ≤ w) (hw : w < 2 ^ 19)
    (hsome : (vm.page d w).isSome) : ¬ Skips (vm.present d) v w := by
  have hk := (hm w hw).mp hsome
  exact Vm.not_skips (present_of_page ((hm v (by omega)).mpr (by omega)))

theorem deallocuvm_shrinks (h : Exact L vm role) (hd : role d = .dir)
    (hm : Mapped vm d (pages sz)) (hlt : newsz < sz) :
    ∃ vm', vm.deallocuvm L d sz newsz = .ok (vm', newsz) ∧ Mapped vm' d (pages newsz) ∧
      Kept d (min (pages sz) (pages newsz)) vm vm' := by
  have hsz := hm.lt_kernbase h.ok hd
  have hbound := pages_le hsz.le
  have hpages := pages_mono hlt.le
  obtain ⟨vm', role', hcall, hc⟩ := deallocuvm_clears sz newsz h hd hsz.le hlt
  have hu := hc.unmaps fun w hw hvw _ => hm.not_skips hvw hw
  refine ⟨vm', hcall, fun w hw => ?_, fun w hw => ?_⟩
  · rw [hu.page w hw]
    split
    · simp
      omega
    · rw [hm w hw]
      omega
  · have hsame := hc.kept w (.inl (by omega))
    refine ⟨hsame, fun e he => (deallocuvm_releases hcall).data _ ?_⟩
    rw [← hsame] at he
    exact hc.acts.exact.ok.page_not_free (hc.acts.dir hd) (by omega) he

theorem Fills.grows {bytes : Nat → Nat → UInt8} (h : Exact L vm role) (hd : role d = .dir)
    (hm : Mapped vm d (pages sz)) (hle : sz ≤ newsz) (hnew : newsz < kernbase)
    (hf : Fills L d (pages sz) (pages newsz - pages sz) bytes vm vm' role role') :
    Mapped vm' d (pages newsz) ∧ Kept d (min (pages sz) (pages newsz)) vm vm' := by
  have hpages := pages_mono hle
  have hbound := pages_le hnew.le
  refine ⟨fun w hw => ?_, fun w hw => ⟨hf.outside w (by omega), fun e he => ?_⟩⟩
  · rcases Nat.lt_or_ge w (pages sz) with hlt | hge
    · rw [hf.outside w (by omega), hm w hw]
      omega
    · rcases Nat.lt_or_ge w (pages newsz) with hlt | hge'
      · obtain ⟨q, _, hpage, _⟩ := hf.inside w hge (by omega)
        rw [hpage]
        exact iff_of_true rfl hlt
      · rw [hf.outside w (by omega), hm w hw]
        omega
  · exact hf.allocates.data e.page (h.ok.page_not_free hd (by omega) he)

theorem Starves.same {m p : Nat} {vm₁ vm₂ : Vm} {role₁ : Nat → Role} (hd : role d = .dir)
    (hm : Mapped vm d (pages sz)) (hlen : m < pages newsz - pages sz)
    (h : Starves L d (pages sz) m p vm vm₁ vm₂ role role₁)
    (hc : Clears L d (pages sz) (pages newsz) vm₂ vm' (Function.update role₁ p .held) role')
    (hw : w < 2 ^ 19) : vm'.page d w = vm.page d w := by
  have hd₁ := h.mapped.acts.dir hd
  have hout : ¬ (pages sz ≤ w ∧ w < pages sz + m) → vm₂.page d w = vm.page d w := fun hw => by
    rw [h.took.page d hd₁, h.mapped.outside w hw]
  rcases Nat.lt_or_ge w (pages sz) with hlt | hge
  · rw [hc.kept w (.inl hlt), hout (by omega)]
  · have hnone := hm.none hw hge
    by_cases hskip : pages newsz ≤ w ∨ Skips (vm₂.present d) (pages sz) w
    · -- Once a page has been mapped its table is there, and the loop starts in it.
      have hm₀ : ¬ (pages sz ≤ w ∧ w < pages sz + m) := by
        intro hin
        refine hskip.elim (by omega) (Vm.not_skips ?_)
        rw [h.took.present d hd₁, h.mapped.present]
        exact .inr ⟨pages sz, le_rfl, by omega, rfl⟩
      rw [hc.kept w (.inr hskip), hout hm₀]
    · rw [not_or] at hskip
      rw [hc.gone w hge (by omega) hskip.2, hnone]

theorem addInt_nonneg (h : 0 ≤ sz + n) (hlt : sz + n < 2 ^ 32) : addInt sz n = (sz + n).toNat := by
  rw [addInt, Int.emod_eq_of_lt h hlt]

theorem addInt_neg (h : sz + n < 0) (hlt : -2 ^ 31 ≤ n) : sz + 2 ^ 31 ≤ addInt sz n := by
  rw [addInt]
  omega

theorem growproc_grow (h : Exact L vm role) (hd : role d = .dir) (hm : Mapped vm d (pages sz))
    (hpos : 0 < n) (hlt : n < 2 ^ 31) : GrowprocExact L d sz n vm ↔ GrowthSafe vm d sz n := by
  have hsz := hm.lt_kernbase h.ok hd
  have hadd : addInt sz n = (sz + n).toNat := addInt_nonneg (by omega) (by simp at hsz; omega)
  unfold GrowprocExact growproc
  rw [if_pos hpos, hadd]
  generalize hnewsz : (sz + n).toNat = newsz
  have hsize : (newsz : Int) = sz + n := by omega
  rcases Nat.lt_or_ge newsz kernbase with hnew | hbig
  · have hnone : ∀ w < 2 ^ 19, pages sz ≤ w → vm.page d w = none := fun w hw => hm.none hw
    have hsafe : GrowthSafe vm d sz n ↔
        TablesFit (vm.present d) (pages sz) (pages newsz - pages sz) vm.freelist.length ∨
          vm.freelist.length + 1 ≠ demand (vm.present d) (pages sz) (pages newsz - pages sz) := by
      refine ⟨fun hs => ?_, fun hs => ⟨fun _ _ => ?_, fun hneg => by omega⟩⟩
      · have hgrow := hs.grow hpos (by omega)
        rwa [hnewsz] at hgrow
      · rwa [hnewsz]
    rw [hsafe]
    by_cases hfit : TablesFit (vm.present d) (pages sz) (pages newsz - pages sz) vm.freelist.length
    · refine iff_of_true ?_ (.inl hfit)
      obtain ⟨vm', role', r, hcall, hres⟩ := allocuvm_fills h hd hnone hnew (by omega) hfit
      refine ⟨vm', if r = 0 then none else some r, by rw [hcall]; exact report_eq vm' r, ?_⟩
      rcases hres with ⟨rfl, hfill⟩ | ⟨rfl, hundo, _⟩
      · obtain ⟨hmapped, hkept⟩ := hfill.grows h hd hm (by omega) hnew
        rw [if_neg (by omega)]
        exact .ok hsize hmapped hkept
      · exact .error fun w _ => (hundo.restores h hd hnew hnone).same w
    · obtain ⟨m, p, vm₁, vm₂, role₁, hs, hlen, hres⟩ :=
        allocuvm_starves h hd hnone hnew (by omega) hfit
      rw [or_iff_right hfit]
      rcases hres with ⟨hlast, hdem, hcall⟩ | ⟨hdem, vm', role', hcall, _, hc⟩
      · refine iff_of_false ?_ (not_not.mpr hdem)
        rintro ⟨vm', r, hrun, hg⟩
        rw [hcall, report_eq, if_neg (by omega)] at hrun
        cases hrun
        -- The last page is below the new size, and its page table is missing.
        have hsome := (hg.mapped newsz rfl (pages newsz - 1)
          (by have := pages_le hnew.le; omega)).mpr (by omega)
        have habs := hs.absent
        rw [show pages sz + m = pages newsz - 1 by omega] at habs
        rw [hs.took.page d (hs.mapped.acts.dir hd), page_of_absent habs] at hsome
        cases hsome
      · refine iff_of_true ⟨vm', none, by rw [hcall]; exact report_eq vm' 0, .error ?_⟩ hdem.ne
        exact fun w hw => hs.same hd hm hlen hc hw
  · refine iff_of_true ⟨vm, none, ?_, .error fun _ _ => rfl⟩
      ⟨fun _ hlt => by omega, fun hneg => by omega⟩
    rw [allocuvm, if_pos hbig]
    rfl

theorem growproc_shrink (h : Exact L vm role) (hd : role d = .dir) (hm : Mapped vm d (pages sz))
    (hneg : n < 0) (hge : -2 ^ 31 ≤ n) : GrowprocExact L d sz n vm ↔ GrowthSafe vm d sz n := by
  have hsz := hm.lt_kernbase h.ok hd
  have hsafe : GrowthSafe vm d sz n ↔ sz = 0 ∨ 0 < sz + n :=
    ⟨fun hs => hs.shrink hneg, fun hs => ⟨fun hpos => by omega, fun _ => hs⟩⟩
  rw [hsafe]
  unfold GrowprocExact growproc
  rw [if_neg (by omega), if_pos hneg]
  rcases lt_or_ge (sz + n) 0 with hbelow | hnonneg
  · -- The sum wraps around, and deallocuvm finds nothing to do.
    have hwrap := addInt_neg hbelow hge
    have hcall : vm.deallocuvm L d sz (addInt sz n) = .ok (vm, sz) := by
      rw [deallocuvm, if_pos (by omega)]
      rfl
    rw [hcall, report_eq]
    rcases Nat.eq_zero_or_pos sz with rfl | hpos
    · exact iff_of_true ⟨vm, none, rfl, .error fun _ _ => rfl⟩ (.inl rfl)
    · refine iff_of_false ?_ (by omega)
      rintro ⟨vm', r, hrun, hg⟩
      rw [if_neg (by omega)] at hrun
      cases hrun
      have := hg.size sz rfl
      omega
  · have hadd : addInt sz n = (sz + n).toNat := addInt_nonneg hnonneg (by simp at hsz; omega)
    obtain ⟨vm', hcall, hmapped, hkept⟩ := deallocuvm_shrinks h hd hm
      (show (sz + n).toNat < sz by omega)
    rw [hadd, hcall, report_eq]
    rcases lt_or_eq_of_le hnonneg with hpos | hzero
    · rw [if_neg (by omega)]
      exact iff_of_true ⟨vm', _, rfl, .ok (by omega) hmapped hkept⟩ (.inr hpos)
    · refine iff_of_false ?_ (by omega)
      rintro ⟨vm'', r, hrun, hg⟩
      rw [if_pos (by omega)] at hrun
      cases hrun
      -- The first page of the process was there, and is gone.
      have hfirst : 0 < pages sz := lt_pages.mp (by omega)
      have hsame := hg.same rfl 0 (by omega)
      have hsome := (hm 0 (by omega)).mpr hfirst
      rw [← hsame, hmapped 0 (by omega), ← hzero] at hsome
      exact absurd hsome (by decide)

theorem growproc_exact_iff (L : Layout) (vm : Vm) (role : Nat → Role) (d sz : Nat) (n : Int)
    (h : Exact L vm role) (hd : role d = .dir) (hm : Mapped vm d (pages sz))
    (hge : -2 ^ 31 ≤ n) (hlt : n < 2 ^ 31) :
    GrowprocExact L d sz n vm ↔ GrowthSafe vm d sz n := by
  rcases lt_trichotomy n 0 with hneg | rfl | hpos
  · exact growproc_shrink h hd hm hneg hge
  · refine iff_of_true ⟨vm, some sz, rfl, .ok (by omega) hm fun _ _ => ⟨rfl, fun _ _ => rfl⟩⟩ ?_
    exact ⟨fun hpos => by omega, fun hneg => by omega⟩
  · exact growproc_grow h hd hm hpos hlt

theorem pageVm_mapped : Mapped (pageVm 0 userPerm []) 500 (pages 0x1000) := by
  intro w _
  rw [pageVm_page]
  split
  · next hw => exact iff_of_true rfl (by rw [hw]; decide)
  · next hw => exact iff_of_false nofun fun hlt => hw (by change w < 1 at hlt; omega)

theorem growproc_exact_iff_page :
    GrowprocExact sampleLayout 500 0x1000 (-1) (pageVm 0 userPerm []) :=
  (growproc_exact_iff sampleLayout (pageVm 0 userPerm []) (pageRole 0 []) 500 0x1000 (-1)
    (pageVm_exact (by decide) (by decide) (by decide)) rfl pageVm_mapped (by decide)
    (by decide)).mpr
    ⟨fun hpos => absurd hpos (by decide), fun _ => .inr (by decide)⟩

-- sbrk(-4096) in a process of one page frees the page and reports an error.
theorem growproc_to_zero : ¬ ∀ (L : Layout) (vm : Vm) (role : Nat → Role) (d sz : Nat) (n : Int),
    Exact L vm role → role d = .dir → Mapped vm d (pages sz) → -2 ^ 31 ≤ n → n < 2 ^ 31 →
    GrowprocExact L d sz n vm := by
  intro hall
  have hexact : Exact sampleLayout (pageVm 0 userPerm []) (pageRole 0 []) :=
    pageVm_exact (by decide) (by decide) (by decide)
  have hsafe := (growproc_shrink hexact rfl pageVm_mapped (by decide) (by decide)).mp
    (hall sampleLayout (pageVm 0 userPerm []) (pageRole 0 []) 500 0x1000 (-0x1000) hexact rfl
      pageVm_mapped (by decide) (by decide))
  exact absurd (hsafe.shrink (by decide)) (by decide)

end Vm
end Xv6
