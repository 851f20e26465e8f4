import Xv6.Umalloc.FreeList

namespace Xv6.Umalloc

open LinkedPath Tiling

def Heap.memory (h : Heap) : Set Nat := {x | ∃ r ∈ h.regions, r.1 ≤ x ∧ x < r.1 + r.2}

structure Sound (base : Nat) (h : Heap) (free live : List Piece) : Prop where
  list : FreeList base h free
  spaced : Spaced free
  tiles : Tiles (free ++ live) h.memory
  inside : ∀ x ∈ h.memory, base + unit ≤ x ∧ x < h.brk
  start : 0 < base ∧ base + unit ≤ h.brk
  brk : h.brk < 2 ^ 32

theorem Sound.bounds {base : Nat} {h : Heap} {free live : List Piece}
    (hs : Sound base h free live) {p : Piece} (hp : p ∈ free ++ live) :
    base + unit ≤ p.start ∧ p.stop ≤ h.brk := by
  have hproper := hs.tiles.proper p hp
  have hmem : ∀ x, p.start ≤ x → x < p.stop → x ∈ h.memory := by
    intro x h1 h2
    rw [← hs.tiles.cover]
    exact ⟨p, hp, h1, h2⟩
  have h1 := hs.inside p.start (hmem p.start le_rfl hproper)
  have h2 := hs.inside (p.stop - 1) (hmem (p.stop - 1) (by omega) (by omega))
  omega

theorem Sound.of_same {base : Nat} {h h' : Heap} {free live free' live' : List Piece}
    (hs : Sound base h free live) (hlist : FreeList base h' free') (hspaced : Spaced free')
    (htiles : Tiles (free' ++ live') h.memory)
    (hsame : h'.brk = h.brk ∧ h'.regions = h.regions) : Sound base h' free' live' := by
  have hmemory : h'.memory = h.memory := by
    rw [Heap.memory, hsame.2, Heap.memory]
  refine ⟨hlist, hspaced, hmemory ▸ htiles, ?_, ?_, ?_⟩
  · rw [hmemory, hsame.1]
    exact hs.inside
  · rw [hsame.1]
    exact hs.start
  · rw [hsame.1]
    exact hs.brk

section Place

variable {base : Nat} {l : List Piece}

theorem exists_split (hs : Spaced l) (hproper : ∀ q ∈ l, q.start < q.stop) (x : Nat)
    (hx : ∀ q ∈ l, q.start ≠ x) : ∃ before after, l = before ++ after ∧
      (∀ q ∈ before, q.start < x) ∧ ∀ q ∈ after, x < q.start := by
  induction l with
  | nil => exact ⟨[], [], rfl, by simp, by simp⟩
  | cons q l ih =>
    obtain ⟨hq, hl⟩ := List.pairwise_cons.mp hs
    by_cases hlt : q.start < x
    · obtain ⟨before, after, rfl, hb, ha⟩ := ih hl
        (fun r hr => hproper r (List.mem_cons_of_mem _ hr))
        fun r hr => hx r (List.mem_cons_of_mem _ hr)
      refine ⟨q :: before, after, rfl, fun r hr => ?_, ha⟩
      rcases List.mem_cons.mp hr with rfl | hr
      · exact hlt
      · exact hb r hr
    · refine ⟨[], q :: l, rfl, by simp, fun r hr => ?_⟩
      have hne := hx q List.mem_cons_self
      rcases List.mem_cons.mp hr with rfl | hr
      · omega
      · have := hq r hr
        have := hproper q List.mem_cons_self
        omega

theorem perm_move (l m n : List Piece) (p : Piece) :
    (l ++ p :: m ++ n).Perm (l ++ m ++ p :: n) := by
  rw [List.append_assoc, List.cons_append]
  refine List.perm_middle.trans ?_
  rw [← List.append_assoc]
  exact List.perm_middle.symm

theorem tiles_apart {p q : Piece} {free live : List Piece} {M : Set Nat}
    (h : Tiles (free ++ p :: live) M) (hq : q ∈ free ++ live) : Apart q p := by
  have hp : Tiles (p :: (free ++ live)) M := h.perm List.perm_middle
  exact ((List.pairwise_cons.mp hp.apart).1 q hq).symm

theorem apart_start_ne {p q : Piece} (h : Apart q p) (hp : p.start < p.stop)
    (hq : q.start < q.stop) : q.start ≠ p.start := by
  rcases h with h | h <;> omega

end Place

section Release

variable {base k : Nat} {h : Heap} {free live : List Piece} {p : Piece}

structure Frame (base : Nat) (free : List Piece) (p : Piece) (h h' : Heap) : Prop where
  other : ∀ x, x ≠ p.start → x ∉ base :: starts free → h'.mem x = h.mem x
  same : h'.brk = h.brk ∧ h'.regions = h.regions

theorem Sound.release (hs : Sound base h free (p :: live))
    (hsize : p.start + unit * h.size p.start = p.stop) (hk : free.length + 1 < k) :
    ∃ h' free', h.free k (past p.start 1) = some h' ∧ Sound base h' free' live ∧
      Frame base free p h h' ∧ free'.length ≤ free.length + 1 ∧
      ∃ q ∈ free', q.start ≤ p.start ∧ p.stop ≤ q.stop := by
  have hp : p ∈ free ++ p :: live := by simp
  have hproper := hs.tiles.proper
  have hpp := hproper p hp
  have hfree : ∀ q ∈ free, q.start < q.stop := fun q hq => hproper q (List.mem_append_left _ hq)
  have hapart : ∀ q ∈ free, Apart q p := fun q hq =>
    tiles_apart hs.tiles (List.mem_append_left _ hq)
  obtain ⟨before, after, rfl, hb, ha⟩ := exists_split hs.spaced hfree p.start fun q hq =>
    apart_start_ne (hapart q hq) hpp (hfree q hq)
  have hbetween : Between base before p after := by
    obtain ⟨habove, hbelow⟩ := hs.bounds hp
    refine ⟨?_, hb, ha, hpp, lt_of_le_of_lt hbelow hs.brk⟩
    unfold unit at habove
    omega
  have hafter : ∀ q ∈ after, q.start < q.stop := fun q hq => hfree q (List.mem_append_right _ hq)
  have hbefore : ∀ q ∈ before, q.start < q.stop := fun q hq => hfree q (List.mem_append_left _ hq)
  obtain ⟨p', after', p'', before', h', hnext, hprev, hcall, hlinks, hlist⟩ :=
    hs.list.free hbetween hsize hafter hk
  have hspaced : Spaced (before' ++ p'' :: after') := by
    refine spaced_joined hs.spaced hfree (fun q hq => ?_) (fun q hq => ?_) hnext hprev
    · have h1 := hapart q (List.mem_append_left _ hq)
      have h2 := hb q hq
      rcases h1 with h1 | h1 <;> omega
    · have h1 := hapart q (List.mem_append_right _ hq)
      have h2 := ha q hq
      rcases h1 with h1 | h1
      · have := hafter q hq
        omega
      · exact h1
  have htiles : Tiles (before' ++ p'' :: after' ++ live) h.memory := by
    have h1 : Tiles (p :: (after ++ (before ++ live))) h.memory := by
      refine hs.tiles.perm (List.perm_middle.trans (.cons p ?_))
      rw [← List.append_assoc]
      exact List.perm_append_comm.append_right live
    have h2 : Tiles (p' :: (before ++ (after' ++ live))) h.memory := by
      refine (hnext.tiles h1).perm (.cons p' ?_)
      rw [← List.append_assoc, ← List.append_assoc]
      exact List.perm_append_comm.append_right live
    refine (hprev.tiles h2).perm ?_
    rw [List.append_assoc]
    exact List.perm_middle.symm
  refine ⟨h', _, hcall, hs.of_same hlist hspaced htiles hlinks.same, ⟨?_, hlinks.same⟩, ?_, ?_⟩
  · intro x h1 h2
    refine hlinks.other x h1 fun he => h2 ?_
    rw [he, starts_append, ← List.cons_append]
    exact List.mem_append_left _ (last_mem _ _)
  · have h1 := hnext.sublist.length_le
    have h2 := hprev.length_le
    simp only [List.length_append, List.length_cons]
    omega
  · obtain ⟨h1, h2⟩ := hprev.covers hbefore
    obtain ⟨h3, h4⟩ := hnext.covers hafter
    exact ⟨p'', by simp, by omega, by omega⟩

end Release

section Morecore

variable {base k : Nat} {h : Heap} {free live : List Piece}

theorem Sound.starts_lt (hs : Sound base h free live) : ∀ x ∈ base :: starts free, x < h.brk := by
  intro x hx
  rcases List.mem_cons.mp hx with rfl | hx
  · have := hs.start.2
    unfold unit at this
    omega
  · obtain ⟨p, hp, rfl⟩ := List.mem_map.mp hx
    have hmem := List.mem_append_left live hp
    exact lt_of_lt_of_le (hs.tiles.proper p hmem) (hs.bounds hmem).2

def Heap.ask (h : Heap) (nu : Nat) : Heap := { h with asked := h.asked ++ [(nu * unit, nu)] }

theorem Sound.ask (hs : Sound base h free live) (nu : Nat) : Sound base (h.ask nu) free live :=
  hs.of_same (hs.list.congr (fun _ _ => rfl) rfl) hs.spaced hs.tiles ⟨rfl, rfl⟩

def Heap.grown (h : Heap) (a nu : Nat) : Heap :=
  Heap.setSize { h.ask nu with
    brk := a + nu * unit, regions := h.regions ++ [(a, nu * unit)] } a nu

theorem Heap.grown_other {a nu x : Nat} (hx : x ≠ a) : (h.grown a nu).mem x = h.mem x :=
  Function.update_of_ne hx _ _

theorem Heap.grown_size (h : Heap) (a nu : Nat) : (h.grown a nu).size a = nu := by
  simp [grown, setSize, setHeader, size]

theorem Sound.grown {a nu : Nat} (hs : Sound base h free live) (ha : h.brk ≤ a) (hnu : 0 < nu)
    (hfit : a + nu * unit < 2 ^ 32) :
    Sound base (h.grown a nu) free (⟨a, a + nu * unit⟩ :: live) := by
  have hlt : a < a + nu * unit := by
    unfold unit
    omega
  have hmemory : (h.grown a nu).memory = h.memory ∪ (Piece.mk a (a + nu * unit)).points := by
    ext x
    simp only [Heap.memory, Heap.grown, Heap.setSize, Heap.setHeader, Piece.points,
      Set.mem_ofPred_eq, List.mem_append, List.mem_singleton, Set.mem_union, Set.mem_Ico]
    constructor
    · rintro ⟨r, hr | rfl, hx⟩
      · exact .inl ⟨r, hr, hx⟩
      · exact .inr hx
    · rintro (⟨r, hr, hx⟩ | hx)
      · exact ⟨r, .inl hr, hx⟩
      · exact ⟨_, .inr rfl, hx⟩
  refine ⟨hs.list.congr (fun x hx => ?_) rfl, hs.spaced, ?_, fun x hx => ?_, ?_, hfit⟩
  · exact Heap.grown_other (Nat.ne_of_lt (lt_of_lt_of_le (hs.starts_lt x hx) ha))
  · rw [hmemory]
    refine (hs.tiles.cons hlt fun q hq => ?_).perm List.perm_middle.symm
    exact .inr ((hs.bounds hq).2.trans ha)
  · change base + unit ≤ x ∧ x < a + nu * unit
    rw [hmemory] at hx
    have hstart := hs.start.2
    rcases hx with hx | hx
    · have := hs.inside x hx
      omega
    · have h1 : a ≤ x := hx.1
      have h2 : x < a + nu * unit := hx.2
      omega
  · have := hs.start
    exact ⟨this.1, by change base + unit ≤ a + nu * unit; omega⟩

def Keeps (live : List Piece) (h h' : Heap) : Prop := ∀ p ∈ live, h'.mem p.start = h.mem p.start

theorem Sound.live_not_start (hs : Sound base h free live) {p : Piece} (hp : p ∈ live) :
    p.start ∉ base :: starts free := by
  intro hx
  have hmem := List.mem_append_right free hp
  have hpp := hs.tiles.proper p hmem
  rcases List.mem_cons.mp hx with he | hx
  · have := (hs.bounds hmem).1
    unfold unit at this
    omega
  · obtain ⟨q, hq, he⟩ := List.mem_map.mp hx
    have hqq := hs.tiles.proper q (List.mem_append_left _ hq)
    have := (List.pairwise_append.mp hs.tiles.apart).2.2 q hq p hp
    rcases this with h1 | h1 <;> omega

def coreUnits (u : Nat) : Nat := if u < 4096 then 4096 else u

theorem Sound.morecore {u : Nat} (hs : Sound base h free live) (sbrk : Sbrk) (hu : 0 < u)
    (hu' : u ≤ 2 ^ 28) (hk : free.length + 1 < k) :
    sbrk.run h.brk (coreUnits u * unit) = none ∧
      h.morecore sbrk k u = some (h.ask (coreUnits u), 0) ∨
    ∃ h' free', sbrk.run h.brk (coreUnits u * unit) ≠ none ∧
      h.morecore sbrk k u = some (h', h'.freep) ∧ h'.freep ≠ 0 ∧
      Sound base h' free' live ∧ Keeps live h h' ∧ free'.length ≤ free.length + 1 ∧
      ∃ q ∈ free', u ≤ h'.size q.start := by
  rw [coreUnits]
  obtain ⟨nu, hnu⟩ : ∃ nu, nu = if u < 4096 then 4096 else u := ⟨_, rfl⟩
  rw [← hnu]
  have hle : u ≤ nu ∧ 0 < nu ∧ nu ≤ 2 ^ 28 := by
    rw [hnu]
    split_ifs <;> omega
  have hbytes : uint (nu * unit) = nu * unit := by
    rw [uint, Nat.mod_eq_of_lt]
    unfold unit
    omega
  cases hrun : sbrk.run h.brk (nu * unit) with
  | none =>
    refine .inl ⟨rfl, ?_⟩
    simp only [Heap.morecore, ← hnu, hbytes, hrun, Heap.ask]
  | some a =>
    obtain ⟨hfresh, hfit⟩ := sbrk.fresh _ _ _ hrun
    have hgrown := hs.grown hfresh hle.2.1 hfit
    have hsize : a + unit * (h.grown a nu).size a = a + nu * unit := by
      rw [Heap.grown_size, Nat.mul_comm]
    obtain ⟨h', free', hcall, hs', hframe, hlen, q, hq, hq1, hq2⟩ :=
      hgrown.release (p := ⟨a, a + nu * unit⟩) hsize hk
    refine .inr ⟨h', free', by simp, ?_, ?_, hs', fun p hp => ?_, hlen, q, hq, ?_⟩
    · simp only [Heap.morecore, ← hnu, hbytes, hrun]
      change (do let h ← (h.grown a nu).free k (past a 1); pure (h, h.freep)) = _
      rw [hcall]
      rfl
    · have hfreep := hs'.list.freep
      have hbase := hs'.start.1
      rcases List.mem_cons.mp hfreep with he | hmem
      · omega
      · have := (List.pairwise_cons.mp hs'.list.sorted).1 _ hmem
        omega
    · have hlive := hs.bounds (List.mem_append_right free hp)
      have hproper := hs.tiles.proper p (List.mem_append_right free hp)
      have hne : p.start ≠ a := by omega
      rw [hframe.other p.start hne (hs.live_not_start hp), Heap.grown_other hne]
    · have hqs := hs'.list.size q hq
      dsimp only at hq1 hq2
      unfold unit at *
      omega

end Morecore

section Carve

variable {base u : Nat} {h : Heap} {before after live : List Piece} {p : Piece}

theorem Sound.inside_ne {x : Nat} (hs : Sound base h (before ++ p :: after) live)
    (h1 : p.start < x) (h2 : x < p.stop) :
    x ∉ base :: starts (before ++ p :: after) ∧ ∀ q ∈ live, q.start ≠ x := by
  have hpmem : p ∈ before ++ p :: after ++ live := by simp
  have hother : ∀ q ∈ before ++ after ++ live, q.start ≠ x := by
    intro q hq
    have hapart := tiles_apart (hs.tiles.perm (perm_move before after live p)) hq
    have hproper := hs.tiles.proper q (by
      simp only [List.mem_append, List.mem_cons] at hq ⊢
      tauto)
    rcases hapart with h3 | h3 <;> omega
  refine ⟨fun hx => ?_, fun q hq => hother q (List.mem_append_right _ hq)⟩
  rcases List.mem_cons.mp hx with rfl | hx
  · have := (hs.bounds hpmem).1
    unfold unit at this
    omega
  · obtain ⟨q, hq, he⟩ := List.mem_map.mp hx
    rcases List.mem_append.mp hq with hq | hq
    · exact hother q (by simp [hq]) he
    · rcases List.mem_cons.mp hq with rfl | hq
      · omega
      · exact hother q (by simp [hq]) he

theorem Sound.last_mem_starts (before : List Piece) (p : Piece) (after : List Piece) :
    last base (starts before) ∈ base :: starts (before ++ p :: after) := by
  rw [starts_append, ← List.cons_append]
  exact List.mem_append_left _ (last_mem _ _)

theorem Sound.carve_whole (hs : Sound base h (before ++ p :: after) live)
    (hsize : h.size p.start = u) :
    ∃ h', h.carve u (last base (starts before)) p.start = (h', past p.start 1) ∧
      Sound base h' (before ++ after) (p :: live) ∧ h'.size p.start = u ∧ Keeps live h h' := by
  have hring := hs.list.ring
  have hnodup := hs.list.nodup
  rw [starts_append] at hring hnodup
  obtain ⟨h', hh'⟩ : ∃ h', h' = { h.setPtr (last base (starts before)) (h.ptr p.start) with
    freep := last base (starts before) } := ⟨_, rfl⟩
  have hother : ∀ x, x ≠ last base (starts before) → h'.mem x = h.mem x := by
    intro x hx
    rw [hh']
    exact Function.update_of_ne hx _ _
  have hlast : h'.mem (last base (starts before)) =
      ⟨h.ptr p.start, h.size (last base (starts before))⟩ := by
    rw [hh']
    exact Function.update_self _ _ _
  have hsizes : ∀ x, h'.size x = h.size x := by
    intro x
    by_cases hx : x = last base (starts before)
    · rw [hx, Heap.size, hlast]
    · rw [Heap.size, hother x hx, Heap.size]
  have hsub : (before ++ after).Sublist (before ++ p :: after) :=
    (List.sublist_cons_self p after).append_left before
  have hlist : FreeList base h' (before ++ after) := by
    refine ⟨?_, hs.list.sorted.sublist ((hsub.map Piece.start).cons_cons base), fun q hq => ?_,
      (hsizes base).trans hs.list.zero, ?_, fun q hq => hs.list.bound q (hsub.subset hq)⟩
    · rw [starts_append]
      refine hring.reroute (fun x hx hne => ?_) (hnodup.sublist (by simp)) ?_
      · rw [Heap.ptr, hother x hne, Heap.ptr]
      · refine (path_append.mp hring).2.move (by rw [Heap.ptr, hlast]) fun x hx => ?_
        have hne : x ≠ last base (starts before) := by
          rintro rfl
          rw [← List.cons_append] at hnodup
          exact (List.nodup_append.mp hnodup).2.2 _ (last_mem _ _) _ (List.mem_cons_of_mem _ hx) rfl
        rw [Heap.ptr, hother x hne, Heap.ptr]
    · rw [hsizes]
      exact hs.list.size q (hsub.subset hq)
    · rw [hh', starts_append, ← List.cons_append]
      exact List.mem_append_left _ (last_mem _ _)
  refine ⟨h', ?_, hs.of_same hlist (hs.spaced.sublist hsub)
    (hs.tiles.perm (perm_move before after live p)) (hh' ▸ ⟨rfl, rfl⟩),
    (hsizes p.start).trans hsize, fun q hq => ?_⟩
  · rw [Heap.carve, if_pos hsize, hh']
  · refine hother q.start fun he => hs.live_not_start hq ?_
    rw [he]
    exact last_mem_starts before p after

theorem mem_of_start_ne {q : Piece} {s : Nat} (hq : q ∈ before ++ ⟨p.start, s⟩ :: after)
    (hne : q.start ≠ p.start) : q ∈ before ++ p :: after := by
  rcases List.mem_append.mp hq with hq | hq
  · exact List.mem_append_left _ hq
  · rcases List.mem_cons.mp hq with rfl | hq
    · exact absurd rfl hne
    · exact List.mem_append_right _ (List.mem_cons_of_mem _ hq)

theorem eq_of_start {q : Piece} {s : Nat} (hd : (base :: starts (before ++ p :: after)).Nodup)
    (hq : q ∈ before ++ ⟨p.start, s⟩ :: after) (he : q.start = p.start) : q = ⟨p.start, s⟩ := by
  rw [starts_append] at hd
  obtain ⟨h1, h2, h3⟩ := List.nodup_append.mp hd.of_cons
  rcases List.mem_append.mp hq with hq | hq
  · exact absurd he (h3 _ (List.mem_map_of_mem hq) _ (by simp))
  · rcases List.mem_cons.mp hq with hq | hq
    · exact hq
    · exact absurd (he ▸ List.mem_map_of_mem hq) (List.nodup_cons.mp h2).1

theorem Sound.carve_part (hs : Sound base h (before ++ p :: after) live) (hu : 0 < u)
    (hsize : u < h.size p.start) :
    ∃ h' s, h.carve u (last base (starts before)) p.start = (h', past s 1) ∧
      Sound base h' (before ++ ⟨p.start, s⟩ :: after) (⟨s, p.stop⟩ :: live) ∧
      s + unit * u = p.stop ∧ h'.size s = u ∧ Keeps live h h' := by
  have hpmem : p ∈ before ++ p :: after := by simp
  have hpsize := hs.list.size p hpmem
  have hbound := hs.list.bound p hpmem
  obtain ⟨rest, hrest⟩ : ∃ rest, rest = h.size p.start - u := ⟨_, rfl⟩
  obtain ⟨s, hs'⟩ : ∃ s, s = p.start + unit * rest := ⟨_, rfl⟩
  have hstop : s + unit * u = p.stop ∧ p.start < s ∧ s < p.stop := by
    unfold unit at *
    omega
  have hpast : past p.start rest = s := past_eq hs'.symm (by omega)
  obtain ⟨hnode, hlive⟩ := hs.inside_ne hstop.2.1 hstop.2.2
  obtain ⟨h', hh'⟩ : ∃ h', h' = { (h.setSize p.start rest).setSize s u with
    freep := last base (starts before) } := ⟨_, rfl⟩
  have hother : ∀ x, x ≠ p.start → x ≠ s → h'.mem x = h.mem x := by
    intro x h1 h2
    rw [hh']
    exact (Function.update_of_ne h2 _ _).trans (Function.update_of_ne h1 _ _)
  have hhead : h'.mem p.start = ⟨h.ptr p.start, rest⟩ := by
    rw [hh']
    exact (Function.update_of_ne (Nat.ne_of_lt hstop.2.1) _ _).trans (Function.update_self _ _ _)
  have htail : h'.size s = u := by
    rw [hh']
    simp [Heap.size, Heap.setSize, Heap.setHeader]
  have hstarts : starts (before ++ ⟨p.start, s⟩ :: after) = starts (before ++ p :: after) := by
    simp
  have hnodes : ∀ x ∈ base :: starts (before ++ p :: after), x ≠ s := fun x hx he =>
    hnode (he ▸ hx)
  have hlist : FreeList base h' (before ++ ⟨p.start, s⟩ :: after) := by
    refine ⟨?_, hstarts ▸ hs.list.sorted, fun q hq => ?_, ?_, ?_, fun q hq => ?_⟩
    · rw [hstarts]
      refine hs.list.ring.congr fun x hx => ?_
      by_cases hxp : x = p.start
      · rw [hxp, Heap.ptr, hhead]
      · rw [Heap.ptr, hother x hxp (hnodes x hx), Heap.ptr]
    · by_cases hqp : q.start = p.start
      · obtain rfl : q = ⟨p.start, s⟩ := eq_of_start hs.list.nodup hq hqp
        rw [Heap.size, hhead, ← hs']
      · have hq' := mem_of_start_ne hq hqp
        have hmem := List.mem_cons_of_mem base (List.mem_map_of_mem (f := Piece.start) hq')
        rw [Heap.size, hother q.start hqp (hnodes q.start hmem)]
        exact hs.list.size q hq'
    · have hbase : base ≠ p.start := fun he =>
        (List.nodup_cons.mp hs.list.nodup).1 (he ▸ List.mem_map_of_mem hpmem)
      rw [Heap.size, hother base hbase (hnodes base List.mem_cons_self)]
      exact hs.list.zero
    · rw [hh', hstarts]
      exact last_mem_starts before p after
    · by_cases hqp : q.start = p.start
      · obtain rfl : q = ⟨p.start, s⟩ := eq_of_start hs.list.nodup hq hqp
        exact hstop.2.2.trans hbound
      · exact hs.list.bound q (mem_of_start_ne hq hqp)
  have htiles : Tiles (before ++ ⟨p.start, s⟩ :: after ++ ⟨s, p.stop⟩ :: live) h.memory := by
    have h1 : Tiles (p :: (before ++ after ++ live)) h.memory :=
      hs.tiles.perm ((perm_move before after live p).trans List.perm_middle)
    refine (h1.split hstop.2.1 hstop.2.2).perm ?_
    refine .trans ?_ (perm_move before after _ ⟨p.start, s⟩).symm
    exact .trans (List.perm_middle.symm.cons _) List.perm_middle.symm
  refine ⟨h', s, ?_, hs.of_same hlist (hs.spaced.shrink hstop.2.2.le) htiles (hh' ▸ ⟨rfl, rfl⟩),
    hstop.1, htail, fun q hq => ?_⟩
  · rw [Heap.carve, if_neg (Nat.ne_of_gt hsize), ← hrest]
    dsimp only
    rw [hpast, hh']
  · refine hother q.start (fun he => hs.live_not_start hq ?_) (hlive q hq)
    rw [he]
    exact List.mem_cons_of_mem _ (List.mem_map_of_mem hpmem)

theorem Sound.carve {free : List Piece} {prev : Nat} (hs : Sound base h free live)
    (hprev : prev ∈ base :: starts free) (hu : 0 < u) (hsize : u ≤ h.size (h.ptr prev)) :
    ∃ h' free' q, h.carve u prev (h.ptr prev) = (h', past q.start 1) ∧
      Sound base h' free' (q :: live) ∧ q.start + unit * u = q.stop ∧ h'.size q.start = u ∧
      Keeps live h h' ∧ free'.length ≤ free.length := by
  have hnext := hs.list.ring.next_mem hprev
  rcases List.mem_append.mp hnext with hmem | hmem
  · obtain ⟨p, hp, hstart⟩ := List.mem_map.mp hmem
    obtain ⟨before, after, rfl⟩ := List.append_of_mem hp
    have hring := hs.list.ring
    rw [starts_append] at hring
    have hlast : prev = last base (starts before) := by
      refine hs.list.ring.injective ?_ hprev (last_mem_starts before p after) ?_
      · exact (List.perm_append_singleton base _).nodup_iff.mpr hs.list.nodup
      · exact hstart.symm.trans hring.tail.1.symm
    rw [hlast] at hsize hstart ⊢
    rw [← hstart] at hsize ⊢
    rcases hsize.lt_or_eq with hlt | heq
    · obtain ⟨h', s, hcall, hs', hstop, hsz, hkeep⟩ := hs.carve_part hu hlt
      exact ⟨h', _, ⟨s, p.stop⟩, hcall, hs', hstop, hsz, hkeep, by simp⟩
    · obtain ⟨h', hcall, hs', hsz, hkeep⟩ := hs.carve_whole heq.symm
      refine ⟨h', _, p, hcall, hs', ?_, hsz, hkeep, by simp⟩
      rw [heq]
      exact hs.list.size p hp
  · rw [List.mem_singleton.mp hmem, hs.list.zero] at hsize
    omega

end Carve

section Malloc

variable {base k u : Nat} {h : Heap} {free live : List Piece}

theorem mallocLoop_here {prevp p : Nat} (sbrk : Sbrk) (hsize : u ≤ h.size p) (k : Nat) :
    h.mallocLoop sbrk u (k + 1) prevp p = some (h.carve u prevp p) := by
  rw [Heap.mallocLoop, if_pos hsize]

theorem mallocLoop_next {prevp p : Nat} (sbrk : Sbrk) (hsize : ¬ u ≤ h.size p)
    (hne : p ≠ h.freep) (k : Nat) :
    h.mallocLoop sbrk u (k + 1) prevp p = h.mallocLoop sbrk u k p (h.ptr p) := by
  rw [Heap.mallocLoop, if_neg hsize, if_neg hne]

theorem mallocLoop_found {prevp : Nat} {l : List Nat} (sbrk : Sbrk)
    (hp : Path h.ptr prevp l h.freep) (hne : h.freep ∉ l)
    (hx : ∃ x ∈ l ++ [h.freep], u ≤ h.size x) (hk : l.length < k) :
    ∃ prev ∈ prevp :: l, u ≤ h.size (h.ptr prev) ∧
      h.mallocLoop sbrk u k prevp (h.ptr prevp) = some (h.carve u prev (h.ptr prev)) := by
  induction l generalizing prevp k with
  | nil =>
    obtain ⟨k, rfl⟩ := Nat.exists_eq_succ_of_ne_zero (Nat.ne_of_gt hk)
    obtain ⟨x, hx, hsize⟩ := hx
    have hsize' : u ≤ h.size (h.ptr prevp) := by
      rw [show h.ptr prevp = h.freep from hp, ← List.mem_singleton.mp hx]
      exact hsize
    exact ⟨prevp, List.mem_cons_self, hsize', mallocLoop_here sbrk hsize' k⟩
  | cons c l ih =>
    obtain ⟨k, rfl⟩ := Nat.exists_eq_succ_of_ne_zero (Nat.ne_of_gt (Nat.zero_lt_of_lt hk))
    by_cases hsize : u ≤ h.size (h.ptr prevp)
    · exact ⟨prevp, List.mem_cons_self, hsize, mallocLoop_here sbrk hsize k⟩
    · have hc : h.ptr prevp = c := hp.1
      rw [hc] at hsize
      have hcne : c ≠ h.freep := fun he => hne (he ▸ List.mem_cons_self)
      have hx' : ∃ x ∈ l ++ [h.freep], u ≤ h.size x := by
        obtain ⟨x, hx, hxs⟩ := hx
        rcases List.mem_cons.mp hx with rfl | hx
        · exact absurd hxs hsize
        · exact ⟨x, hx, hxs⟩
      obtain ⟨prev, hprev, hps, hcall⟩ := ih hp.2 (fun hm => hne (List.mem_cons_of_mem c hm)) hx'
        (Nat.lt_of_succ_lt_succ hk)
      refine ⟨prev, List.mem_cons_of_mem _ hprev, hps, ?_⟩
      rw [hc, Nat.succ_eq_add_one, mallocLoop_next sbrk hsize hcne, hcall]

theorem mallocLoop_none {prevp : Nat} {l : List Nat} (sbrk : Sbrk)
    (hp : Path h.ptr prevp l h.freep) (hne : h.freep ∉ l)
    (hx : ∀ x ∈ l ++ [h.freep], ¬ u ≤ h.size x) (k : Nat) :
    h.mallocLoop sbrk u (l.length + k) prevp (h.ptr prevp) =
      h.mallocLoop sbrk u k (last prevp l) h.freep := by
  induction l generalizing prevp with
  | nil =>
    rw [show h.ptr prevp = h.freep from hp, List.length_nil, Nat.zero_add, last_nil]
  | cons c l ih =>
    have hcne : c ≠ h.freep := fun he => hne (he ▸ List.mem_cons_self)
    have hne' : h.freep ∉ l := fun hm => hne (List.mem_cons_of_mem c hm)
    rw [hp.1, List.length_cons, Nat.add_right_comm,
      mallocLoop_next sbrk (hx c List.mem_cons_self) hcne,
      ih hp.2 hne' fun x hm => hx x (List.mem_cons_of_mem c hm), last_cons]

structure Gives (base u n : Nat) (live : List Piece) (h h' : Heap) (r : Nat) : Prop where
  keeps : Keeps live h h'
  sound : ∃ free, free.length ≤ n ∧ (r = 0 ∧ Sound base h' free live ∨
    ∃ q : Piece, r = q.start + unit ∧ Sound base h' free (q :: live) ∧
      q.start + unit * u = q.stop ∧ h'.size q.start = u)

theorem Sound.take (hs : Sound base h free live) (sbrk : Sbrk) (hu : 0 < u)
    (hx : ∃ p ∈ free, u ≤ h.size p.start) (hk : free.length < k) :
    ∃ h' r, h.mallocLoop sbrk u k h.freep (h.ptr h.freep) = some (h', r) ∧ r ≠ 0 ∧
      Gives base u free.length live h h' r := by
  obtain ⟨l, hl, hperm⟩ := hs.list.ring.around hs.list.freep
  have hnodup := hperm.nodup_iff.mpr hs.list.nodup
  have hlen := hperm.length_eq
  simp only [List.length_cons, starts, List.length_map] at hlen
  obtain ⟨p, hp, hsize⟩ := hx
  have hmem : p.start ∈ l ++ [h.freep] := by
    rw [(List.perm_append_singleton h.freep l).mem_iff, hperm.mem_iff]
    exact List.mem_cons_of_mem _ (List.mem_map_of_mem hp)
  obtain ⟨prev, hprev, hps, hcall⟩ := mallocLoop_found sbrk hl (List.nodup_cons.mp hnodup).1
    ⟨p.start, hmem, hsize⟩ (k := k) (by omega)
  obtain ⟨h', free', q, hcarve, hs', hstop, hsz, hkeep, hle⟩ :=
    hs.carve (hperm.mem_iff.mp hprev) hu hps
  have hbound := (hs'.bounds (p := q) (by simp)).2.trans_lt hs'.brk
  have hpast : past q.start 1 = q.start + unit := by
    refine past_eq (Nat.mul_one unit ▸ rfl) ?_
    unfold unit at *
    omega
  rw [hcarve, hpast] at hcall
  exact ⟨h', _, hcall, by simp, hkeep, free', hle, .inr ⟨q, rfl, hs', hstop, hsz⟩⟩

theorem Sound.scan (hs : Sound base h free live) (sbrk : Sbrk) (hu : 0 < u)
    (hx : ∀ p ∈ free, h.size p.start < u) (hk : free.length < k) :
    ∃ m prevp, k = free.length + (m + 1) ∧ ¬ u ≤ h.size h.freep ∧
      h.mallocLoop sbrk u k h.freep (h.ptr h.freep) =
        h.mallocLoop sbrk u (m + 1) prevp h.freep := by
  obtain ⟨l, hl, hperm⟩ := hs.list.ring.around hs.list.freep
  have hnodup := hperm.nodup_iff.mpr hs.list.nodup
  have hlen := hperm.length_eq
  simp only [List.length_cons, starts, List.length_map] at hlen
  have hsmall : ∀ x ∈ l ++ [h.freep], ¬ u ≤ h.size x := by
    intro x hm hsize
    rw [(List.perm_append_singleton h.freep l).mem_iff, hperm.mem_iff] at hm
    rcases List.mem_cons.mp hm with rfl | hm
    · rw [hs.list.zero] at hsize
      omega
    · obtain ⟨p, hp, rfl⟩ := List.mem_map.mp hm
      exact absurd hsize (Nat.not_le.mpr (hx p hp))
  obtain ⟨m, rfl⟩ : ∃ m, k = l.length + (m + 1) := ⟨k - l.length - 1, by omega⟩
  exact ⟨m, last h.freep l, by omega, hsmall h.freep (by simp),
    mallocLoop_none sbrk hl (List.nodup_cons.mp hnodup).1 hsmall (m + 1)⟩

theorem Sound.mallocLoop (hs : Sound base h free live) (sbrk : Sbrk) (hu : 0 < u)
    (hu' : u ≤ 2 ^ 28) (hk : 2 * free.length + 4 ≤ k) :
    ∃ h' r, h.mallocLoop sbrk u k h.freep (h.ptr h.freep) = some (h', r) ∧
      (r = 0 ↔ (∀ p ∈ free, h.size p.start < u) ∧
        sbrk.run h.brk (coreUnits u * unit) = none) ∧
      Gives base u (free.length + 1) live h h' r := by
  by_cases hx : ∃ p ∈ free, u ≤ h.size p.start
  · obtain ⟨h', r, hcall, hr, hkeep, free', hle, hsound⟩ := hs.take sbrk hu hx (k := k) (by omega)
    refine ⟨h', r, hcall, ⟨fun h => absurd h hr, fun hnone => ?_⟩, hkeep, free', by omega, hsound⟩
    obtain ⟨p, hp, hsize⟩ := hx
    exact absurd hsize (Nat.not_le.mpr (hnone.1 p hp))
  · have hnone : ∀ p ∈ free, h.size p.start < u := fun p hp =>
      Nat.lt_of_not_le fun hsize => hx ⟨p, hp, hsize⟩
    obtain ⟨k, prevp, rfl, hsmall, hscan⟩ := hs.scan sbrk hu hnone (k := k) (by omega)
    rw [hscan, Heap.mallocLoop, if_neg hsmall, if_pos rfl]
    rcases hs.morecore sbrk hu hu' (k := k) (by omega) with
      ⟨hrun, hmore⟩ | ⟨h', free', hrun, hmore, hne, hs', hkeep, hle, hbig⟩
    · rw [hmore]
      exact ⟨_, 0, rfl, ⟨fun _ => ⟨hnone, hrun⟩, fun _ => rfl⟩, fun p hp => rfl, free, by omega,
        .inl ⟨rfl, hs.ask _⟩⟩
    · rw [hmore]
      obtain ⟨h'', r, hcall, hr, hkeep', free'', hle', hsound⟩ :=
        hs'.take sbrk hu hbig (k := k) (by omega)
      refine ⟨h'', r, ?_, ⟨fun h => absurd h hr, fun h => absurd h.2 hrun⟩,
        fun p hp => (hkeep' p hp).trans (hkeep p hp), free'', by omega, hsound⟩
      cases hf : h'.freep with
      | zero => exact absurd hf hne
      | succ n =>
        rw [hf] at hcall
        exact hcall

end Malloc

end Xv6.Umalloc
