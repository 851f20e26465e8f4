import Xv6.Lib.LinkedPath
import Xv6.Lib.Tiling
import Xv6.Umalloc.Basic

namespace Xv6.Umalloc

open LinkedPath Tiling

theorem path_lt {next : Nat → Nat} {a b : Nat} {l : List Nat} (h : Path next a l b)
    (hs : (a :: l ++ [b]).Pairwise (· < ·)) {x : Nat} (hx : x ∈ a :: l) :
    x < next x ∧ next x ≤ b := by
  induction l generalizing a with
  | nil =>
    obtain rfl := List.mem_singleton.mp hx
    have hb : x < b := (List.pairwise_cons.mp hs).1 b (List.mem_singleton.mpr rfl)
    rw [show next x = b from h]
    exact ⟨hb, le_rfl⟩
  | cons c l ih =>
    obtain ⟨ha, hs'⟩ := List.pairwise_cons.mp hs
    rcases List.mem_cons.mp hx with rfl | hx
    · rw [h.1]
      refine ⟨ha c List.mem_cons_self, ?_⟩
      exact Nat.le_of_lt ((List.pairwise_cons.mp hs').1 b (by simp))
    · exact ih h.2 hs' hx

theorem path_lt_or {next : Nat → Nat} {a b : Nat} {l : List Nat} (h : Path next a l b)
    (hs : (a :: l).Pairwise (· < ·)) {x : Nat} (hx : x ∈ a :: l) : x < next x ∨ next x = b := by
  induction l generalizing a with
  | nil =>
    obtain rfl := List.mem_singleton.mp hx
    exact .inr h
  | cons c l ih =>
    obtain ⟨ha, hs'⟩ := List.pairwise_cons.mp hs
    rcases List.mem_cons.mp hx with rfl | hx
    · rw [h.1]
      exact .inl (ha c List.mem_cons_self)
    · exact ih h.2 hs' hx

namespace Heap

def Stops (h : Heap) (bp p : Nat) : Prop :=
  p < bp ∧ bp < h.ptr p ∨ h.ptr p ≤ p ∧ (p < bp ∨ bp < h.ptr p)

theorem search_stop {h : Heap} {bp p : Nat} (hs : h.Stops bp p) (k : Nat) :
    h.search bp (k + 1) p = some p := by
  rw [search]
  rcases hs with hs | hs
  · rw [if_pos hs]
  · rw [if_pos hs, ite_self]

theorem search_next {h : Heap} {bp p : Nat} (hs : ¬ h.Stops bp p) (k : Nat) :
    h.search bp (k + 1) p = h.search bp k (h.ptr p) := by
  obtain ⟨h1, h2⟩ := not_or.mp hs
  rw [search, if_neg h1, if_neg h2]

theorem search_path {h : Heap} {bp p q e k : Nat} {l : List Nat} (hp : Path h.ptr p l e)
    (hq : q ∈ p :: l) (hs : h.Stops bp q) (hu : ∀ x ∈ p :: l, h.Stops bp x → x = q)
    (hk : l.length < k) : h.search bp k p = some q := by
  induction l generalizing p k with
  | nil =>
    obtain ⟨k, rfl⟩ := Nat.exists_eq_succ_of_ne_zero (Nat.ne_of_gt hk)
    obtain rfl := List.mem_singleton.mp hq
    exact search_stop hs k
  | cons c l ih =>
    obtain ⟨k, rfl⟩ := Nat.exists_eq_succ_of_ne_zero (Nat.ne_of_gt (Nat.zero_lt_of_lt hk))
    by_cases hstop : h.Stops bp p
    · rw [← hu p List.mem_cons_self hstop]
      exact search_stop hstop k
    · rw [Nat.succ_eq_add_one, search_next hstop, hp.1]
      rcases List.mem_cons.mp hq with rfl | hq
      · exact absurd hs hstop
      · exact ih hp.2 hq (fun x hx => hu x (List.mem_cons_of_mem p hx)) (Nat.lt_of_succ_lt_succ hk)

theorem stops_iff {h : Heap} {base bp : Nat} {l m : List Nat} (hp : Path h.ptr base (l ++ m) base)
    (hs : (base :: (l ++ m)).Pairwise (· < ·)) (hl : ∀ x ∈ base :: l, x < bp)
    (hm : ∀ x ∈ m, bp < x) {x : Nat} (hx : x ∈ base :: (l ++ m)) :
    h.Stops bp x ↔ x = last base l := by
  have hbase := hl base List.mem_cons_self
  have hlast := hl _ (last_mem base l)
  have hbefore : x ∈ base :: l → h.Stops bp x → x = last base l := by
    intro hx hstop
    rcases List.eq_nil_or_concat l with rfl | ⟨l, q, rfl⟩
    · exact List.mem_singleton.mp hx
    · rw [List.concat_eq_append] at *
      rw [last_append]
      rw [← List.cons_append] at hx
      rcases List.mem_append.mp hx with hx | hx
      · rw [List.append_assoc, List.singleton_append, path_append] at hp
        have hs' : (base :: l ++ [q]).Pairwise (· < ·) :=
          hs.sublist (by simp)
        obtain ⟨h1, h2⟩ := path_lt hp.1 hs' hx
        have hq := hl q (by simp)
        rcases hstop with hstop | hstop <;> omega
      · exact List.mem_singleton.mp hx
  have hafter : x ∈ m → ¬ h.Stops bp x := by
    intro hx hstop
    have hbx := hm x hx
    cases m with
    | nil => exact absurd hx List.not_mem_nil
    | cons c m =>
      have hs' : (c :: m).Pairwise (· < ·) := hs.sublist (by simp)
      have hnext := path_lt_or (path_append.mp hp).2 hs' hx
      rcases hstop with hstop | hstop <;> omega
  constructor
  · intro hstop
    rw [← List.cons_append] at hx
    rcases List.mem_append.mp hx with hx | hx
    · exact hbefore hx hstop
    · exact absurd hstop (hafter hx)
  · rintro rfl
    have htail := hp.tail
    cases m with
    | nil =>
      have hle : base ≤ last base l := by
        rcases List.mem_cons.mp (last_mem base l) with he | hmem
        · exact he.ge
        · rw [List.append_nil] at hs
          exact Nat.le_of_lt ((List.pairwise_cons.mp hs).1 _ hmem)
      change h.ptr (last base l) = base at htail
      exact .inr ⟨htail.le.trans hle, .inl hlast⟩
    | cons c m => exact .inl ⟨hlast, htail.1 ▸ hm c List.mem_cons_self⟩

end Heap

abbrev starts (l : List Piece) : List Nat := l.map Piece.start

theorem starts_append (l m : List Piece) : starts (l ++ m) = starts l ++ starts m :=
  List.map_append

theorem past_eq {p n s : Nat} (h : p + unit * n = s) (hs : s < 2 ^ 32) : past p n = s := by
  rw [past, uint, h, Nat.mod_eq_of_lt hs]

theorem uint_size {p n s : Nat} (h : p + unit * n = s) (hs : s < 2 ^ 32) : uint n = n := by
  rw [uint, Nat.mod_eq_of_lt]
  unfold unit at h
  omega

-- The free list as the code has it: a circle through base and the blocks, by address.
structure FreeList (base : Nat) (h : Heap) (l : List Piece) : Prop where
  ring : Path h.ptr base (starts l) base
  sorted : (base :: starts l).Pairwise (· < ·)
  size : ∀ p ∈ l, p.start + unit * h.size p.start = p.stop
  zero : h.size base = 0
  freep : h.freep ∈ base :: starts l
  bound : ∀ p ∈ l, p.stop < 2 ^ 32

theorem FreeList.congr {base : Nat} {h h' : Heap} {l : List Piece} (hl : FreeList base h l)
    (hmem : ∀ x ∈ base :: starts l, h'.mem x = h.mem x) (hfreep : h'.freep = h.freep) :
    FreeList base h' l where
  ring := hl.ring.congr fun x hx => congrArg Header.ptr (hmem x hx)
  sorted := hl.sorted
  size p hp := by
    rw [Heap.size, hmem p.start (List.mem_cons_of_mem _ (List.mem_map_of_mem hp))]
    exact hl.size p hp
  zero := by
    rw [Heap.size, hmem base List.mem_cons_self]
    exact hl.zero
  freep := hfreep ▸ hl.freep
  bound := hl.bound

section Free

variable {base : Nat} {h : Heap} {before after : List Piece} {p : Piece}

structure Between (base : Nat) (before : List Piece) (p : Piece) (after : List Piece) : Prop where
  base : base < p.start
  before : ∀ q ∈ before, q.start < p.start
  after : ∀ q ∈ after, p.start < q.start
  proper : p.start < p.stop
  bound : p.stop < 2 ^ 32

theorem FreeList.nodup {l : List Piece} (hl : FreeList base h l) : (base :: starts l).Nodup :=
  hl.sorted.imp Nat.ne_of_lt

theorem Between.before_lt (hb : Between base before p after) :
    ∀ x ∈ base :: starts before, x < p.start := by
  intro x hx
  rcases List.mem_cons.mp hx with rfl | hx
  · exact hb.base
  · obtain ⟨q, hq, rfl⟩ := List.mem_map.mp hx
    exact hb.before q hq

theorem Between.after_gt (hb : Between base before p after) : ∀ x ∈ starts after, p.start < x := by
  intro x hx
  obtain ⟨q, hq, rfl⟩ := List.mem_map.mp hx
  exact hb.after q hq

theorem Between.last_lt (hb : Between base before p after) :
    last base (starts before) < p.start := hb.before_lt _ (last_mem _ _)

theorem FreeList.search (hl : FreeList base h (before ++ after))
    (hb : Between base before p after) {k : Nat} (hk : (before ++ after).length + 1 < k) :
    h.search p.start k h.freep = some (last base (starts before)) := by
  have hring := hl.ring
  have hsorted := hl.sorted
  rw [starts_append] at hring hsorted
  obtain ⟨m, hm, hperm⟩ := hl.ring.around hl.freep
  have hmem : ∀ x, x ∈ h.freep :: m ↔ x ∈ base :: (starts before ++ starts after) := by
    intro x
    rw [hperm.mem_iff, starts, List.map_append]
  have hiff : ∀ x ∈ h.freep :: m, h.Stops p.start x ↔ x = last base (starts before) := fun x hx =>
    Heap.stops_iff hring hsorted hb.before_lt hb.after_gt ((hmem x).mp hx)
  have hq : last base (starts before) ∈ h.freep :: m := by
    rw [hmem, ← List.cons_append]
    exact List.mem_append_left _ (last_mem _ _)
  have hlen := hperm.length_eq
  simp only [List.length_cons, starts, List.length_map] at hlen
  exact Heap.search_path hm hq ((hiff _ hq).mpr rfl) (fun x hx => (hiff x hx).mp) (by omega)

structure NextDone (base : Nat) (h h' : Heap) (p : Piece) (after : List Piece) : Prop where
  other : ∀ x, x ≠ p.start → h'.mem x = h.mem x
  path : Path h'.ptr p.start (starts after) base
  size : p.start + unit * h'.size p.start = p.stop
  same : h'.brk = h.brk ∧ h'.regions = h.regions

theorem FreeList.joinNext (hl : FreeList base h (before ++ after))
    (hb : Between base before p after) (hsize : p.start + unit * h.size p.start = p.stop) :
    ∃ p' after', JoinsNext p after p' after' ∧ p'.stop < 2 ^ 32 ∧
      NextDone base h (h.joinNext (last base (starts before)) p.start) p' after' := by
  have hring := hl.ring
  rw [starts_append] at hring
  have htail : Path h.ptr (last base (starts before)) (starts after) base := hring.tail
  have hpast := past_eq hsize hb.bound
  have hne : ∀ x ∈ starts after, x ≠ p.start := fun x hx => Nat.ne_of_gt (hb.after_gt x hx)
  by_cases hjoin : p.stop = h.ptr (last base (starts before))
  · cases after with
    | nil =>
      have : h.ptr (last base (starts before)) = base := htail
      have := hb.base
      have := hb.proper
      omega
    | cons q after =>
      obtain ⟨hq, hpath⟩ := htail
      have hqmem : q ∈ before ++ q :: after := by simp
      have hqsize := hl.size q hqmem
      have hqbound := hl.bound q hqmem
      have hq' : h.ptr (last base (starts before)) = q.start := hq
      have hstop : p.stop = q.start := hjoin.trans hq'
      have hsum : p.start + unit * (h.size p.start + h.size q.start) = q.stop := by
        rw [Nat.mul_add, ← Nat.add_assoc, hsize, hstop, hqsize]
      refine ⟨⟨p.start, q.stop⟩, after, .join q after hstop, hqbound, ?_⟩
      have heq : h.joinNext (last base (starts before)) p.start =
          h.setHeader p.start ⟨h.ptr q.start, h.size p.start + h.size q.start⟩ := by
        simp only [Heap.joinNext]
        rw [hpast, if_pos hjoin, hq', uint_size hsum hqbound]
      rw [heq]
      refine ⟨fun x hx => Function.update_of_ne hx _ _, ?_, ?_, rfl, rfl⟩
      · refine hpath.move ?_ fun x hx => ?_
        · simp [Heap.ptr, Heap.setHeader]
        · simp [Heap.ptr, Heap.setHeader, hne x (List.mem_cons_of_mem _ hx)]
      · simpa [Heap.size, Heap.setHeader] using hsum
  · have halone : ∀ q ∈ after.head?, p.stop ≠ q.start := by
      intro q hq
      cases after with
      | nil => cases hq
      | cons r after =>
        obtain rfl : r = q := Option.some.inj hq
        exact fun he => hjoin (he.trans htail.1.symm)
    refine ⟨p, after, .alone after halone, hb.bound, ?_⟩
    have heq : h.joinNext (last base (starts before)) p.start =
        h.setPtr p.start (h.ptr (last base (starts before))) := by
      simp only [Heap.joinNext]
      rw [hpast, if_neg hjoin]
    rw [heq]
    refine ⟨fun x hx => Function.update_of_ne hx _ _, ?_, ?_, rfl, rfl⟩
    · refine htail.move ?_ fun x hx => ?_
      · simp [Heap.ptr, Heap.setPtr, Heap.setHeader]
      · simp [Heap.ptr, Heap.setPtr, Heap.setHeader, hne x hx]
    · simpa [Heap.size, Heap.setPtr, Heap.setHeader] using hsize

structure Linked (base : Nat) (h h₂ : Heap) (before : List Piece) (p : Piece) : Prop where
  other : ∀ x, x ≠ p.start → x ≠ last base (starts before) → h₂.mem x = h.mem x
  same : h₂.brk = h.brk ∧ h₂.regions = h.regions
  freep : h₂.freep = last base (starts before)

theorem Linked.size_of {h₂ : Heap} (hk : Linked base h h₂ before p) {x : Nat} (h1 : x ≠ p.start)
    (h2 : x ≠ last base (starts before)) : h₂.size x = h.size x := by
  rw [Heap.size, hk.other x h1 h2, Heap.size]

structure Listed (base : Nat) (h : Heap) (before after : List Piece) : Prop where
  ring : ∃ m, Path h.ptr base (starts before ++ m) base
  sorted : (base :: (starts before ++ starts after)).Pairwise (· < ·)
  size : ∀ p ∈ before ++ after, p.start + unit * h.size p.start = p.stop
  zero : h.size base = 0
  bound : ∀ p ∈ before ++ after, p.stop < 2 ^ 32

theorem FreeList.listed {after' : List Piece} (hl : FreeList base h (before ++ after))
    (hs : after'.Sublist after) : Listed base h before after' := by
  have hring := hl.ring
  have hsorted := hl.sorted
  rw [starts_append] at hring hsorted
  have hsub : (before ++ after').Sublist (before ++ after) := hs.append_left before
  refine ⟨⟨_, hring⟩, hsorted.sublist ?_, fun p hp => hl.size p (hsub.subset hp), hl.zero,
    fun p hp => hl.bound p (hsub.subset hp)⟩
  exact ((hs.map Piece.start).append_left (starts before)).cons_cons base

theorem Linked.ring {h₂ : Heap} {l : List Nat} (hk : Linked base h h₂ before p)
    (hl : Listed base h before after) (hb : Between base before p after)
    (ht : Path h₂.ptr (last base (starts before)) l base) :
    Path h₂.ptr base (starts before ++ l) base := by
  obtain ⟨m, hring⟩ := hl.ring
  have hnodup : (base :: (starts before ++ starts after)).Nodup := hl.sorted.imp Nat.ne_of_lt
  refine hring.reroute (fun x hx hne => ?_) (hnodup.sublist (by simp)) ht
  rw [Heap.ptr, hk.other x (Nat.ne_of_lt (hb.before_lt x hx)) hne, Heap.ptr]

theorem Listed.sorted_insert (hl : Listed base h before after)
    (hb : Between base before p after) :
    (base :: (starts before ++ p.start :: starts after)).Pairwise (· < ·) := by
  have hsorted := hl.sorted
  rw [← List.cons_append, List.pairwise_append] at hsorted
  obtain ⟨h1, h2, h3⟩ := hsorted
  rw [← List.cons_append, List.pairwise_append]
  refine ⟨h1, .cons hb.after_gt h2, fun x hx y hy => ?_⟩
  rcases List.mem_cons.mp hy with rfl | hy
  · exact hb.before_lt x hx
  · exact h3 x hx y hy

theorem Linked.alone {h₂ : Heap} (hk : Linked base h h₂ before p)
    (hl : Listed base h before after) (hb : Between base before p after)
    (hptr : h₂.ptr (last base (starts before)) = p.start)
    (hpath : Path h₂.ptr p.start (starts after) base)
    (hsize : p.start + unit * h₂.size p.start = p.stop)
    (hlast : h₂.size (last base (starts before)) = h.size (last base (starts before))) :
    FreeList base h₂ (before ++ p :: after) := by
  have hbefore : ∀ x ∈ base :: starts before, h₂.size x = h.size x := by
    intro x hx
    by_cases he : x = last base (starts before)
    · rw [he, hlast]
    · exact hk.size_of (Nat.ne_of_lt (hb.before_lt x hx)) he
  have hstarts : starts (before ++ p :: after) = starts before ++ p.start :: starts after := by
    simp
  refine ⟨hstarts ▸ hk.ring hl hb ⟨hptr, hpath⟩, hstarts ▸ hl.sorted_insert hb, ?_, ?_, ?_, ?_⟩
  · intro q hq
    rcases List.mem_append.mp hq with hq | hq
    · rw [hbefore q.start (List.mem_cons_of_mem _ (List.mem_map_of_mem hq))]
      exact hl.size q (List.mem_append_left _ hq)
    · rcases List.mem_cons.mp hq with rfl | hq
      · exact hsize
      · have hgt := hb.after q hq
        have hlt := hb.last_lt
        rw [hk.size_of (by omega) (by omega)]
        exact hl.size q (List.mem_append_right _ hq)
  · rw [hbefore base List.mem_cons_self]
    exact hl.zero
  · rw [hk.freep, hstarts, ← List.cons_append]
    exact List.mem_append_left _ (last_mem _ _)
  · intro q hq
    rcases List.mem_append.mp hq with hq | hq
    · exact hl.bound q (List.mem_append_left _ hq)
    · rcases List.mem_cons.mp hq with rfl | hq
      · exact hb.bound
      · exact hl.bound q (List.mem_append_right _ hq)

theorem last_starts (base : Nat) (before : List Piece) (q : Piece) :
    last base (starts (before ++ [q])) = q.start := by
  rw [starts_append]
  exact last_append _ _ _

theorem Linked.joined {h₂ : Heap} {q : Piece} (hk : Linked base h h₂ (before ++ [q]) p)
    (hl : Listed base h (before ++ [q]) after) (hb : Between base (before ++ [q]) p after)
    (hpath : Path h₂.ptr q.start (starts after) base)
    (hsize : q.start + unit * h₂.size q.start = p.stop) :
    FreeList base h₂ (before ++ ⟨q.start, p.stop⟩ :: after) := by
  have hlast := last_starts base before q
  have hstarts : starts (before ++ ⟨q.start, p.stop⟩ :: after) =
      starts (before ++ [q]) ++ starts after := by
    simp
  have hbefore : ∀ x ∈ base :: starts before, h₂.size x = h.size x := by
    intro x hx
    have hlt : x < q.start := by
      have hsorted := hl.sorted
      rw [starts_append, List.append_assoc, ← List.cons_append] at hsorted
      exact (List.pairwise_append.mp hsorted).2.2 x hx q.start (by simp)
    have hlt' := hb.last_lt
    rw [hlast] at hlt'
    exact hk.size_of (by omega) (by omega)
  refine ⟨hstarts ▸ hk.ring hl hb (hlast ▸ hpath), hstarts ▸ hl.sorted, ?_, ?_, ?_, ?_⟩
  · intro r hr
    rcases List.mem_append.mp hr with hr | hr
    · rw [hbefore r.start (List.mem_cons_of_mem _ (List.mem_map_of_mem hr))]
      exact hl.size r (by simp [hr])
    · rcases List.mem_cons.mp hr with rfl | hr
      · exact hsize
      · have hgt := hb.after r hr
        have hlt := hb.last_lt
        rw [hk.size_of (by omega) (by omega)]
        exact hl.size r (by simp [hr])
  · rw [hbefore base List.mem_cons_self]
    exact hl.zero
  · rw [hk.freep, hstarts, ← List.cons_append]
    exact List.mem_append_left _ (last_mem _ _)
  · intro r hr
    rcases List.mem_append.mp hr with hr | hr
    · exact hl.bound r (by simp [hr])
    · rcases List.mem_cons.mp hr with rfl | hr
      · exact hb.bound
      · exact hl.bound r (by simp [hr])

theorem Listed.joinPrev {h₁ : Heap} (hl : Listed base h before after)
    (hb : Between base before p after) (hd : NextDone base h h₁ p after) :
    ∃ p' before' h₂, JoinsPrev p before p' before' ∧
      h₂ = { h₁.joinPrev (last base (starts before)) p.start with
        freep := last base (starts before) } ∧
      Linked base h h₂ before p ∧ FreeList base h₂ (before' ++ p' :: after) := by
  have hlt := hb.last_lt
  have hlast : h₁.mem (last base (starts before)) = h.mem (last base (starts before)) :=
    hd.other _ (Nat.ne_of_lt hlt)
  have hafter : ∀ x ∈ p.start :: starts after, x ≠ last base (starts before) := by
    intro x hx
    rcases List.mem_cons.mp hx with rfl | hx
    · omega
    · have := hb.after_gt x hx
      omega
  have hlinked : ∀ x : Header, Linked base h { h₁.setHeader (last base (starts before)) x with
      freep := last base (starts before) } before p := by
    intro x
    refine ⟨fun y h1 h2 => ?_, hd.same, rfl⟩
    exact (Function.update_of_ne h2 _ _).trans (hd.other y h1)
  have halone : past (last base (starts before)) (h₁.size (last base (starts before))) ≠ p.start →
      FreeList base { h₁.joinPrev (last base (starts before)) p.start with
        freep := last base (starts before) } (before ++ p :: after) := by
    intro hne
    rw [Heap.joinPrev, if_neg hne]
    refine (hlinked _).alone hl hb ?_ ?_ ?_ ?_
    · simp [Heap.ptr, Heap.setHeader]
    · refine hd.path.congr fun x hx => ?_
      simp [Heap.ptr, Heap.setHeader, hafter x hx]
    · simpa [Heap.size, Heap.setHeader, Ne.symm (Nat.ne_of_lt hlt)] using hd.size
    · simp [Heap.size, Heap.setHeader, hlast]
  have hlinks : Linked base h { h₁.joinPrev (last base (starts before)) p.start with
      freep := last base (starts before) } before p := by
    unfold Heap.joinPrev
    split_ifs
    · exact hlinked _
    · exact hlinked _
  rcases List.eq_nil_or_concat before with rfl | ⟨l, q, rfl⟩
  · have hbase : base < 2 ^ 32 := hb.base.trans (hb.proper.trans hb.bound)
    have hsize : h₁.size base = 0 := (congrArg Header.size hlast).trans hl.zero
    refine ⟨p, [], _, .alone [] (by simp), rfl, hlinks, halone ?_⟩
    rw [starts, List.map_nil, last_nil, hsize, past_eq (s := base) (by simp) hbase]
    exact Nat.ne_of_lt hb.base
  · rw [List.concat_eq_append] at *
    have hq := hl.size q (by simp)
    rw [last_starts] at *
    have hsize : h₁.size q.start = h.size q.start := congrArg Header.size hlast
    have hpast : past q.start (h₁.size q.start) = q.stop := by
      rw [hsize]
      exact past_eq hq (hl.bound q (by simp))
    by_cases hjoin : q.stop = p.start
    · have hsum : q.start + unit * (h₁.size q.start + h₁.size p.start) = p.stop := by
        rw [Nat.mul_add, ← Nat.add_assoc, hsize, hq, hjoin, hd.size]
      have heq : h₁.joinPrev q.start p.start =
          h₁.setHeader q.start ⟨h₁.ptr p.start, h₁.size q.start + h₁.size p.start⟩ := by
        rw [Heap.joinPrev, hpast, if_pos hjoin, uint_size hsum hb.bound]
      refine ⟨⟨q.start, p.stop⟩, l, _, .join q l hjoin, rfl, hlinks, ?_⟩
      refine hlinks.joined hl hb ?_ ?_
      · rw [heq]
        refine hd.path.move ?_ fun x hx => ?_
        · simp [Heap.ptr, Heap.setHeader]
        · simp [Heap.ptr, Heap.setHeader, hafter x (List.mem_cons_of_mem _ hx)]
      · rw [heq]
        simpa [Heap.size, Heap.setHeader] using hsum
    · refine ⟨p, l ++ [q], _, .alone _ ?_, rfl, hlinks, halone (hpast ▸ hjoin)⟩
      intro r hr
      obtain rfl : q = r := by simpa using hr
      exact hjoin

theorem FreeList.free (hl : FreeList base h (before ++ after)) (hb : Between base before p after)
    (hsize : p.start + unit * h.size p.start = p.stop)
    (hproper : ∀ q ∈ after, q.start < q.stop) {k : Nat} (hk : (before ++ after).length + 1 < k) :
    ∃ p' after' p'' before' h₂, JoinsNext p after p' after' ∧ JoinsPrev p' before p'' before' ∧
      h.free k (past p.start 1) = some h₂ ∧ Linked base h h₂ before p ∧
      FreeList base h₂ (before' ++ p'' :: after') := by
  obtain ⟨p', after', hnext, hbound, hdone⟩ := hl.joinNext hb hsize
  have hstart := hnext.start
  have hb' : Between base before p' after' := by
    refine ⟨hstart ▸ hb.base, hstart ▸ hb.before, ?_, ?_, hbound⟩
    · intro q hq
      exact hstart ▸ hb.after q (hnext.sublist.subset hq)
    · exact hnext.proper hb.proper hproper
  obtain ⟨p'', before', h₂, hprev, rfl, hlinks, hfree⟩ :=
    (hl.listed hnext.sublist).joinPrev hb' hdone
  refine ⟨p', after', p'', before', _, hnext, hprev, ?_, ?_, hfree⟩
  · have hlt : p.start + unit < 2 ^ 32 := by
      have := hb.proper
      have := hb.bound
      unfold unit at hsize ⊢
      omega
    have hbp : uint (past p.start 1 + 2 ^ 32 - unit) = p.start := by
      rw [past_eq (Nat.mul_one unit ▸ rfl) hlt, uint]
      unfold unit
      omega
    rw [Heap.free, hbp, hl.search hb hk, hstart]
    rfl
  · exact ⟨fun x h1 h2 => hlinks.other x (hstart ▸ h1) h2, hlinks.same, hlinks.freep⟩

end Free

end Xv6.Umalloc
