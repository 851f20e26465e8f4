import Mathlib.Data.List.Pairwise
import Mathlib.Order.Interval.Set.Basic
import Mathlib.Tactic

namespace Tiling

structure Piece where
  start : Nat
  stop : Nat
  deriving DecidableEq, Repr

def Piece.points (p : Piece) : Set Nat := Set.Ico p.start p.stop

def points (l : List Piece) : Set Nat := {x | ∃ p ∈ l, x ∈ p.points}

def Apart (p q : Piece) : Prop := p.stop ≤ q.start ∨ q.stop ≤ p.start

structure Tiles (l : List Piece) (M : Set Nat) : Prop where
  proper : ∀ p ∈ l, p.start < p.stop
  apart : l.Pairwise Apart
  cover : points l = M

variable {l m : List Piece} {M : Set Nat} {p q r : Piece}

theorem points_cons (p : Piece) (l : List Piece) : points (p :: l) = p.points ∪ points l := by
  ext x
  simp [points]

theorem points_perm (h : l.Perm m) : points l = points m := by
  ext x
  simp [points, h.mem_iff]

theorem tiles_nil : Tiles [] ∅ where
  proper _ h := absurd h List.not_mem_nil
  apart := .nil
  cover := by
    ext x
    simp [points]

theorem Tiles.perm (h : Tiles l M) (hp : l.Perm m) : Tiles m M where
  proper p hm := h.proper p (hp.mem_iff.mpr hm)
  apart := (hp.pairwise_iff fun h => h.symm).mp h.apart
  cover := (points_perm hp).symm.trans h.cover

theorem Tiles.eq_of_mem {x : Nat} (h : Tiles l M) (hp : p ∈ l) (hq : q ∈ l) (hxp : x ∈ p.points)
    (hxq : x ∈ q.points) : p = q := by
  by_contra hne
  have hsymm : Std.Symm Apart := ⟨fun _ _ h => h.symm⟩
  have hp1 : p.start ≤ x ∧ x < p.stop := hxp
  have hq1 : q.start ≤ x ∧ x < q.stop := hxq
  rcases h.apart.forall hp hq hne with h1 | h1 <;> omega

theorem Tiles.cons (h : Tiles l M) (hp : p.start < p.stop) (ha : ∀ q ∈ l, Apart p q) :
    Tiles (p :: l) (M ∪ p.points) where
  proper q hq := by
    rcases List.mem_cons.mp hq with rfl | hq
    · exact hp
    · exact h.proper q hq
  apart := .cons ha h.apart
  cover := by rw [points_cons, h.cover, Set.union_comm]

theorem points_join (hp : p.start < p.stop) (hq : q.start < q.stop) (hj : p.stop = q.start) :
    (Piece.mk p.start q.stop).points = p.points ∪ q.points := by
  unfold Piece.points
  rw [← hj, Set.Ico_union_Ico_eq_Ico (by omega) (by omega)]

theorem Tiles.join (h : Tiles (p :: q :: l) M) (hj : p.stop = q.start) :
    Tiles (⟨p.start, q.stop⟩ :: l) M := by
  have hp := h.proper p List.mem_cons_self
  have hq := h.proper q (List.mem_cons_of_mem _ List.mem_cons_self)
  obtain ⟨hpl, hql⟩ := List.pairwise_cons.mp h.apart
  obtain ⟨hq', hl⟩ := List.pairwise_cons.mp hql
  refine ⟨fun r hr => ?_, .cons (fun r hr => ?_) hl, ?_⟩
  · rcases List.mem_cons.mp hr with rfl | hr
    · dsimp only
      omega
    · exact h.proper r (List.mem_cons_of_mem _ (List.mem_cons_of_mem _ hr))
  · have h1 := hpl r (List.mem_cons_of_mem _ hr)
    have h2 := hq' r hr
    have h3 := h.proper r (List.mem_cons_of_mem _ (List.mem_cons_of_mem _ hr))
    unfold Apart at h1 h2 ⊢
    dsimp only
    omega
  · rw [← h.cover, points_cons, points_cons, points_cons, points_join hp hq hj, Set.union_assoc]

theorem Tiles.split {s : Nat} (h : Tiles (p :: l) M) (h1 : p.start < s) (h2 : s < p.stop) :
    Tiles (⟨p.start, s⟩ :: ⟨s, p.stop⟩ :: l) M := by
  obtain ⟨hpl, hl⟩ := List.pairwise_cons.mp h.apart
  refine ⟨fun r hr => ?_, .cons (fun r hr => ?_) (.cons (fun r hr => ?_) hl), ?_⟩
  · rcases List.mem_cons.mp hr with rfl | hr
    · exact h1
    · rcases List.mem_cons.mp hr with rfl | hr
      · exact h2
      · exact h.proper r (List.mem_cons_of_mem _ hr)
  · rcases List.mem_cons.mp hr with rfl | hr
    · exact .inl (Nat.le_refl s)
    · have := hpl r hr
      unfold Apart at this ⊢
      dsimp only
      omega
  · have := hpl r hr
    unfold Apart at this ⊢
    dsimp only
    omega
  · rw [← h.cover, points_cons, points_cons, points_cons, ← Set.union_assoc,
      ← points_join (p := ⟨p.start, s⟩) (q := ⟨s, p.stop⟩) h1 h2 rfl]

def Spaced (l : List Piece) : Prop := l.Pairwise fun p q => p.stop < q.start

theorem Spaced.shrink {s : Nat} (h : Spaced (l ++ p :: m)) (hs : s ≤ p.stop) :
    Spaced (l ++ ⟨p.start, s⟩ :: m) := by
  obtain ⟨hl, hpm, hlpm⟩ := List.pairwise_append.mp h
  obtain ⟨hp, hm⟩ := List.pairwise_cons.mp hpm
  refine List.pairwise_append.mpr ⟨hl, .cons (fun q hq => ?_) hm, fun q hq r hr => ?_⟩
  · exact lt_of_le_of_lt hs (hp q hq)
  · rcases List.mem_cons.mp hr with rfl | hr
    · exact hlpm q hq p List.mem_cons_self
    · exact hlpm q hq r (List.mem_cons_of_mem _ hr)

inductive JoinsNext (p : Piece) : List Piece → Piece → List Piece → Prop
  | join (q : Piece) (l : List Piece) (h : p.stop = q.start) :
      JoinsNext p (q :: l) ⟨p.start, q.stop⟩ l
  | alone (l : List Piece) (h : ∀ q ∈ l.head?, p.stop ≠ q.start) : JoinsNext p l p l

inductive JoinsPrev (p : Piece) : List Piece → Piece → List Piece → Prop
  | join (q : Piece) (l : List Piece) (h : q.stop = p.start) :
      JoinsPrev p (l ++ [q]) ⟨q.start, p.stop⟩ l
  | alone (l : List Piece) (h : ∀ q ∈ l.getLast?, q.stop ≠ p.start) : JoinsPrev p l p l

section Insert

variable {before after before' after' : List Piece} {p' : Piece}

theorem JoinsNext.start (h : JoinsNext p after p' after') : p'.start = p.start := by
  cases h <;> rfl

theorem JoinsNext.sublist (h : JoinsNext p after p' after') : after'.Sublist after := by
  cases h with
  | join q => exact List.sublist_cons_self _ _
  | alone => exact .refl _

theorem JoinsNext.proper (h : JoinsNext p after p' after') (hp : p.start < p.stop)
    (ha : ∀ q ∈ after, q.start < q.stop) : p'.start < p'.stop := by
  cases h with
  | join q l h =>
    have hq := ha q List.mem_cons_self
    dsimp only
    omega
  | alone => exact hp

theorem JoinsNext.tiles {rest : List Piece} (h : JoinsNext p after p' after')
    (ht : Tiles (p :: (after ++ rest)) M) : Tiles (p' :: (after' ++ rest)) M := by
  cases h with
  | join q l h => exact ht.join h
  | alone => exact ht

theorem JoinsPrev.tiles {rest : List Piece} (h : JoinsPrev p before p' before')
    (ht : Tiles (p :: (before ++ rest)) M) : Tiles (p' :: (before' ++ rest)) M := by
  cases h with
  | join q l h =>
    refine Tiles.join (p := q) (ht.perm ?_) h
    rw [List.append_assoc]
    refine (List.perm_middle.cons p).trans ?_
    exact List.Perm.swap q p _
  | alone => exact ht

theorem JoinsPrev.covers (hj : JoinsPrev p before p' before')
    (hproper : ∀ q ∈ before, q.start < q.stop) :
    p'.start ≤ p.start ∧ p'.stop = p.stop := by
  cases hj with
  | join q l hq =>
    have := hproper q (by simp)
    exact ⟨by dsimp only; omega, rfl⟩
  | alone => exact ⟨le_rfl, rfl⟩

theorem JoinsNext.covers (hj : JoinsNext p after p' after')
    (hproper : ∀ q ∈ after, q.start < q.stop) :
    p'.start = p.start ∧ p.stop ≤ p'.stop := by
  cases hj with
  | join q l hq =>
    have := hproper q (by simp)
    exact ⟨rfl, by dsimp only; omega⟩
  | alone => exact ⟨rfl, le_rfl⟩

theorem JoinsPrev.length_le (hj : JoinsPrev p before p' before') :
    before'.length ≤ before.length := by
  cases hj with
  | join q => simp
  | alone => exact le_rfl

theorem gap_after {s : Nat} (hs : Spaced after) (hproper : ∀ q ∈ after, q.start < q.stop)
    (hle : ∀ q ∈ after, s ≤ q.start) (hne : ∀ q ∈ after.head?, s ≠ q.start) :
    ∀ q ∈ after, s < q.start := by
  intro q hq
  cases after with
  | nil => exact absurd hq List.not_mem_nil
  | cons r l =>
    have hr := Nat.lt_of_le_of_ne (hle r List.mem_cons_self) (hne r rfl)
    rcases List.mem_cons.mp hq with rfl | hq
    · exact hr
    · have hrq := (List.pairwise_cons.mp hs).1 q hq
      have hproper := hproper r List.mem_cons_self
      omega

theorem gap_before {s : Nat} (hs : Spaced before) (hproper : ∀ q ∈ before, q.start < q.stop)
    (hle : ∀ q ∈ before, q.stop ≤ s) (hne : ∀ q ∈ before.getLast?, q.stop ≠ s) :
    ∀ q ∈ before, q.stop < s := by
  intro q hq
  rcases List.eq_nil_or_concat before with rfl | ⟨l, r, rfl⟩
  · exact absurd hq List.not_mem_nil
  · rw [List.concat_eq_append] at *
    have hmem : r ∈ l ++ [r] := List.mem_append_right _ (List.mem_singleton.mpr rfl)
    have hr := Nat.lt_of_le_of_ne (hle r hmem) (hne r (by simp))
    rcases List.mem_append.mp hq with hq | hq
    · have hqr := (List.pairwise_append.mp hs).2.2 q hq r (List.mem_singleton.mpr rfl)
      have hproper := hproper r hmem
      omega
    · rwa [List.mem_singleton.mp hq]

theorem spaced_joined (hs : Spaced (before ++ after))
    (hproper : ∀ q ∈ before ++ after, q.start < q.stop)
    (hbefore : ∀ q ∈ before, q.stop ≤ p.start) (hafter : ∀ q ∈ after, p.stop ≤ q.start)
    {p'' : Piece} (hn : JoinsNext p after p' after') (hl : JoinsPrev p' before p'' before') :
    Spaced (before' ++ p'' :: after') := by
  obtain ⟨hb, ha, hba⟩ := List.pairwise_append.mp hs
  have hright : Spaced after' ∧ (∀ q ∈ after', p'.stop < q.start) ∧ p'.start = p.start ∧
      ∀ q ∈ after', q ∈ after := by
    cases hn with
    | join q l h =>
      obtain ⟨hql, hl⟩ := List.pairwise_cons.mp ha
      exact ⟨hl, hql, rfl, fun r hr => List.mem_cons_of_mem _ hr⟩
    | alone _ h =>
      have hgap := gap_after ha (fun q hq => hproper q (List.mem_append_right _ hq)) hafter h
      exact ⟨ha, hgap, rfl, fun q hq => hq⟩
  obtain ⟨ha', hgap, hstart, hsub⟩ := hright
  cases hl with
  | join q l h =>
    obtain ⟨hl, -, hlq⟩ := List.pairwise_append.mp hb
    refine List.pairwise_append.mpr ⟨hl, .cons hgap ha', fun r hr t ht => ?_⟩
    rcases List.mem_cons.mp ht with rfl | ht
    · exact hlq r hr q (List.mem_singleton.mpr rfl)
    · exact hba r (List.mem_append_left _ hr) t (hsub t ht)
  | alone _ h =>
    refine List.pairwise_append.mpr ⟨hb, .cons hgap ha', fun r hr t ht => ?_⟩
    rcases List.mem_cons.mp ht with rfl | ht
    · exact gap_before hb (fun q hq => hproper q (List.mem_append_left _ hq))
        (fun q hq => hstart ▸ hbefore q hq) h r hr
    · exact hba r hr t (hsub t ht)

end Insert

end Tiling
