import Mathlib.Data.List.Basic
import Mathlib.Data.List.Nodup

namespace LinkedPath

open List

variable {A : Type} {next next' : A → A} {a b c x y : A} {l m : List A}

def Path (next : A → A) : A → List A → A → Prop
  | a, [], b => next a = b
  | a, c :: l, b => next a = c ∧ Path next c l b

def last (a : A) (l : List A) : A := (a :: l).getLast (List.cons_ne_nil a l)

theorem last_nil (a : A) : last a [] = a := rfl

theorem last_cons (a c : A) (l : List A) : last a (c :: l) = last c l := by
  rw [last, last, List.getLast_cons (List.cons_ne_nil c l)]

theorem last_append (a c : A) (l : List A) : last a (l ++ [c]) = c := by
  rw [last]
  simp

theorem last_mem (a : A) (l : List A) : last a l ∈ a :: l := List.getLast_mem _

theorem path_append : Path next a (l ++ c :: m) b ↔ Path next a l c ∧ Path next c m b := by
  induction l generalizing a with
  | nil => rfl
  | cons d l ih =>
    change next a = d ∧ Path next d (l ++ c :: m) b ↔ (next a = d ∧ Path next d l c) ∧ _
    rw [ih, and_assoc]

theorem Path.congr (h : Path next a l b) (hn : ∀ x ∈ a :: l, next' x = next x) :
    Path next' a l b := by
  induction l generalizing a with
  | nil => exact (hn a List.mem_cons_self).trans h
  | cons c l ih =>
    exact ⟨(hn a List.mem_cons_self).trans h.1,
      ih h.2 fun x hx => hn x (List.mem_cons_of_mem a hx)⟩

theorem Path.move (h : Path next a l b) (hc : next' c = next a) (hn : ∀ x ∈ l, next' x = next x) :
    Path next' c l b := by
  cases l with
  | nil => exact hc.trans h
  | cons d l => exact ⟨hc.trans h.1, h.2.congr hn⟩

theorem Path.tail (h : Path next a (l ++ m) b) : Path next (last a l) m b := by
  induction l generalizing a with
  | nil => exact h
  | cons c l ih =>
    rw [last_cons]
    exact ih h.2

theorem Path.reroute (h : Path next a (l ++ m) b) {m' : List A} {b' : A}
    (hn : ∀ x ∈ a :: l, x ≠ last a l → next' x = next x) (hd : (a :: l).Nodup)
    (ht : Path next' (last a l) m' b') : Path next' a (l ++ m') b' := by
  induction l generalizing a with
  | nil => exact ht
  | cons c l ih =>
    rw [last_cons] at hn ht
    have ha : a ≠ last c l := by
      intro he
      exact (List.nodup_cons.mp hd).1 (he ▸ last_mem c l)
    refine ⟨(hn a List.mem_cons_self ha).trans h.1, ih h.2 (fun x hx hne => ?_) hd.of_cons ht⟩
    exact hn x (List.mem_cons_of_mem a hx) hne

theorem Path.rotate (h : Path next a (l ++ c :: m) a) : Path next c (m ++ a :: l) c :=
  path_append.mpr (path_append.mp h).symm

theorem Path.around (h : Path next a l a) (hc : c ∈ a :: l) :
    ∃ m, Path next c m c ∧ (c :: m).Perm (a :: l) := by
  rcases List.mem_cons.mp hc with rfl | hc
  · exact ⟨l, h, .refl _⟩
  · obtain ⟨l₁, l₂, rfl⟩ := List.append_of_mem hc
    refine ⟨l₂ ++ a :: l₁, h.rotate, ?_⟩
    calc c :: (l₂ ++ a :: l₁)
      _ = (c :: l₂) ++ (a :: l₁) := rfl
      _ ~ (a :: l₁) ++ (c :: l₂) := List.perm_append_comm

theorem Path.next_mem (h : Path next a l b) (hx : x ∈ a :: l) : next x ∈ l ++ [b] := by
  induction l generalizing a with
  | nil =>
    obtain rfl := List.mem_singleton.mp hx
    exact List.mem_singleton.mpr h
  | cons c l ih =>
    rcases List.mem_cons.mp hx with rfl | hx
    · rw [h.1]
      exact List.mem_cons_self
    · exact List.mem_cons_of_mem c (ih h.2 hx)

theorem Path.injective (h : Path next a l b) (hd : (l ++ [b]).Nodup) (hx : x ∈ a :: l)
    (hy : y ∈ a :: l) (he : next x = next y) : x = y := by
  induction l generalizing a with
  | nil => rw [List.mem_singleton.mp hx, List.mem_singleton.mp hy]
  | cons c l ih =>
    have hc : ∀ z ∈ c :: l, next z ≠ c := by
      intro z hz he
      exact (List.nodup_cons.mp hd).1 (he ▸ h.2.next_mem hz)
    rcases List.mem_cons.mp hx with rfl | hx'
    · rcases List.mem_cons.mp hy with rfl | hy'
      · rfl
      · exact absurd (he.symm.trans h.1) (hc y hy')
    · rcases List.mem_cons.mp hy with rfl | hy'
      · exact absurd (he.trans h.1) (hc x hx')
      · exact ih h.2 hd.of_cons hx' hy'

end LinkedPath
