import Mathlib.Tactic

namespace Lines

variable {α : Type*} [DecidableEq α] {sep : α} {s t l : List α}

def split (sep : α) : List α → List (List α) × List α
  | [] => ([], [])
  | x :: s =>
    if x = sep then ([] :: (split sep s).1, (split sep s).2)
    else match (split sep s).1 with
      | [] => ([], x :: (split sep s).2)
      | l :: ls => ((x :: l) :: ls, (split sep s).2)

def lines (sep : α) (s : List α) : List (List α) := (split sep s).1

def rest (sep : α) (s : List α) : List α := (split sep s).2

theorem split_open (h : sep ∉ t) : split sep t = ([], t) := by
  induction t with
  | nil => rfl
  | cons x t ih =>
    obtain ⟨hx, ht⟩ := not_or.mp (mt List.mem_cons.mpr h)
    rw [split, if_neg (Ne.symm hx), ih ht]

theorem split_line (h : sep ∉ l) (s : List α) :
    split sep (l ++ sep :: s) = (l :: lines sep s, rest sep s) := by
  induction l with
  | nil => simp [split, lines, rest]
  | cons x l ih =>
    obtain ⟨hx, hl⟩ := not_or.mp (mt List.mem_cons.mpr h)
    rw [List.cons_append, split, if_neg (Ne.symm hx), ih hl]

theorem lines_open (h : sep ∉ t) : lines sep t = [] := congrArg Prod.fst (split_open h)

theorem rest_open (h : sep ∉ t) : rest sep t = t := congrArg Prod.snd (split_open h)

theorem lines_line (h : sep ∉ l) (s : List α) : lines sep (l ++ sep :: s) = l :: lines sep s :=
  congrArg Prod.fst (split_line h s)

theorem rest_line (h : sep ∉ l) (s : List α) : rest sep (l ++ sep :: s) = rest sep s := by
  rw [rest, split_line h s]

omit [DecidableEq α] in
theorem exists_line (h : sep ∈ s) : ∃ l t, sep ∉ l ∧ s = l ++ sep :: t := by
  obtain ⟨l, t, heq, hl⟩ := List.eq_append_cons_of_mem h
  exact ⟨l, t, hl, heq⟩

theorem induction_on (sep : α) {P : List α → Prop} (hopen : ∀ t, sep ∉ t → P t)
    (hline : ∀ l s, sep ∉ l → P s → P (l ++ sep :: s)) (s : List α) : P s := by
  induction hn : s.length using Nat.strong_induction_on generalizing s with
  | _ n ih =>
    by_cases h : sep ∈ s
    · obtain ⟨l, t, hl, rfl⟩ := exists_line h
      rw [List.length_append, List.length_cons] at hn
      exact hline l t hl (ih t.length (by omega) t rfl)
    · exact hopen s h

theorem sep_not_mem_rest (s : List α) : sep ∉ rest sep s := by
  induction s using induction_on sep with
  | hopen t ht => rwa [rest_open ht]
  | hline l s hl ih => rwa [rest_line hl]

theorem lines_append (s t : List α) :
    lines sep (s ++ t) = lines sep s ++ lines sep (rest sep s ++ t) := by
  induction s using induction_on sep with
  | hopen s hs => rw [lines_open hs, rest_open hs, List.nil_append]
  | hline l s hl ih =>
    rw [List.append_assoc, List.cons_append, lines_line hl, lines_line hl, rest_line hl, ih,
      List.cons_append]

theorem join_lines (sep : α) (s : List α) :
    (lines sep s).flatMap (· ++ [sep]) ++ rest sep s = s := by
  induction s using induction_on sep with
  | hopen s hs => rw [lines_open hs, rest_open hs]; rfl
  | hline l s hl ih =>
    rw [lines_line hl, rest_line hl, List.flatMap_cons, List.append_assoc, ih]
    simp

theorem first_line_unique {l l' s s' : List α} (hl : sep ∉ l) (hl' : sep ∉ l')
    (h : l ++ sep :: s = l' ++ sep :: s') : l = l' := by
  have heq := congrArg (lines sep) h
  rw [lines_line hl, lines_line hl'] at heq
  exact (List.cons.inj heq).1

end Lines
