import Mathlib.Data.List.FinRange
import Mathlib.Tactic

namespace SlotScan

variable {n : Nat}

def firstSlot (P : Fin n → Bool) : Option (Fin n) := (List.finRange n).find? P

theorem firstSlot_some {P : Fin n → Bool} {i : Fin n} (h : firstSlot P = some i) : P i = true :=
  List.find?_some h

theorem firstSlot_none {P : Fin n → Bool} : firstSlot P = none ↔ ∀ i, P i = false := by
  simp [firstSlot, List.find?_eq_none]

theorem firstSlot_unique {P : Fin n → Bool} {i : Fin n} (hi : P i = true)
    (hu : ∀ j, P j = true → j = i) : firstSlot P = some i := by
  cases h : firstSlot P with
  | none => simp [firstSlot_none.mp h i] at hi
  | some j => rw [hu j (firstSlot_some h)]

theorem firstSlot_le {P : Fin n → Bool} {i j : Fin n} (h : firstSlot P = some i)
    (hj : P j = true) : i ≤ j := by
  obtain ⟨-, before, after, heq, hbefore⟩ := List.find?_eq_some_iff_append.mp h
  have hmem : j ∈ before ++ i :: after := heq ▸ List.mem_finRange j
  have hsorted : (before ++ i :: after).Pairwise (· < ·) := heq ▸ List.pairwise_lt_finRange n
  rcases List.mem_append.mp hmem with hj' | hj'
  · simpa [hj] using hbefore j hj'
  · rcases List.mem_cons.mp hj' with rfl | hj'
    · exact le_rfl
    · exact ((List.pairwise_cons.mp (List.pairwise_append.mp hsorted).2.1).1 j hj').le

end SlotScan
