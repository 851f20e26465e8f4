import Mathlib.Data.List.Range
import Mathlib.Logic.Function.Basic
import Mathlib.Tactic

namespace KeyedSlots

variable {K V : Type} {t t' : Nat → Option (K × V)} {n n' i : Nat} {k : K} {x : V}

def Distinct (t : Nat → Option (K × V)) (n : Nat) : Prop :=
  ∀ i j k x y, i < n → j < n → t i = some (k, x) → t j = some (k, y) → i = j

def vacant (t : Nat → Option (K × V)) (n : Nat) : Nat :=
  ((List.range n).find? fun i => (t i).isNone).getD n

theorem vacant_le (t : Nat → Option (K × V)) (n : Nat) : vacant t n ≤ n := by
  unfold vacant
  cases h : (List.range n).find? fun i => (t i).isNone with
  | none => exact le_rfl
  | some i =>
    have hlt := (List.find?_range_eq_some.mp h).2.1
    exact (List.mem_range.mp hlt).le

theorem vacant_none (h : vacant t n < n) : t (vacant t n) = none := by
  unfold vacant at *
  cases hf : (List.range n).find? fun i => (t i).isNone with
  | none =>
    rw [hf] at h
    exact absurd h (lt_irrefl n)
  | some i =>
    have hi := (List.find?_range_eq_some.mp hf).1
    exact Option.isNone_iff_eq_none.mp hi

structure Sets (t t' : Nat → Option (K × V)) (n n' i : Nat) (e : Option (K × V)) : Prop where
  size : n' = max n (i + 1)
  here : t' i = e
  other : ∀ j < n, j ≠ i → t' j = t j

theorem Sets.cases {e : Option (K × V)} (h : Sets t t' n n' i e) (hi : i ≤ n) {j : Nat}
    (hj : j < n') : j = i ∧ t' j = e ∨ j ≠ i ∧ j < n ∧ t' j = t j := by
  have hsize := h.size
  by_cases heq : j = i
  · exact Or.inl ⟨heq, heq ▸ h.here⟩
  · have hlt : j < n := by omega
    exact Or.inr ⟨heq, hlt, h.other j hlt heq⟩

theorem Sets.mem {e : Option (K × V)} (h : Sets t t' n n' i e) {j : Nat} (hj : j < n)
    (hne : j ≠ i) : j < n' ∧ t' j = t j :=
  ⟨by have := h.size; omega, h.other j hj hne⟩

theorem Distinct.congr (hd : Distinct t n) (h : ∀ i < n, t' i = t i) : Distinct t' n := by
  intro i j k x y hi hj hx hy
  rw [h i hi] at hx
  rw [h j hj] at hy
  exact hd i j k x y hi hj hx hy

variable [DecidableEq K]

def holds (t : Nat → Option (K × V)) (k : K) (i : Nat) : Bool :=
  (t i).any fun e => decide (e.1 = k)

def index (t : Nat → Option (K × V)) (n : Nat) (k : K) : Option Nat :=
  (List.range n).find? (holds t k)

def lookup (t : Nat → Option (K × V)) (n : Nat) (k : K) : Option V :=
  (index t n k).bind fun i => (t i).map Prod.snd

theorem holds_iff : holds t k i = true ↔ ∃ x, t i = some (k, x) := by
  unfold holds
  cases t i with
  | none => simp
  | some e => simp [Prod.ext_iff]

theorem index_some (h : index t n k = some i) : i < n ∧ ∃ x, t i = some (k, x) := by
  obtain ⟨hi, hlt, -⟩ := List.find?_range_eq_some.mp h
  exact ⟨List.mem_range.mp hlt, holds_iff.mp hi⟩

theorem index_none : index t n k = none ↔ ∀ i < n, ∀ x, t i ≠ some (k, x) := by
  unfold index
  rw [List.find?_eq_none]
  refine ⟨fun h i hi x hx => h i (List.mem_range.mpr hi) (holds_iff.mpr ⟨x, hx⟩),
    fun h i hi hx => ?_⟩
  obtain ⟨x, hx⟩ := holds_iff.mp hx
  exact h i (List.mem_range.mp hi) x hx

theorem index_congr (h : ∀ i < n, t' i = t i) : index t' n = index t n := by
  funext k
  refine List.find?_congr fun i hi => ?_
  rw [holds, holds, h i (List.mem_range.mp hi)]

theorem lookup_congr (h : ∀ i < n, t' i = t i) : lookup t' n = lookup t n := by
  funext k
  rw [lookup, lookup, index_congr h]
  cases hi : index t n k with
  | none => rfl
  | some i => simp only [Option.bind_some, h i (index_some hi).1]

theorem lookup_none : lookup t n k = none ↔ index t n k = none := by
  unfold lookup
  cases h : index t n k with
  | none => simp
  | some i =>
    obtain ⟨-, x, hx⟩ := index_some h
    simp [hx]

theorem lookup_some (hd : Distinct t n) : lookup t n k = some x ↔ ∃ i < n, t i = some (k, x) := by
  constructor
  · intro h
    obtain ⟨i, hi, hx⟩ := Option.bind_eq_some_iff.mp h
    obtain ⟨hlt, y, hy⟩ := index_some hi
    rw [hy] at hx
    obtain rfl : y = x := by simpa using hx
    exact ⟨i, hlt, hy⟩
  · rintro ⟨i, hi, hx⟩
    cases h : index t n k with
    | none => exact absurd hx (index_none.mp h i hi x)
    | some j =>
      obtain ⟨hj, y, hy⟩ := index_some h
      obtain rfl := hd i j k x y hi hj hx hy
      simp [lookup, h, hx]

theorem Sets.distinct {e : Option (K × V)} (h : Sets t t' n n' i e) (hi : i ≤ n)
    (hd : Distinct t n) (he : ∀ k x, e = some (k, x) → index t n k = none) : Distinct t' n' := by
  intro a b k x y ha hb hx hy
  rcases h.cases hi ha with ⟨rfl, hta⟩ | ⟨hai, halt, hta⟩ <;>
    rcases h.cases hi hb with ⟨rfl, htb⟩ | ⟨hbi, hblt, htb⟩
  · rfl
  · rw [hta] at hx
    exact absurd (htb ▸ hy) (index_none.mp (he k x hx) b hblt y)
  · rw [htb] at hy
    exact absurd (hta ▸ hx) (index_none.mp (he k y hy) a halt x)
  · exact hd a b k x y halt hblt (hta ▸ hx) (htb ▸ hy)

theorem lookup_ext {m : K → Option V} (hd : Distinct t n)
    (h : ∀ k x, (∃ i < n, t i = some (k, x)) ↔ m k = some x) : lookup t n = m := by
  funext k
  exact Option.ext fun x => (lookup_some hd).trans (h k x)

theorem Sets.insert (h : Sets t t' n n' (vacant t n) (some (k, x))) (hd : Distinct t n)
    (hk : index t n k = none) :
    Distinct t' n' ∧ lookup t' n' = Function.update (lookup t n) k (some x) := by
  have hle := vacant_le t n
  have hd' : Distinct t' n' := h.distinct hle hd fun k' x' he => by
    obtain ⟨rfl, -⟩ := Prod.mk.inj (Option.some.inj he)
    exact hk
  refine ⟨hd', lookup_ext hd' fun k' x' => ?_⟩
  rw [Function.update_apply]
  split
  · next heq =>
    subst heq
    constructor
    · rintro ⟨j, hj, hx⟩
      rcases h.cases hle hj with ⟨-, htj⟩ | ⟨-, hlt, htj⟩
      · rw [htj] at hx
        exact congrArg some (Prod.mk.inj (Option.some.inj hx)).2
      · exact absurd (htj ▸ hx) (index_none.mp hk j hlt x')
    · intro hx
      exact ⟨vacant t n, by have := h.size; omega, by rw [h.here, Option.some.inj hx]⟩
  · next hne =>
    rw [lookup_some hd]
    constructor
    · rintro ⟨j, hj, hx⟩
      rcases h.cases hle hj with ⟨-, htj⟩ | ⟨-, hlt, htj⟩
      · rw [htj] at hx
        exact absurd (Prod.mk.inj (Option.some.inj hx)).1.symm hne
      · exact ⟨j, hlt, htj ▸ hx⟩
    · rintro ⟨j, hj, hx⟩
      have hji : j ≠ vacant t n := by
        rintro rfl
        rw [vacant_none hj] at hx
        cases hx
      obtain ⟨hlt, htj⟩ := h.mem hj hji
      exact ⟨j, hlt, htj.trans hx⟩

theorem Sets.erase (h : Sets t t' n n' i none) (hd : Distinct t n) (hi : index t n k = some i) :
    Distinct t' n' ∧ lookup t' n' = Function.update (lookup t n) k none := by
  obtain ⟨hlt, x, hx⟩ := index_some hi
  have hd' : Distinct t' n' := h.distinct hlt.le hd fun k' x' he => by cases he
  refine ⟨hd', lookup_ext hd' fun k' x' => ?_⟩
  rw [Function.update_apply]
  split
  · next heq =>
    subst heq
    refine ⟨?_, fun hx' => by cases hx'⟩
    rintro ⟨j, hj, hx'⟩
    rcases h.cases hlt.le hj with ⟨-, htj⟩ | ⟨hne, hjlt, htj⟩
    · rw [htj] at hx'
      cases hx'
    · exact absurd (hd j i k' x' x hjlt hlt (htj ▸ hx') hx) hne
  · next hne =>
    rw [lookup_some hd]
    constructor
    · rintro ⟨j, hj, hx'⟩
      rcases h.cases hlt.le hj with ⟨-, htj⟩ | ⟨-, hjlt, htj⟩
      · rw [htj] at hx'
        cases hx'
      · exact ⟨j, hjlt, htj ▸ hx'⟩
    · rintro ⟨j, hj, hx'⟩
      have hji : j ≠ i := by
        rintro rfl
        rw [hx] at hx'
        exact hne (Prod.mk.inj (Option.some.inj hx')).1.symm
      obtain ⟨hlt', htj⟩ := h.mem hj hji
      exact ⟨j, hlt', htj.trans hx'⟩

end KeyedSlots
