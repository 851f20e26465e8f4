import Mathlib.Data.List.Nodup
import Mathlib.Tactic

namespace RedoLog

variable {A V : Type} [DecidableEq A]

def replay : List (A × V) → (A → V) → A → V
  | [], f => f
  | p :: l, f => replay l (Function.update f p.1 p.2)

theorem replay_of_notMem {l : List (A × V)} {f : A → V} {a : A} (h : a ∉ l.map Prod.fst) :
    replay l f a = f a := by
  induction l generalizing f with
  | nil => rfl
  | cons p l ih =>
    simp only [List.map_cons, List.mem_cons, not_or] at h
    rw [replay, ih h.2, Function.update_of_ne h.1]

theorem replay_of_mem {l : List (A × V)} {f : A → V} (hl : (l.map Prod.fst).Nodup) {a : A} {v : V}
    (h : (a, v) ∈ l) : replay l f a = v := by
  induction l generalizing f with
  | nil => cases h
  | cons p l ih =>
    simp only [List.map_cons, List.nodup_cons] at hl
    rw [replay]
    rcases List.mem_cons.mp h with rfl | h
    · rw [replay_of_notMem hl.1, Function.update_self]
    · exact ih hl.2 h

theorem replay_congr {l : List (A × V)} {f g : A → V} {a : A}
    (h : a ∉ l.map Prod.fst → f a = g a) : replay l f a = replay l g a := by
  induction l generalizing f g with
  | nil => exact h (by simp)
  | cons p l ih =>
    refine ih fun ha => ?_
    by_cases hp : a = p.1
    · subst hp
      rw [Function.update_self, Function.update_self]
    · rw [Function.update_of_ne hp, Function.update_of_ne hp]
      exact h (by simp [hp, ha])

-- Writing one record home does not change what a replay gives: installing is idempotent.
theorem replay_update {l : List (A × V)} {f : A → V} {a : A} {v : V} (h : (a, v) ∈ l) :
    replay l (Function.update f a v) = replay l f := by
  funext b
  refine replay_congr fun hb => ?_
  have hne : b ≠ a := by
    rintro rfl
    exact hb (List.mem_map_of_mem (f := Prod.fst) h)
  rw [Function.update_of_ne hne]

theorem replay_installed {l : List (A × V)} {f : A → V} (h : ∀ p ∈ l, f p.1 = p.2) :
    replay l f = f := by
  induction l with
  | nil => rfl
  | cons p l ih =>
    rw [replay, ← h p List.mem_cons_self, Function.update_eq_self]
    exact ih fun q hq => h q (List.mem_cons_of_mem p hq)

end RedoLog
