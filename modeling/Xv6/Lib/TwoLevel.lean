import Mathlib.Logic.Function.Basic

structure TwoLevel (P I J E : Type) where
  dir : P → I → Option P
  leaf : P → J → Option E

namespace TwoLevel

variable {P I J E : Type}

def get (t : TwoLevel P I J E) (d : P) (i : I) (j : J) : Option E :=
  (t.dir d i).bind fun p => t.leaf p j

section

variable [DecidableEq P]

def fill (t : TwoLevel P I J E) (p : P) (x : Option P) (y : Option E) : TwoLevel P I J E where
  dir := Function.update t.dir p fun _ => x
  leaf := Function.update t.leaf p fun _ => y

theorem dir_fill_of_ne {t : TwoLevel P I J E} {p q : P} (x : Option P) (y : Option E)
    (hq : q ≠ p) : (t.fill p x y).dir q = t.dir q := Function.update_of_ne hq _ _

theorem leaf_fill_of_ne {t : TwoLevel P I J E} {p q : P} (x : Option P) (y : Option E)
    (hq : q ≠ p) : (t.fill p x y).leaf q = t.leaf q := Function.update_of_ne hq _ _

theorem get_fill {t : TwoLevel P I J E} {p q : P} (x : Option P) (y : Option E) {i : I}
    (hq : q ≠ p) (hp : t.dir q i ≠ some p) (j : J) : (t.fill p x y).get q i j = t.get q i j := by
  rw [get, get, dir_fill_of_ne x y hq]
  cases hd : t.dir q i with
  | none => rfl
  | some r =>
    have hr : r ≠ p := fun h => hp (h ▸ hd)
    exact congrFun (leaf_fill_of_ne x y hr) j

end

section

variable [DecidableEq P] [DecidableEq I]

def link (t : TwoLevel P I J E) (d : P) (i : I) (p : P) : TwoLevel P I J E :=
  { t with dir := Function.update t.dir d (Function.update (t.dir d) i (some p)) }

theorem dir_link (t : TwoLevel P I J E) (d p q : P) (i i' : I) :
    (t.link d i p).dir q i' = if q = d ∧ i' = i then some p else t.dir q i' := by
  by_cases hq : q = d
  · subst hq
    by_cases hi : i' = i
    · subst hi; simp [link]
    · simp [link, hi]
  · simp [link, hq]

theorem get_link {t : TwoLevel P I J E} {d p q : P} {i i' : I} (hnone : t.dir d i = none)
    (hleaf : ∀ j, t.leaf p j = none) (j : J) : (t.link d i p).get q i' j = t.get q i' j := by
  by_cases hq : q = d
  · subst hq
    by_cases hi : i' = i
    · subst hi
      simp [get, link, hnone, hleaf]
    · simp [get, link, hi]
  · simp [get, link, hq]

end

section

variable [DecidableEq P] [DecidableEq J]

def put (t : TwoLevel P I J E) (p : P) (j : J) (e : Option E) : TwoLevel P I J E :=
  { t with leaf := Function.update t.leaf p (Function.update (t.leaf p) j e) }

theorem leaf_put (t : TwoLevel P I J E) (p q : P) (j j' : J) (e : Option E) :
    (t.put p j e).leaf q j' = if q = p ∧ j' = j then e else t.leaf q j' := by
  by_cases hq : q = p
  · subst hq
    by_cases hj : j' = j
    · subst hj; simp [put]
    · simp [put, hj]
  · simp [put, hq]

theorem get_put {t : TwoLevel P I J E} {d p : P} {i : I} {j : J} (e : Option E)
    (h : t.dir d i = some p) : (t.put p j e).get d i j = e := by
  simp [get, put, h]

theorem get_put_of_ne {t : TwoLevel P I J E} {p q : P} {i : I} {j j' : J} (e : Option E)
    (h : t.dir q i = some p → j' ≠ j) : (t.put p j e).get q i j' = t.get q i j' := by
  cases hd : t.dir q i with
  | none => simp [get, put, hd]
  | some r =>
    by_cases hr : r = p
    · subst hr
      simp [get, put, hd, h hd]
    · simp [get, put, hd, hr]

theorem put_fill {t : TwoLevel P I J E} {p q : P} (hq : q ≠ p) (x : Option P) (y : Option E)
    (j : J) (e : Option E) : (t.fill p x y).put q j e = (t.put q j e).fill p x y := by
  simp only [put, fill, Function.update_of_ne hq, mk.injEq, true_and]
  exact (Function.update_comm hq _ _ _).symm

end

end TwoLevel
