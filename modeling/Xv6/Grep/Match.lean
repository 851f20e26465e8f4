import Mathlib.Tactic

namespace Xv6
namespace Grep

def caret : Nat := 94

def dollar : Nat := 36

def star : Nat := 42

def dot : Nat := 46

-- Strings are lists of characters; the end of the list is the NUL.
def starLoop (here : List Nat → Bool) (c : Nat) : List Nat → Bool
  | [] => here []
  | t :: text => here (t :: text) || ((t == c || c == dot) && starLoop here c text)

def charStep (here : List Nat → Bool) (c : Nat) : List Nat → Bool
  | [] => false
  | t :: text => (c == dot || c == t) && here text

def matchhere : List Nat → List Nat → Bool
  | [], _ => true
  | [c], text => if c = dollar then text.isEmpty else charStep (matchhere []) c text
  | c :: d :: re, text =>
    if d = star then starLoop (matchhere re) c text
    else charStep (matchhere (d :: re)) c text

def matchstar (c : Nat) (re text : List Nat) : Bool := starLoop (matchhere re) c text

def matchLoop (re : List Nat) : List Nat → Bool
  | [] => matchhere re []
  | t :: text => matchhere re (t :: text) || matchLoop re text

def matchRe (re text : List Nat) : Bool :=
  match re with
  | [] => matchLoop [] text
  | c :: re => if c = caret then matchhere re text else matchLoop (c :: re) text

def Means (c x : Nat) : Prop := c = dot ∨ c = x

-- The pattern `re` describes `u`, a prefix of a text that goes on with `v`.
inductive Describes : List Nat → List Nat → List Nat → Prop where
  | nil (v : List Nat) : Describes [] [] v
  | star {c : Nat} {re us u v : List Nat} (hus : ∀ x ∈ us, Means c x) (h : Describes re u v) :
      Describes (c :: star :: re) (us ++ u) v
  | eol : Describes [dollar] [] []
  | char {c x : Nat} {re u v : List Nat} (hstar : re.head? ≠ some star)
      (heol : ¬(c = dollar ∧ re = [])) (hx : Means c x) (h : Describes re u v) :
      Describes (c :: re) (x :: u) v

def Prefix (re text : List Nat) : Prop := ∃ u v, text = u ++ v ∧ Describes re u v

theorem means_iff {c x : Nat} : (c == dot || c == x) = true ↔ Means c x := by
  simp [Means]

theorem starLoop_iff {here : List Nat → Bool} {c : Nat} {text : List Nat} :
    starLoop here c text = true ↔
      ∃ us v, text = us ++ v ∧ (∀ x ∈ us, Means c x) ∧ here v = true := by
  induction text with
  | nil =>
    constructor
    · intro h
      exact ⟨[], [], rfl, by simp, h⟩
    · rintro ⟨us, v, heq, -, h⟩
      obtain ⟨-, rfl⟩ := List.nil_eq_append_iff.mp heq
      exact h
  | cons t text ih =>
    rw [starLoop, Bool.or_eq_true, Bool.and_eq_true, ih]
    constructor
    · rintro (h | ⟨ht, us, v, rfl, hus, h⟩)
      · exact ⟨[], t :: text, rfl, by simp, h⟩
      · have hmeans : Means c t := by
          simp only [Bool.or_eq_true, beq_iff_eq] at ht
          exact ht.symm.imp id Eq.symm
        refine ⟨t :: us, v, rfl, fun x hx => ?_, h⟩
        rcases List.mem_cons.mp hx with rfl | hx
        · exact hmeans
        · exact hus x hx
    · rintro ⟨us, v, heq, hus, h⟩
      cases us with
      | nil =>
        left
        rw [List.nil_append] at heq
        rwa [heq]
      | cons x us =>
        obtain ⟨rfl, rfl⟩ := List.cons.inj heq
        refine Or.inr ⟨?_, us, v, rfl, fun y hy => hus y (List.mem_cons_of_mem _ hy), h⟩
        rcases hus t List.mem_cons_self with hdot | heq
        · simp [hdot]
        · simp [heq]

theorem prefix_nil (text : List Nat) : Prefix [] text := ⟨[], text, rfl, .nil text⟩

theorem prefix_star {c : Nat} {re text : List Nat} :
    Prefix (c :: star :: re) text ↔
      ∃ us v, text = us ++ v ∧ (∀ x ∈ us, Means c x) ∧ Prefix re v := by
  constructor
  · rintro ⟨u, v, rfl, h⟩
    cases h with
    | @star _ _ us u _ hus h => exact ⟨us, u ++ v, List.append_assoc us u v, hus, u, v, rfl, h⟩
    | char hstar _ _ _ => exact absurd rfl hstar
  · rintro ⟨us, w, rfl, hus, u, v, rfl, h⟩
    exact ⟨us ++ u, v, (List.append_assoc us u v).symm, .star hus h⟩

theorem prefix_eol {text : List Nat} : Prefix [dollar] text ↔ text = [] := by
  constructor
  · rintro ⟨u, v, rfl, h⟩
    cases h with
    | eol => rfl
    | char _ heol _ _ => exact absurd ⟨rfl, rfl⟩ heol
  · rintro rfl
    exact ⟨[], [], rfl, .eol⟩

theorem prefix_char {c : Nat} {re text : List Nat} (hstar : re.head? ≠ some star)
    (heol : ¬(c = dollar ∧ re = [])) :
    Prefix (c :: re) text ↔ ∃ t rest, text = t :: rest ∧ Means c t ∧ Prefix re rest := by
  constructor
  · rintro ⟨u, v, rfl, h⟩
    cases h with
    | star _ _ => exact absurd rfl hstar
    | eol => exact absurd ⟨rfl, rfl⟩ heol
    | @char _ x _ u _ _ _ hx h => exact ⟨x, u ++ v, rfl, hx, u, v, rfl, h⟩
  · rintro ⟨t, rest, rfl, ht, u, v, rfl, h⟩
    exact ⟨t :: u, v, rfl, .char hstar heol ht h⟩

theorem charStep_iff {c : Nat} {re text : List Nat}
    (hhere : ∀ text, matchhere re text = true ↔ Prefix re text) :
    charStep (matchhere re) c text = true ↔
      ∃ t rest, text = t :: rest ∧ Means c t ∧ Prefix re rest := by
  cases text with
  | nil => simp [charStep]
  | cons t text =>
    rw [charStep, Bool.and_eq_true, means_iff, hhere]
    constructor
    · rintro ⟨ht, h⟩
      exact ⟨t, text, rfl, ht, h⟩
    · rintro ⟨t', rest, heq, ht, h⟩
      obtain ⟨rfl, rfl⟩ := List.cons.inj heq
      exact ⟨ht, h⟩

theorem matchhere_nil_iff (text : List Nat) : matchhere [] text = true ↔ Prefix [] text := by
  simp [matchhere, prefix_nil]

theorem matchstar_iff {c : Nat} {re text : List Nat}
    (hre : ∀ text, matchhere re text = true ↔ Prefix re text) :
    matchstar c re text = true ↔ Prefix (c :: star :: re) text := by
  rw [matchstar, starLoop_iff, prefix_star]
  simp only [hre]

-- The recursion is the matcher's own: on the pattern, past a star or past one character.
theorem matchhere_iff : ∀ re text : List Nat, matchhere re text = true ↔ Prefix re text
  | [], text => matchhere_nil_iff text
  | [c], text => by
    rw [matchhere]
    split
    case isTrue h =>
      subst h
      rw [prefix_eol, List.isEmpty_iff]
    case isFalse h =>
      rw [prefix_char (by simp) (fun hc => h hc.1)]
      exact charStep_iff matchhere_nil_iff
  | c :: d :: re, text => by
    rw [matchhere]
    split
    case isTrue h =>
      subst h
      exact matchstar_iff (matchhere_iff re)
    case isFalse h =>
      rw [prefix_char (by simpa using h) (by simp)]
      exact charStep_iff (matchhere_iff (d :: re))

theorem matchLoop_iff {re text : List Nat} :
    matchLoop re text = true ↔ ∃ w rest, text = w ++ rest ∧ Prefix re rest := by
  induction text with
  | nil =>
    rw [matchLoop, matchhere_iff]
    constructor
    · intro h
      exact ⟨[], [], rfl, h⟩
    · rintro ⟨w, rest, heq, h⟩
      obtain ⟨-, rfl⟩ := List.nil_eq_append_iff.mp heq
      exact h
  | cons t text ih =>
    rw [matchLoop, Bool.or_eq_true, matchhere_iff, ih]
    constructor
    · rintro (h | ⟨w, rest, rfl, h⟩)
      · exact ⟨[], t :: text, rfl, h⟩
      · exact ⟨t :: w, rest, rfl, h⟩
    · rintro ⟨w, rest, heq, h⟩
      cases w with
      | nil =>
        left
        rw [List.nil_append] at heq
        rwa [heq]
      | cons x w =>
        obtain ⟨-, rfl⟩ := List.cons.inj heq
        exact Or.inr ⟨w, rest, rfl, h⟩

theorem matches_iff_described (re text : List Nat) :
    matchRe re text = true ↔
      if re.head? = some caret then Prefix re.tail text
      else ∃ w rest, text = w ++ rest ∧ Prefix re rest := by
  cases re with
  | nil => simpa [matchRe] using matchLoop_iff
  | cons c re =>
    simp only [matchRe, List.head?_cons, List.tail_cons, Option.some_inj]
    split
    · exact matchhere_iff re text
    · exact matchLoop_iff

end Grep
end Xv6
