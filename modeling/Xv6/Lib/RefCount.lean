import Mathlib.Data.Multiset.Count
import Mathlib.Tactic

namespace RefCount

structure Books (A W O : Type) where
  active : A → Prop
  owner : A → W
  holds : A → O → Nat

variable {A W O : Type}

namespace Books

-- A count backs the books if it covers one token for each reference an owner needs.
def Backed [DecidableEq W] (b : Books A W O) (ref : O → Int) : Prop :=
  ∃ T : O → Multiset W, (∀ o, ((T o).card : Int) ≤ ref o) ∧
    ∀ a, b.active a → ∀ o, b.holds a o ≤ (T o).count (b.owner a)

def Kept (b b' : Books A W O) (a : A) : Prop :=
  b'.active a → b.active a ∧ b'.owner a = b.owner a ∧ ∀ o, b'.holds a o ≤ b.holds a o

def Covered (b b' : Books A W O) (a : A) : Prop :=
  b'.active a → (∀ o, b'.holds a o = 0) ∨
    ∃ a', b.active a' ∧ b'.owner a = b.owner a' ∧ ∀ o, b'.holds a o ≤ b.holds a' o

variable {b b' : Books A W O}

theorem Kept.covered {a : A} (h : Kept b b' a) : Covered b b' a := by
  intro ha
  obtain ⟨hact, hown, hle⟩ := h ha
  exact Or.inr ⟨a, hact, hown, hle⟩

theorem card_update [DecidableEq O] {ref ref' : O → Int} {T : O → Multiset W}
    (hcard : ∀ x, ((T x).card : Int) ≤ ref x) {o : O} {m : Multiset W}
    (ho : (m.card : Int) ≤ ref' o) (hother : ∀ x, x ≠ o → ref x ≤ ref' x) (x : O) :
    ((Function.update T o m x).card : Int) ≤ ref' x := by
  by_cases hx : x = o
  · subst hx
    rwa [Function.update_self]
  · rw [Function.update_of_ne hx]
    exact (hcard x).trans (hother x hx)

variable [DecidableEq W] {ref ref' : O → Int}

theorem Backed.alive (h : b.Backed ref) {a : A} {o : O} (ha : b.active a) (ho : 0 < b.holds a o) :
    1 ≤ ref o := by
  obtain ⟨T, hcard, hcov⟩ := h
  have hcount := hcov a ha o
  have hle := (T o).count_le_card (b.owner a)
  have := hcard o
  omega

theorem covered_le {T : O → Multiset W}
    (h : ∀ a, b.active a → ∀ o, b.holds a o ≤ (T o).count (b.owner a)) {a : A}
    (hc : Covered b b' a) (ha : b'.active a) (o : O) :
    b'.holds a o ≤ (T o).count (b'.owner a) := by
  rcases hc ha with hz | ⟨a', hact, hown, hle⟩
  · rw [hz o]
    exact Nat.zero_le _
  · rw [hown]
    exact (hle o).trans (h a' hact o)

theorem Backed.weaken (h : b.Backed ref) (href : ∀ o, ref o ≤ ref' o)
    (hcov : ∀ a, Covered b b' a) : b'.Backed ref' := by
  obtain ⟨T, hcard, hbook⟩ := h
  exact ⟨T, fun o => (hcard o).trans (href o), fun a ha o => covered_le hbook (hcov a) ha o⟩

variable [DecidableEq O]

theorem Backed.take (h : b.Backed ref) (a : A) (o : O) (href : ref o + 1 ≤ ref' o)
    (hother : ∀ x, x ≠ o → ref x ≤ ref' x) (hcov : ∀ a', a' ≠ a → Covered b b' a')
    (hact : b'.active a → b.active a ∧ b'.owner a = b.owner a)
    (hhold : ∀ x, b'.holds a x ≤ b.holds a x + if x = o then 1 else 0) : b'.Backed ref' := by
  obtain ⟨T, hcard, hbook⟩ := h
  refine ⟨Function.update T o (b.owner a ::ₘ T o), card_update hcard ?_ hother, ?_⟩
  · have := hcard o
    rw [Multiset.card_cons]
    push_cast
    omega
  · intro c hc x
    by_cases hca : c = a
    · subst hca
      have hold := hbook c (hact hc).1 x
      have hnew := hhold x
      rw [(hact hc).2]
      by_cases hx : x = o
      · subst hx
        rw [Function.update_self, Multiset.count_cons_self]
        simp only [if_true] at hnew
        omega
      · rw [Function.update_of_ne hx]
        simp only [hx, if_false] at hnew
        omega
    · have hle := covered_le hbook (hcov c hca) hc x
      by_cases hx : x = o
      · subst hx
        rw [Function.update_self]
        exact hle.trans (Multiset.count_le_count_cons _ _ _)
      · rwa [Function.update_of_ne hx]

structure GivesUp (b b' : Books A W O) (a : A) (o : O) : Prop where
  active : b.active a
  held : 0 < b.holds a o
  kept : b'.active a → b'.owner a = b.owner a ∧
    ∀ x, b'.holds a x + (if x = o then 1 else 0) ≤ b.holds a x
  alone : ∀ a', a' ≠ a → b'.active a' → b'.owner a' = b.owner a → b'.holds a' o = 0

theorem GivesUp.mem {a : A} {o : O} (hg : GivesUp b b' a o) {T : O → Multiset W}
    (h : ∀ a, b.active a → ∀ o, b.holds a o ≤ (T o).count (b.owner a)) : b.owner a ∈ T o :=
  Multiset.count_pos.mp (hg.held.trans_le (h a hg.active o))

theorem Backed.drop (h : b.Backed ref) (a : A) (o : O) (hg : GivesUp b b' a o)
    (href : ref o - 1 ≤ ref' o) (hother : ∀ x, x ≠ o → ref x ≤ ref' x)
    (hcov : ∀ a', a' ≠ a → Covered b b' a') : b'.Backed ref' := by
  obtain ⟨T, hcard, hbook⟩ := h
  have hmem := hg.mem hbook
  refine ⟨Function.update T o ((T o).erase (b.owner a)), card_update hcard ?_ hother, ?_⟩
  · have hle := hcard o
    have hlen := Multiset.card_erase_add_one hmem
    omega
  · intro c hc x
    by_cases hca : c = a
    · subst hca
      obtain ⟨hown, hhold⟩ := hg.kept hc
      have hold := hbook c hg.active x
      have hnew := hhold x
      rw [hown]
      by_cases hx : x = o
      · subst hx
        rw [Function.update_self, Multiset.count_erase_self]
        simp only [if_true] at hnew
        omega
      · rw [Function.update_of_ne hx]
        simp only [hx, if_false] at hnew
        omega
    · have hle := covered_le hbook (hcov c hca) hc x
      by_cases hx : x = o
      · subst hx
        rw [Function.update_self]
        by_cases hw : b'.owner c = b.owner a
        · rw [hg.alone c hca hc hw]
          exact Nat.zero_le _
        · rwa [Multiset.count_erase_of_ne hw]
      · rwa [Function.update_of_ne hx]

theorem Backed.move (h : b.Backed ref) (a c : A) (o : O) (hg : GivesUp b b' a o)
    (hne : b.owner a ≠ b.owner c) (href : ∀ x, ref x ≤ ref' x)
    (hcov : ∀ a', a' ≠ a → a' ≠ c → Covered b b' a')
    (hact : b'.active c → b.active c ∧ b'.owner c = b.owner c)
    (hhold : ∀ x, b'.holds c x ≤ b.holds c x + if x = o then 1 else 0) : b'.Backed ref' := by
  classical
  have hac : a ≠ c := fun hac => hne (congrArg b.owner hac)
  let mid : Books A W O := ⟨b'.active, b'.owner, Function.update b'.holds c (b.holds c)⟩
  have hmid : ∀ d, d ≠ c → mid.holds d = b'.holds d := fun d hd => Function.update_of_ne hd _ _
  have hdrop : mid.Backed (Function.update ref o (ref o - 1)) := by
    refine h.drop a o ⟨hg.active, hg.held, ?_, ?_⟩ (by simp) (fun x hx => by simp [hx]) ?_
    · rw [hmid a hac]
      exact hg.kept
    · intro d hd hact' hown'
      by_cases hdc : d = c
      · subst hdc
        exact absurd (hown'.symm.trans (hact hact').2) hne
      · rw [hmid d hdc]
        exact hg.alone d hd hact' hown'
    · intro d hd hact'
      by_cases hdc : d = c
      · subst hdc
        exact Or.inr ⟨d, (hact hact').1, (hact hact').2, fun x => by simp [mid]⟩
      · rw [hmid d hdc]
        exact hcov d hd hdc hact'
  refine hdrop.take c o ?_ ?_ ?_ (fun hc => ⟨hc, rfl⟩) ?_
  · simpa using href o
  · intro x hx
    simpa [hx] using href x
  · intro d hd hact'
    exact Or.inr ⟨d, hact', rfl, fun x => by rw [hmid d hd]⟩
  · intro x
    simpa [mid] using hhold x

end Books

@[irreducible] def tally {I : Type} [Fintype I] [DecidableEq O] (h : I → Option O) (o : O) : Nat :=
  ∑ i, if h i = some o then 1 else 0

theorem tally_update {I : Type} [Fintype I] [DecidableEq I] [DecidableEq O] (h : I → Option O)
    (i : I) (v : Option O) (o : O) :
    tally (Function.update h i v) o + (if h i = some o then 1 else 0) =
      tally h o + (if v = some o then 1 else 0) := by
  have hrest : ∑ j ∈ Finset.univ.erase i, (if Function.update h i v j = some o then 1 else 0) =
      ∑ j ∈ Finset.univ.erase i, if h j = some o then 1 else 0 :=
    Finset.sum_congr rfl fun j hj => by rw [Function.update_of_ne (Finset.ne_of_mem_erase hj)]
  rw [tally, tally, ← Finset.add_sum_erase _ _ (Finset.mem_univ i),
    ← Finset.add_sum_erase Finset.univ (fun j => if h j = some o then 1 else 0)
      (Finset.mem_univ i), hrest, Function.update_self]
  omega

theorem tally_pos {I : Type} [Fintype I] [DecidableEq O] {h : I → Option O} {i : I} {o : O}
    (hi : h i = some o) : 0 < tally h o := by
  have hle := Finset.single_le_sum (f := fun j => if h j = some o then 1 else 0)
    (fun j _ => Nat.zero_le _) (Finset.mem_univ i)
  simp only [hi, if_true] at hle
  rw [tally]
  exact hle

theorem tally_eq_zero {I : Type} [Fintype I] [DecidableEq O] {h : I → Option O} {o : O}
    (hn : ∀ i, h i ≠ some o) : tally h o = 0 := by
  rw [tally]
  exact Finset.sum_eq_zero fun i _ => if_neg (hn i)

end RefCount
