import Mathlib.Tactic

namespace CyclicNext

variable {n : Nat} {ok : Fin n → Prop} {last b c : Int} {i j : Fin n} {l : List (Fin n)}

def gap (n : Nat) (last i : Int) : Int := (i - (last + 1)) % n

def IsNext (ok : Fin n → Prop) (last : Int) (i : Fin n) : Prop :=
  ok i ∧ ∀ j, ok j → gap n last i ≤ gap n last j

theorem size_pos (i : Fin n) : (0 : Int) < n := by
  have := i.isLt
  omega

theorem gap_nonneg (last : Int) (i : Fin n) : 0 ≤ gap n last i :=
  Int.emod_nonneg _ (size_pos i).ne'

theorem gap_lt (last : Int) (i : Fin n) : gap n last i < n := Int.emod_lt_of_pos _ (size_pos i)

theorem eq_of_gap_eq (h : gap n last i = gap n last j) : i = j := by
  have hdvd : (n : Int) ∣ (j : Int) - i := by
    have hmod : (i : Int) - (last + 1) ≡ j - (last + 1) [ZMOD n] := h
    simpa using hmod.dvd
  have hi := i.isLt
  have hj := j.isLt
  have hzero := Int.eq_zero_of_abs_lt_dvd hdvd (by rw [abs_lt]; omega)
  exact Fin.ext (by omega)

theorem gap_from (hlast : (n : Int) ∣ last - b - 1 - c) (hc : -1 ≤ c) (hcn : c < n) (j : Fin n) :
    gap n last j = if c < gap n b j then gap n b j - c - 1 else gap n b j - c - 1 + n := by
  obtain ⟨r, hr⟩ := hlast
  have h0 := gap_nonneg b j
  have hn := gap_lt b j
  have hdiv : (j : Int) - (b + 1) = n * (((j : Int) - (b + 1)) / n) + gap n b j :=
    (Int.mul_ediv_add_emod _ _).symm
  have heq : (j : Int) - (last + 1) =
      gap n b j - c - 1 + n * (((j : Int) - (b + 1)) / n - r) := by
    rw [mul_sub]
    linarith
  have hmod : gap n last j = (gap n b j - c - 1) % n := by
    rw [gap, heq, Int.add_mul_emod_self_left]
  rw [hmod]
  split
  · exact Int.emod_eq_of_lt (by omega) (by omega)
  · rw [← Int.add_emod_right]
    exact Int.emod_eq_of_lt (by omega) (by omega)

theorem gap_self (i : Fin n) : gap n i i = n - 1 := by
  have hn := size_pos i
  rw [gap, show (i : Int) - (i + 1) = -1 by ring, ← Int.add_emod_right]
  exact (Int.emod_eq_of_lt (by omega) (by omega)).trans (by ring)

theorem IsNext.only (h : IsNext ok last i) (hi : (i : Int) = last) (hj : ok j) : j = i := by
  have hle := h.2 j hj
  have hlt := gap_lt last j
  subst hi
  rw [gap_self] at hle
  have heq : gap n i j = gap n i i := by
    rw [gap_self]
    omega
  exact eq_of_gap_eq heq

inductive Turns (ok : Fin n → Prop) : Int → List (Fin n) → Prop where
  | nil (last : Int) : Turns ok last []
  | cons {last : Int} {i : Fin n} {l : List (Fin n)} (hi : IsNext ok last i)
      (hl : Turns ok i l) : Turns ok last (i :: l)

theorem Turns.increasing [DecidablePred ok] (h : Turns ok last l)
    (hlast : (n : Int) ∣ last - b - 1 - c) (hc : -1 ≤ c) (hcn : c < n)
    (hcard : l.length ≤ (Finset.univ.filter fun j => ok j ∧ c < gap n b j).card) :
    l.Pairwise (fun i j : Fin n => gap n b i < gap n b j) ∧ ∀ j ∈ l, ok j ∧ c < gap n b j := by
  induction h generalizing c with
  | nil last => simp
  | @cons last i l hi _ ih =>
    have hleft : ∃ j, ok j ∧ c < gap n b j := by
      have hpos : 0 < (Finset.univ.filter fun j => ok j ∧ c < gap n b j).card :=
        Nat.lt_of_lt_of_le (Nat.succ_pos _) hcard
      obtain ⟨j, hj⟩ := Finset.card_pos.mp hpos
      exact ⟨j, (Finset.mem_filter.mp hj).2⟩
    have hleast : c < gap n b i ∧ ∀ j, ok j → c < gap n b j → gap n b i ≤ gap n b j := by
      have hfrom := gap_from hlast hc hcn
      have hup : c < gap n b i := by
        obtain ⟨j, hj, hcj⟩ := hleft
        have hle := hi.2 j hj
        have hn := gap_lt b j
        have h0 := gap_nonneg b i
        rw [hfrom i, hfrom j, if_pos hcj] at hle
        by_contra hci
        rw [if_neg hci] at hle
        omega
      refine ⟨hup, fun j hj hcj => ?_⟩
      have hle := hi.2 j hj
      rw [hfrom i, hfrom j, if_pos hcj, if_pos hup] at hle
      omega
    have hset : (Finset.univ.filter fun j => ok j ∧ gap n b i < gap n b j) =
        (Finset.univ.filter fun j => ok j ∧ c < gap n b j).erase i := by
      ext j
      simp only [Finset.mem_filter, Finset.mem_univ, true_and, Finset.mem_erase]
      constructor
      · rintro ⟨hj, hij⟩
        exact ⟨fun h => by rw [h] at hij; exact lt_irrefl _ hij, hj, hleast.1.trans hij⟩
      · rintro ⟨hne, hj, hcj⟩
        exact ⟨hj, lt_of_le_of_ne (hleast.2 j hj hcj) fun h => hne (eq_of_gap_eq h).symm⟩
    have hmem : i ∈ Finset.univ.filter fun j => ok j ∧ c < gap n b j := by
      simp [hi.1, hleast.1]
    have hat : (n : Int) ∣ i - b - 1 - gap n b i := by
      rw [gap, sub_sub (i : Int)]
      exact Int.dvd_self_sub_emod
    obtain ⟨hpair, hall⟩ := ih hat (by have := gap_nonneg b i; omega) (gap_lt b i) (by
      rw [hset, Finset.card_erase_of_mem hmem]
      rw [List.length_cons] at hcard
      omega)
    refine ⟨List.pairwise_cons.mpr ⟨fun j hj => (hall j hj).2, hpair⟩, fun j hj => ?_⟩
    rcases List.mem_cons.mp hj with rfl | hj
    · exact ⟨hi.1, hleast.1⟩
    · exact ⟨(hall j hj).1, hleast.1.trans (hall j hj).2⟩

theorem Turns.each_once [DecidablePred ok] (h : Turns ok last l)
    (hcard : l.length = (Finset.univ.filter ok).card) : l.Nodup ∧ ∀ j, j ∈ l ↔ ok j := by
  have hall : (Finset.univ.filter fun j => ok j ∧ -1 < gap n last j) = Finset.univ.filter ok :=
    Finset.filter_congr fun j _ => by
      have := gap_nonneg last j
      simp only [and_iff_left_iff_imp]
      omega
  obtain ⟨hpair, hok⟩ := h.increasing (b := last) (c := -1) (by simp) le_rfl (by omega)
    (by rw [hall, hcard])
  have hnodup : l.Nodup := hpair.imp fun hlt heq => by
    rw [heq] at hlt
    exact lt_irrefl _ hlt
  have hset : l.toFinset = Finset.univ.filter ok := by
    refine Finset.eq_of_subset_of_card_le (fun j hj => ?_) ?_
    · simpa using (hok j (List.mem_toFinset.mp hj)).1
    · rw [List.toFinset_card_of_nodup hnodup, hcard]
  refine ⟨hnodup, fun j => ?_⟩
  rw [← List.mem_toFinset, hset]
  simp

end CyclicNext
