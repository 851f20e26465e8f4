import Xv6.Lib.CyclicNext
import Xv6.Uthread.Basic

namespace Xv6.Uthread

open SlotScan CyclicNext

theorem slot_val (j : Fin maxUthreads) : slot j = some j := by
  have hj := j.isLt
  rw [slot, dif_pos (by omega)]
  rfl

theorem slot_some {i : Int} {j : Fin maxUthreads} (h : slot i = some j) : i = j := by
  unfold slot at h
  split_ifs at h with hi
  cases h
  exact (Int.toNat_of_nonneg hi.1).symm

theorem slot_inRange {i : Int} (h0 : 0 ≤ i) (h1 : i < maxUthreads) : ∃ j, slot i = some j :=
  ⟨_, dif_pos ⟨h0, h1⟩⟩

theorem wrap_eq {i : Int} (h : -1 ≤ i) : wrap i = (i + 1) % maxUthreads :=
  Int.tmod_eq_emod_of_nonneg (by omega)

theorem scan_walk (ok : Fin maxUthreads → Bool) (last : Int) {i : Int} (h0 : 0 ≤ i)
    (h1 : i < maxUthreads) (n : Nat) :
    (∃ k < n, ∃ j : Fin maxUthreads, scan ok last n i = some (j : Int) ∧
      (j : Int) = (i + k) % maxUthreads ∧ (ok j = true ∨ (j : Int) = last) ∧
      ∀ m < k, ∀ j : Fin maxUthreads, (j : Int) = (i + m) % maxUthreads → ok j = false) ∨
    ∀ m < n, ∀ j : Fin maxUthreads, (j : Int) = (i + m) % maxUthreads → ok j = false := by
  induction n generalizing i with
  | zero => exact .inr fun m hm => absurd hm (Nat.not_lt_zero m)
  | succ n ih =>
    obtain ⟨j, hj⟩ := slot_inRange h0 h1
    have hij := slot_some hj
    have hhere : (j : Int) = (i + (0 : Nat)) % maxUthreads := by
      unfold maxUthreads at *
      push_cast
      omega
    by_cases hstop : i = last ∨ ok j = true
    · refine .inl ⟨0, Nat.zero_lt_succ n, j, ?_, hhere, hstop.symm.imp id fun h => hij ▸ h,
        fun m hm => absurd hm (Nat.not_lt_zero m)⟩
      rw [scan, hj, Option.any_some, ← hij]
      split
      · rfl
      · rw [if_pos (hstop.resolve_left (by assumption))]
    · obtain ⟨hlast, hok⟩ := not_or.mp hstop
      have hnext : scan ok last (n + 1) i = scan ok last n ((i + 1) % maxUthreads) := by
        rw [scan, if_neg hlast, hj, Option.any_some, if_neg hok, wrap_eq (by omega)]
      have hpass : ∀ k : Nat, (∀ m < k, ∀ l : Fin maxUthreads,
          (l : Int) = ((i + 1) % maxUthreads + m) % maxUthreads → ok l = false) →
          ∀ m < k + 1, ∀ l : Fin maxUthreads, (l : Int) = (i + m) % maxUthreads →
          ok l = false := by
        intro k hk m hm l hl
        cases m with
        | zero =>
          obtain rfl : l = j := Fin.ext (by omega)
          exact Bool.not_eq_true _ ▸ hok
        | succ m =>
          refine hk m (by omega) l ?_
          unfold maxUthreads at *
          push_cast at *
          omega
      rw [hnext]
      rcases ih (i := (i + 1) % maxUthreads) (by unfold maxUthreads; omega)
        (by unfold maxUthreads; omega) with ⟨k, hk, l, hend, hl, hwhy, hbefore⟩ | hnone
      · refine .inl ⟨k + 1, by omega, l, hend, ?_, hwhy, hpass k hbefore⟩
        unfold maxUthreads at *
        push_cast at *
        omega
      · exact .inr (hpass n hnone)

theorem scan_next {ok : Fin maxUthreads → Bool} {last : Int} (h0 : -1 ≤ last)
    (hok : ∃ j, ok j = true) :
    ∃ i : Fin maxUthreads, scan ok last maxUthreads (wrap last) = some (i : Int) ∧
      IsNext (fun j => ok j = true) last i := by
  rw [wrap_eq h0]
  have hstep : ∀ j : Fin maxUthreads, ∃ m : Nat, (m : Int) = gap maxUthreads last j ∧
      m < maxUthreads ∧ (j : Int) = ((last + 1) % maxUthreads + m) % maxUthreads := by
    intro j
    have hj := j.isLt
    refine ⟨(gap maxUthreads last j).toNat, ?_, ?_, ?_⟩
    all_goals
      unfold gap maxUthreads at *
      omega
  rcases scan_walk ok last (i := (last + 1) % maxUthreads)
    (by unfold maxUthreads; omega) (by unfold maxUthreads; omega) maxUthreads with
    ⟨k, hk, i, hscan, hi, hwhy, hbefore⟩ | hnone
  · have hgap : gap maxUthreads last i = k := by
      have := i.isLt
      unfold gap maxUthreads at *
      omega
    have hleast : ∀ j, ok j = true → gap maxUthreads last i ≤ gap maxUthreads last j := by
      intro j hj
      obtain ⟨m, hm, -, hat⟩ := hstep j
      by_contra hlt
      have hfalse := hbefore m (by omega) j hat
      rw [hj] at hfalse
      cases hfalse
    refine ⟨i, hscan, ?_, hleast⟩
    -- The walk that comes round to `last` has met no other slot that is ok.
    rcases hwhy with hoki | hlast
    · exact hoki
    · obtain ⟨j, hj⟩ := hok
      have hle := hleast j hj
      have hlt := gap_lt last j
      rw [← hlast] at hle hlt
      have hself := gap_self i
      have heq : gap maxUthreads i i = gap maxUthreads i j := by omega
      rw [eq_of_gap_eq heq]
      exact hj
  · obtain ⟨j, hj⟩ := hok
    obtain ⟨m, -, hm, hat⟩ := hstep j
    have hfalse := hnone m hm j hat
    rw [hj] at hfalse
    cases hfalse

namespace Process

variable {F R : Type}

def Live (s : Process F R) (j : Fin maxUthreads) : Prop := (s.threads j).tid ≠ 0

instance (s : Process F R) (j : Fin maxUthreads) : Decidable (s.Live j) := by
  unfold Live
  infer_instance

def liveCount (s : Process F R) : Nat := (Finset.univ.filter s.Live).card

def Ranked (s : Process F R) (priority : Int) (j : Fin maxUthreads) : Prop :=
  s.Live j ∧ (s.threads j).priority = priority

variable {s : Process F R}

theorem inPriority_iff {priority : Int} {j : Fin maxUthreads} :
    s.inPriority priority j = true ↔ s.Ranked priority j := by
  simp [inPriority, Ranked, Live]

theorem number_ne_zero {priority : Int} :
    (s.getNumberOfThreadInPrioirity priority != 0) = true ↔ ∃ j, s.Ranked priority j := by
  rw [bne_iff_ne, getNumberOfThreadInPrioirity, ne_eq, List.countP_eq_zero]
  push Not
  simp only [List.mem_finRange, true_and, inPriority_iff]

theorem number_eq_card (s : Process F R) (priority : Int) :
    s.getNumberOfThreadInPrioirity priority =
      (Finset.univ.filter fun j => s.inPriority priority j = true).card := by
  rw [getNumberOfThreadInPrioirity, List.countP_eq_length_filter,
    ← List.toFinset_card_of_nodup ((List.nodup_finRange _).filter _), List.toFinset_filter,
    List.toFinset_finRange]

def Served (s : Process F R) (p : Fin priorities) : Prop :=
  (∃ j, s.Ranked p j) ∧ ∀ j, s.Live j → 0 ≤ (s.threads j).priority → p ≤ (s.threads j).priority

theorem exists_served
    (h : ∃ j, s.Live j ∧ 0 ≤ (s.threads j).priority ∧ (s.threads j).priority ≤ 9) :
    ∃ p, firstSlot (fun p : Fin priorities => s.getNumberOfThreadInPrioirity p != 0) = some p ∧
      s.Served p := by
  have hrank : ∀ j, s.Live j → 0 ≤ (s.threads j).priority → (s.threads j).priority ≤ 9 →
      ∃ p : Fin priorities, (p : Int) = (s.threads j).priority ∧
        (s.getNumberOfThreadInPrioirity p != 0) = true := by
    intro j hj h0 h9
    have hlt : (s.threads j).priority.toNat < priorities := by
      unfold priorities
      omega
    refine ⟨⟨_, hlt⟩, Int.toNat_of_nonneg h0, number_ne_zero.mpr ⟨j, hj, ?_⟩⟩
    exact (Int.toNat_of_nonneg h0).symm
  cases hfirst : firstSlot fun p : Fin priorities => s.getNumberOfThreadInPrioirity p != 0 with
  | none =>
    obtain ⟨j, hj, h0, h9⟩ := h
    obtain ⟨p, -, hp⟩ := hrank j hj h0 h9
    rw [firstSlot_none.mp hfirst p] at hp
    cases hp
  | some p =>
    refine ⟨p, rfl, number_ne_zero.mp (firstSlot_some hfirst), fun j hj h0 => ?_⟩
    by_cases h9 : (s.threads j).priority ≤ 9
    · obtain ⟨q, hq, hpos⟩ := hrank j hj h0 h9
      have hle := firstSlot_le hfirst hpos
      rw [← hq]
      exact_mod_cast hle
    · have hlt := p.isLt
      unfold priorities at hlt
      omega

theorem getNextPB_next {p : Fin priorities}
    (hp : firstSlot (fun p : Fin priorities => s.getNumberOfThreadInPrioirity p != 0) = some p)
    (hindex : -1 ≤ s.pbRrIndexes p) :
    ∃ i : Fin maxUthreads, s.getNextPB =
        some ((i : Int), { s with pbRrIndexes := Function.update s.pbRrIndexes p i }) ∧
      IsNext (fun j => s.inPriority p j = true) (s.pbRrIndexes p) i := by
  obtain ⟨j, hj⟩ := number_ne_zero.mp (firstSlot_some hp)
  obtain ⟨i, hscan, hnext⟩ := scan_next hindex ⟨j, inPriority_iff.mpr hj⟩
  refine ⟨i, ?_, hnext⟩
  simp only [getNextPB, hp, hscan]
  rfl

theorem getNextRoundRobin_next (hlive : ∃ j, s.Live j) (hindex : -1 ≤ s.rrIndex) :
    ∃ i : Fin maxUthreads, s.getNextRoundRobin = some ((i : Int), { s with rrIndex := i }) ∧
      IsNext s.Live s.rrIndex i := by
  have hok : ∃ j, (fun j => (s.threads j).tid != 0) j = true := by
    obtain ⟨j, hj⟩ := hlive
    exact ⟨j, bne_iff_ne.mpr hj⟩
  obtain ⟨i, hscan, hnext⟩ := scan_next hindex hok
  simp only [bne_iff_ne] at hnext
  refine ⟨i, ?_, hnext⟩
  rw [getNextRoundRobin, hscan]
  rfl

def calls (next : Process F R → Option (Int × Process F R)) :
    Nat → Process F R → Option (List Int × Process F R)
  | 0, s => some ([], s)
  | k + 1, s => do
    let (i, s) ← next s
    let (l, s) ← calls next k s
    pure (i :: l, s)

theorem getNextPB_turns {p : Fin priorities}
    (hp : firstSlot (fun p : Fin priorities => s.getNumberOfThreadInPrioirity p != 0) = some p)
    (hindex : -1 ≤ s.pbRrIndexes p) (k : Nat) :
    ∃ (l : List (Fin maxUthreads)) (t : Process F R),
      calls getNextPB k s = some (l.map fun i : Fin maxUthreads => (i : Int), t) ∧ l.length = k ∧
        Turns (fun j => s.inPriority p j = true) (s.pbRrIndexes p) l := by
  induction k generalizing s with
  | zero => exact ⟨[], s, rfl, rfl, .nil _⟩
  | succ k ih =>
    obtain ⟨i, hcall, hnext⟩ := getNextPB_next hp hindex
    obtain ⟨l, t, hcalls, hlen, hturns⟩ :=
      ih (s := { s with pbRrIndexes := Function.update s.pbRrIndexes p i }) hp
        (by simp only [Function.update_self]; omega)
    simp only [Function.update_self] at hturns
    refine ⟨i :: l, t, ?_, by rw [List.length_cons, hlen], .cons hnext hturns⟩
    rw [calls, hcall]
    simp only [bind, Option.bind, hcalls]
    rfl

theorem getNextRoundRobin_turns (hlive : ∃ j, s.Live j) (hindex : -1 ≤ s.rrIndex)
    (k : Nat) :
    ∃ (l : List (Fin maxUthreads)) (t : Process F R),
      calls getNextRoundRobin k s = some (l.map fun i : Fin maxUthreads => (i : Int), t) ∧
        l.length = k ∧ Turns s.Live s.rrIndex l := by
  induction k generalizing s with
  | zero => exact ⟨[], s, rfl, rfl, .nil _⟩
  | succ k ih =>
    obtain ⟨i, hcall, hnext⟩ := getNextRoundRobin_next hlive hindex
    obtain ⟨l, t, hcalls, hlen, hturns⟩ := ih (s := { s with rrIndex := i }) hlive (by simp)
    refine ⟨i :: l, t, ?_, by rw [List.length_cons, hlen], .cons hnext hturns⟩
    rw [calls, hcall]
    simp only [bind, Option.bind, hcalls]
    rfl

structure Cyclic (select : Process F R → Option (Int × Process F R)) (s : Process F R)
    (ok : Fin maxUthreads → Prop) (last : Int) (k : Nat) (i : Fin maxUthreads) : Prop where
  next : IsNext ok last i
  only : (i : Int) = last → ∀ j, ok j → j = i
  round : ∃ (l : List (Fin maxUthreads)) (t : Process F R),
    calls select k s = some (l.map fun i : Fin maxUthreads => (i : Int), t) ∧
      l.Nodup ∧ ∀ j, j ∈ l ↔ ok j

theorem selection_cyclic (s : Process F R)
    (hlive : ∃ j, s.Live j ∧ 0 ≤ (s.threads j).priority ∧ (s.threads j).priority ≤ 9)
    (hpb : ∀ p, -1 ≤ s.pbRrIndexes p ∧ s.pbRrIndexes p < maxUthreads)
    (hrr : -1 ≤ s.rrIndex ∧ s.rrIndex < maxUthreads) :
    (∃ (p : Fin priorities) (i : Fin maxUthreads), s.Served p ∧ s.getNextPB =
        some ((i : Int), { s with pbRrIndexes := Function.update s.pbRrIndexes p i }) ∧
      Cyclic getNextPB s (s.Ranked p) (s.pbRrIndexes p) (s.getNumberOfThreadInPrioirity p) i) ∧
    ∃ i : Fin maxUthreads, s.getNextRoundRobin = some ((i : Int), { s with rrIndex := i }) ∧
      Cyclic getNextRoundRobin s s.Live s.rrIndex s.liveCount i := by
  constructor
  · obtain ⟨p, hp, hserved⟩ := exists_served hlive
    obtain ⟨i, hcall, hnext⟩ := getNextPB_next hp (hpb p).1
    obtain ⟨l, t, hcalls, hlen, hturns⟩ :=
      getNextPB_turns hp (hpb p).1 (s.getNumberOfThreadInPrioirity p)
    obtain ⟨hnodup, hmem⟩ := hturns.each_once (hlen.trans (number_eq_card s p))
    simp only [inPriority_iff] at hnext hmem
    exact ⟨p, i, hserved, hcall, hnext, fun hi j hj => hnext.only hi hj, l, t, hcalls, hnodup,
      hmem⟩
  · obtain ⟨j, hj, -⟩ := hlive
    obtain ⟨i, hcall, hnext⟩ := getNextRoundRobin_next ⟨j, hj⟩ hrr.1
    obtain ⟨l, t, hcalls, hlen, hturns⟩ := getNextRoundRobin_turns ⟨j, hj⟩ hrr.1 s.liveCount
    obtain ⟨hnodup, hmem⟩ := hturns.each_once hlen
    exact ⟨i, hcall, hnext, fun hi j hj => hnext.only hi hj, l, t, hcalls, hnodup, hmem⟩

def negativeThread : Process Unit Unit :=
  (((start.uthreadCreate () (-1) ()).1.uthreadCreate () 3 ()).1.uthreadCreate () 3 ()).1

theorem negativeThread_ready : (∃ j, negativeThread.Live j ∧
      0 ≤ (negativeThread.threads j).priority ∧ (negativeThread.threads j).priority ≤ 9) ∧
    ∀ p, -1 ≤ negativeThread.pbRrIndexes p ∧ negativeThread.pbRrIndexes p < maxUthreads :=
  ⟨⟨1, by decide, by decide, by decide⟩, by decide⟩

theorem selection_cyclic_negativeThread :
    (calls getNextPB 3 negativeThread).map Prod.fst = some [1, 2, 1] ∧
    (∃ (p : Fin priorities) (i : Fin maxUthreads), negativeThread.Served p ∧
      negativeThread.getNextPB = some ((i : Int), { negativeThread with
        pbRrIndexes := Function.update negativeThread.pbRrIndexes p i }) ∧
      Cyclic getNextPB negativeThread (negativeThread.Ranked p) (negativeThread.pbRrIndexes p)
        (negativeThread.getNumberOfThreadInPrioirity p) i) ∧
    ∃ i : Fin maxUthreads,
      negativeThread.getNextRoundRobin = some ((i : Int), { negativeThread with rrIndex := i }) ∧
      Cyclic getNextRoundRobin negativeThread negativeThread.Live negativeThread.rrIndex
        negativeThread.liveCount i :=
  ⟨by decide +kernel,
    selection_cyclic negativeThread negativeThread_ready.1 negativeThread_ready.2 (by decide)⟩

theorem getNextPB_passes_negative : ¬ ∀ s : Process Unit Unit,
    (∃ j, s.Live j ∧ 0 ≤ (s.threads j).priority ∧ (s.threads j).priority ≤ 9) →
    (∀ p, -1 ≤ s.pbRrIndexes p ∧ s.pbRrIndexes p < maxUthreads) →
      ∃ (i : Fin maxUthreads) (t : Process Unit Unit), s.getNextPB = some ((i : Int), t) ∧
        s.Live i ∧ ∀ j, s.Live j → (s.threads i).priority ≤ (s.threads j).priority := by
  intro h
  obtain ⟨i, t, hcall, -, hleast⟩ :=
    h negativeThread negativeThread_ready.1 negativeThread_ready.2
  have hfirst : negativeThread.getNextPB.map Prod.fst = some 1 := by decide +kernel
  rw [hcall, Option.map_some, Option.some_inj] at hfirst
  obtain rfl : i = 1 := Fin.ext (by simpa using hfirst)
  exact absurd (hleast 0 (by decide)) (by decide)

end Process

end Xv6.Uthread
