import Xv6.Uthread.Table

namespace Xv6.Uthread

open SlotScan

namespace Process

variable {F R : Type} {s : Process F R}

def Schedulable (s : Process F R) : Prop :=
  ∃ j, s.Live j ∧ 0 ≤ (s.threads j).priority ∧ (s.threads j).priority ≤ 9

def chosenFrom (s : Process F R) (e : Call F R) : Option (Process F R) :=
  match s.phase, e with
  | .main, .startAll => some s
  | .running, .yield _ => some s
  | .running, .exit => do
    let j ← s.thread.bind slot
    if s.numberOfCT = 1 then none else some (s.freeThread j)
  | _, _ => none

def InRange (s : Process F R) (e : Call F R) : Prop :=
  ∀ u, s.chosenFrom e = some u → (∃ j, u.Live j) → u.Schedulable

def Safe (s : Process F R) (e : Call F R) : Prop :=
  ∀ u, s.chosenFrom e = some u → (∃ j, u.Live j) →
    ∃ t, s.step e = some t ∧ ∃ i : Fin maxUthreads, t.thread = some (i : Int) ∧ t.Live i

structure Pointing (s : Process F R) : Prop where
  index : ∀ p, -1 ≤ s.pbRrIndexes p ∧ s.pbRrIndexes p < maxUthreads
  current : s.phase = .running → ∃ j : Fin maxUthreads, s.thread = some (j : Int)

structure Switched (s t : Process F R) : Prop where
  index : ∀ p, -1 ≤ t.pbRrIndexes p ∧ t.pbRrIndexes p < maxUthreads
  phase : t.phase = .lost ∨ ∃ i : Fin maxUthreads, t.thread = some (i : Int)
  names : s.Schedulable ↔ ∃ i : Fin maxUthreads, t.thread = some (i : Int) ∧ t.Live i

theorem getNextPB_none (h : ¬ s.Schedulable) : s.getNextPB = some (-1, s) := by
  have hfirst : firstSlot (fun p : Fin priorities => s.getNumberOfThreadInPrioirity p != 0) =
      none := by
    refine firstSlot_none.mpr fun p => ?_
    rw [Bool.eq_false_iff]
    intro hp
    obtain ⟨j, hj, hpr⟩ := number_ne_zero.mp hp
    have hlt := p.isLt
    unfold priorities at hlt
    exact h ⟨j, hj, by omega, by omega⟩
  simp only [getNextPB, hfirst]

theorem enter_same (s : Process F R) (j : Fin maxUthreads) :
    (s.enter j).thread = s.thread ∧ (s.enter j).phase = s.phase ∧
      (s.enter j).pbRrIndexes = s.pbRrIndexes ∧ ∀ i, (s.enter j).Live i ↔ s.Live i := by
  rw [enter_eq]
  refine ⟨rfl, rfl, rfl, fun i => ?_⟩
  by_cases hi : i = j
  · simp [Live, setThread, hi]
  · simp [Live, setThread, hi]

theorem next_cases (hindex : ∀ p, -1 ≤ s.pbRrIndexes p ∧ s.pbRrIndexes p < maxUthreads) :
    (s.Schedulable ∧ ∃ (i : Fin maxUthreads) (q : Fin priorities → Int), s.Live i ∧
      (∀ p, -1 ≤ q p ∧ q p < maxUthreads) ∧
      s.nextThreadToRun = some ((i : Int), { s with pbRrIndexes := q })) ∨
    (¬ s.Schedulable ∧ s.nextThreadToRun = some (-1, s)) := by
  by_cases hs : s.Schedulable
  · obtain ⟨p, hp, -⟩ := exists_served hs
    obtain ⟨i, hcall, hnext, -⟩ := getNextPB_next hp (hindex p).1
    have hi := i.isLt
    refine .inl ⟨hs, i, _, (inPriority_iff.mp hnext).1, fun q => ?_, hcall⟩
    by_cases hq : q = p
    · subst hq
      rw [Function.update_self]
      omega
    · rw [Function.update_of_ne hq]
      exact hindex q
  · exact .inr ⟨hs, getNextPB_none hs⟩

theorem switched_lost {t : Process F R} (hs : ¬ s.Schedulable)
    (hindex : ∀ p, -1 ≤ t.pbRrIndexes p ∧ t.pbRrIndexes p < maxUthreads)
    (hthread : t.thread = some (-1)) (hphase : t.phase = .lost) : Switched s t := by
  refine ⟨hindex, .inl hphase, fun h => absurd h hs, ?_⟩
  rintro ⟨i, hi, -⟩
  have := Option.some.inj (hthread.symm.trans hi)
  omega

theorem switched_to {t : Process F R} (hs : s.Schedulable)
    (hindex : ∀ p, -1 ≤ t.pbRrIndexes p ∧ t.pbRrIndexes p < maxUthreads) {i : Fin maxUthreads}
    (hthread : t.thread = some (i : Int)) (hlive : t.Live i) : Switched s t :=
  ⟨hindex, .inr ⟨i, hthread⟩, fun _ => ⟨i, hthread, hlive⟩, fun _ => hs⟩

theorem switch_switched (hindex : ∀ p, -1 ≤ s.pbRrIndexes p ∧ s.pbRrIndexes p < maxUthreads) :
    ∃ t, s.switch = some t ∧ Switched s t := by
  rcases next_cases hindex with ⟨hs, i, q, hi, hq, hnext⟩ | ⟨hs, hnext⟩
  · obtain ⟨hthread, -, hpb, hlive⟩ := enter_same
      { s with pbRrIndexes := q, thread := some (i : Int), regs := (s.threads i).ss } i
    refine ⟨_, ?_, switched_to hs (hpb ▸ hq) hthread ((hlive i).mpr hi)⟩
    rw [switch, hnext]
    simp only [bind, Option.bind, slot_val]
    rfl
  · refine ⟨{ s with thread := some (-1), phase := .lost }, ?_, switched_lost hs hindex rfl rfl⟩
    rw [switch, hnext]
    rfl

theorem startAll_switched
    (hindex : ∀ p, -1 ≤ s.pbRrIndexes p ∧ s.pbRrIndexes p < maxUthreads) :
    ∃ t, s.uthreadStartAll = some t ∧ Switched s t := by
  rcases next_cases hindex with ⟨hs, i, q, hi, hq, hnext⟩ | ⟨hs, hnext⟩
  · obtain ⟨hthread, -, hpb, hlive⟩ := enter_same
      { s with pbRrIndexes := q, thread := some (i : Int), phase := .running } i
    by_cases hf : (s.threads i).firstRun = true
    · refine ⟨_, ?_, switched_to hs (hpb ▸ hq) hthread ((hlive i).mpr hi)⟩
      rw [uthreadStartAll, hnext]
      simp only [bind, Option.bind, slot_val, hf, if_true]
      rfl
    · refine ⟨{ enter { s with pbRrIndexes := q, thread := some (i : Int), phase := .running } i
        with regs := (s.threads i).ss }, ?_,
        switched_to hs (hpb ▸ hq) hthread ((hlive i).mpr hi)⟩
      rw [uthreadStartAll, hnext]
      simp only [bind, Option.bind, slot_val, hf]
      rfl
  · refine ⟨{ s with thread := some (-1), phase := .lost }, ?_, switched_lost hs hindex rfl rfl⟩
    rw [uthreadStartAll, hnext]
    rfl

theorem saved_schedulable (j : Fin maxUthreads) (regs : R) :
    (s.setThread j { s.threads j with ss := some regs }).Schedulable ↔ s.Schedulable := by
  have hat : ∀ i, ((s.setThread j { s.threads j with ss := some regs }).threads i).tid =
        (s.threads i).tid ∧
      ((s.setThread j { s.threads j with ss := some regs }).threads i).priority =
        (s.threads i).priority := by
    intro i
    by_cases hi : i = j
    · simp [setThread, hi]
    · simp [setThread, hi]
  simp only [Schedulable, Live, hat]

theorem freeThread_index (s : Process F R) (j : Fin maxUthreads) :
    (s.freeThread j).pbRrIndexes = s.pbRrIndexes := by
  unfold freeThread
  dsimp only
  split <;> rfl

theorem Pointing.create (hp : s.Pointing) (f : F) (priority : Int) (stack : R) :
    (s.uthreadCreate f priority stack).1.Pointing := by
  unfold uthreadCreate
  split <;> exact ⟨hp.index, hp.current⟩

theorem Pointing.setpr (hp : s.Pointing) {priority r : Int} {t : Process F R}
    (h : s.uthreadSetpr priority = some (t, r)) : t.Pointing := by
  unfold uthreadSetpr at h
  split_ifs at h with hrange
  · obtain ⟨j, -, hset⟩ := Option.bind_eq_some_iff.mp h
    cases hset
    exact ⟨hp.index, hp.current⟩
  · cases h
    exact hp

theorem Pointing.chosen (hp : s.Pointing) {e : Call F R} {u : Process F R}
    (hu : s.chosenFrom e = some u) : ∃ t, s.step e = some t ∧ Switched u t := by
  unfold chosenFrom at hu
  split at hu
  case h_1 hphase =>
    cases hu
    simp only [step, hphase]
    exact startAll_switched hp.index
  case h_2 regs hphase =>
    cases hu
    obtain ⟨j, hj⟩ := hp.current hphase
    obtain ⟨t, ht, hsw⟩ :=
      switch_switched (s := s.setThread j { s.threads j with ss := some regs }) hp.index
    refine ⟨t, ?_, hsw.index, hsw.phase, (saved_schedulable j regs).symm.trans hsw.names⟩
    simp only [step, hphase]
    rw [uthreadYield, hj, Option.bind_some, slot_val]
    exact ht
  case h_3 hphase =>
    obtain ⟨j, hj⟩ := hp.current hphase
    rw [hj, Option.bind_some, slot_val] at hu
    simp only [bind, Option.bind] at hu
    split_ifs at hu with hone
    cases hu
    obtain ⟨t, ht, hsw⟩ :=
      switch_switched (s := s.freeThread j) (freeThread_index s j ▸ hp.index)
    refine ⟨t, ?_, hsw⟩
    simp only [step, hphase]
    rw [uthreadExit, hj, Option.bind_some, slot_val]
    simp [hone, ht]
  case h_4 => cases hu

theorem Pointing.step (hp : s.Pointing) {e : Call F R} {t : Process F R}
    (ht : s.step e = some t) : t.Pointing := by
  cases hu : s.chosenFrom e with
  | some u =>
    obtain ⟨t', ht', hsw⟩ := hp.chosen hu
    cases ht.symm.trans ht'
    refine ⟨hsw.index, fun hr => hsw.phase.resolve_left fun hl => ?_⟩
    rw [hr] at hl
    cases hl
  | none =>
    unfold Process.step at ht
    split at ht
    case h_1 | h_3 =>
      cases ht
      exact hp.create _ _ _
    case h_2 hphase =>
      simp only [chosenFrom, hphase] at hu
      cases hu
    case h_4 hphase =>
      simp only [chosenFrom, hphase] at hu
      cases hu
    case h_5 hphase =>
      obtain ⟨⟨u, r⟩, hset, rfl⟩ := Option.map_eq_some_iff.mp ht
      exact hp.setpr hset
    case h_6 hphase =>
      obtain ⟨j, hj⟩ := hp.current hphase
      simp only [chosenFrom, hphase, hj, slot_val, bind, Option.bind] at hu
      rw [uthreadExit, hj, Option.bind_some, slot_val] at ht
      split_ifs at hu with hone
      simp only [bind, Option.bind, hone, if_true] at ht
      cases ht
      exact ⟨freeThread_index s j ▸ hp.index, fun h => by cases h⟩
    case h_7 => cases ht

theorem Pointing.safe_iff (hp : s.Pointing) (e : Call F R) : s.Safe e ↔ s.InRange e := by
  constructor
  · intro h u hu hlive
    obtain ⟨t, ht, hsw⟩ := hp.chosen hu
    obtain ⟨t', ht', hnames⟩ := h u hu hlive
    cases ht.symm.trans ht'
    exact hsw.names.mpr hnames
  · intro h u hu hlive
    obtain ⟨t, ht, hsw⟩ := hp.chosen hu
    exact ⟨t, ht, hsw.names.mp (h u hu hlive)⟩

theorem start_pointing : (start : Process F R).Pointing := by
  refine ⟨fun p => ?_, fun h => by cases h⟩
  simp only [start]
  split_ifs <;> decide

theorem scheduler_safe_iff (es : List (Call F R)) :
    GuardedRun.along step Safe (start : Process F R) es ↔
      GuardedRun.along step InRange (start : Process F R) es := by
  constructor
  · intro h
    exact GuardedRun.along_of_invariant (fun s e t hp _ ht => Pointing.step hp ht)
      (fun s e hp hc => (hp.safe_iff e).mp hc) start_pointing h
  · intro h
    exact GuardedRun.along_of_invariant (fun s e t hp _ ht => Pointing.step hp ht)
      (fun s e hp hc => (hp.safe_iff e).mpr hc) start_pointing h

-- A thread of the priority 10 is never found.
theorem scheduler_leaves_table :
    ¬ ∀ es : List (Call Unit Unit), GuardedRun.along step Safe start es := by
  intro h
  have hrun := h [.create () 10 (), .startAll]
  obtain ⟨s, hs⟩ : ∃ s, step (start : Process Unit Unit) (.create () 10 ()) = some s := ⟨_, rfl⟩
  have hsafe := (hrun.2 s hs).1
  cases hs
  obtain ⟨t, ht, i, hi, -⟩ := hsafe _ rfl ⟨0, by decide⟩
  have hlost : (step (start.uthreadCreate () 10 ()).1 (.startAll : Call Unit Unit)).map
      Process.thread = some (some (-1)) := by decide +kernel
  rw [ht, Option.map_some, hi] at hlost
  have := Option.some.inj (Option.some.inj hlost)
  omega

end Process

end Xv6.Uthread
