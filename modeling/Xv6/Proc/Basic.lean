import Xv6.Lib.SlotScan
import Xv6.Param

namespace Xv6

open SlotScan

inductive ProcState where
  | unused
  | embryo
  | sleeping
  | runnable
  | running
  | zombie
  | blocking
  deriving DecidableEq, Repr

structure Proc (n : Nat) where
  sz : Nat
  pgdir : Nat
  kstack : Nat
  state : ProcState
  pid : Int
  parent : Option (Fin n)
  chan : Option (Fin n)
  killed : Bool
  threadId : Int
  sleepingThreads : Fin 64 → Option (Fin n)

abbrev Ptable (n : Nat) := Fin n → Proc n

variable {n : Nat}

def setState (pt : Ptable n) (i : Fin n) (st : ProcState) : Ptable n :=
  Function.update pt i { pt i with state := st }

theorem setState_state (pt : Ptable n) (i j : Fin n) (st : ProcState) :
    (setState pt i st j).state = if j = i then st else (pt j).state := by
  by_cases h : j = i
  · subst h; simp [setState]
  · simp [setState, h]

@[simp] theorem setState_threadId (pt : Ptable n) (i j : Fin n) (st : ProcState) :
    (setState pt i st j).threadId = (pt j).threadId := by
  by_cases h : j = i
  · subst h; simp [setState]
  · simp [setState, h]

@[simp] theorem setState_self (pt : Ptable n) (i : Fin n) (st : ProcState) :
    (setState pt i st i).state = st := by simp [setState_state]

theorem setState_other (pt : Ptable n) {i j : Fin n} (st : ProcState) (h : j ≠ i) :
    (setState pt i st j).state = (pt j).state := by simp [setState_state, h]

def wakeBlocked (pt : Ptable n) (tidToWakeUp : Int) : Ptable n :=
  match firstSlot (fun p => decide ((pt p).state = .blocking ∧ (pt p).threadId = tidToWakeUp)) with
  | some p => setState pt p .runnable
  | none => pt

theorem wakeBlocked_cases (pt : Ptable n) (tid : Int) :
    wakeBlocked pt tid = pt ∨ ∃ p, ((pt p).state = .blocking ∧ (pt p).threadId = tid) ∧
      wakeBlocked pt tid = setState pt p .runnable := by
  unfold wakeBlocked
  cases hp : firstSlot (fun p => decide ((pt p).state = .blocking ∧ (pt p).threadId = tid)) with
  | none => exact Or.inl rfl
  | some p => exact Or.inr ⟨p, of_decide_eq_true (firstSlot_some hp), rfl⟩

@[simp] theorem wakeBlocked_threadId (pt : Ptable n) (tid : Int) (j : Fin n) :
    (wakeBlocked pt tid j).threadId = (pt j).threadId := by
  rcases wakeBlocked_cases pt tid with h | ⟨p, _, h⟩ <;> simp [h]

theorem wakeBlocked_state_cases (pt : Ptable n) (tid : Int) (j : Fin n) :
    (wakeBlocked pt tid j).state = (pt j).state ∨
      (wakeBlocked pt tid j).state = .runnable ∧
        (pt j).state = .blocking ∧ (pt j).threadId = tid := by
  rcases wakeBlocked_cases pt tid with h | ⟨p, hp, h⟩
  · exact Or.inl (by rw [h])
  · by_cases hj : j = p
    · subst hj
      exact Or.inr ⟨by simp [h], hp⟩
    · exact Or.inl (by rw [h, setState_other pt _ hj])

theorem wakeBlocked_blocking {pt : Ptable n} {tid : Int} {j : Fin n}
    (h : (wakeBlocked pt tid j).state = .blocking) : (pt j).state = .blocking := by
  rcases wakeBlocked_state_cases pt tid j with hs | hs
  · rw [← hs]; exact h
  · exact hs.2.1

theorem wakeBlocked_wakes {pt : Ptable n} {j : Fin n}
    (hinj : Function.Injective (fun i => (pt i).threadId)) (hj : (pt j).state = .blocking) :
    (wakeBlocked pt (pt j).threadId j).state = .runnable := by
  have hfirst : firstSlot (fun p => decide ((pt p).state = .blocking ∧
      (pt p).threadId = (pt j).threadId)) = some j := by
    apply firstSlot_unique
    · simpa using hj
    · intro k hk
      exact hinj (of_decide_eq_true hk).2
  unfold wakeBlocked
  rw [hfirst]
  exact setState_self pt j .runnable

theorem wakeBlocked_not_blocking {pt : Ptable n} {tid : Int} {j : Fin n}
    (hinj : Function.Injective (fun i => (pt i).threadId))
    (h : (wakeBlocked pt tid j).state = .blocking) :
    (pt j).state = .blocking ∧ (pt j).threadId ≠ tid := by
  have hj := wakeBlocked_blocking h
  refine ⟨hj, ?_⟩
  rintro rfl
  simp [wakeBlocked_wakes hinj hj] at h

end Xv6
