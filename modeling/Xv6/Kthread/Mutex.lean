import Xv6.Lib.RingBuffer
import Xv6.Proc.Basic

namespace Xv6

open RingBuffer

abbrev maxMutexes : Int := 64
abbrev maxThreads : Int := 256

abbrev mUnused : Int := 0
abbrev mUnlocked : Int := 1
abbrev mLocked : Int := 2

structure KthreadMutex where
  tid : Int
  sleepingTID : Int → Int
  status : Int
  count : Int
  startIndex : Int

-- One record is 1 + maxThreads + 3 ints without padding; indexing `sleepingTID` is address
-- arithmetic on these words, so an index below 0 reaches `tid` and then the record before.
abbrev mutexWords : Int := 260

def KthreadMutex.word (m : KthreadMutex) (w : Int) : Int :=
  if w = 0 then m.tid
  else if w ≤ maxThreads then m.sleepingTID (w - 1)
  else if w = maxThreads + 1 then m.status
  else if w = maxThreads + 2 then m.count
  else m.startIndex

def KthreadMutex.setWord (m : KthreadMutex) (w v : Int) : KthreadMutex :=
  if w = 0 then { m with tid := v }
  else if w ≤ maxThreads then { m with sleepingTID := Function.update m.sleepingTID (w - 1) v }
  else if w = maxThreads + 1 then { m with status := v }
  else if w = maxThreads + 2 then { m with count := v }
  else { m with startIndex := v }

abbrev Mtable := Int → KthreadMutex

def sleepingAddr (mutexId i : Int) : Int := mutexId * mutexWords + 1 + i

def loadSleepingTID (t : Mtable) (mutexId i : Int) : Int :=
  (t (sleepingAddr mutexId i / mutexWords)).word (sleepingAddr mutexId i % mutexWords)

def storeSleepingTID (t : Mtable) (mutexId i v : Int) : Mtable :=
  Function.update t (sleepingAddr mutexId i / mutexWords)
    ((t (sleepingAddr mutexId i / mutexWords)).setWord (sleepingAddr mutexId i % mutexWords) v)

theorem sleepingAddr_record (mutexId i : Int) (h0 : -1 ≤ i) (h1 : i < maxThreads) :
    sleepingAddr mutexId i / mutexWords = mutexId ∧
      sleepingAddr mutexId i % mutexWords = i + 1 := by
  simp only [sleepingAddr, mutexWords, maxThreads] at *
  omega

theorem loadSleepingTID_inside (t : Mtable) (mutexId : Int) {i : Int}
    (h0 : 0 ≤ i) (h1 : i < maxThreads) :
    loadSleepingTID t mutexId i = (t mutexId).sleepingTID i := by
  obtain ⟨hd, hm⟩ := sleepingAddr_record mutexId i (by omega) h1
  have hw : i + 1 ≠ 0 := by omega
  have hr : i + 1 ≤ maxThreads := by omega
  simp only [loadSleepingTID, hd, hm, KthreadMutex.word, if_neg hw, if_pos hr]
  congr 1
  omega

theorem storeSleepingTID_inside (t : Mtable) (mutexId v : Int) {i : Int}
    (h0 : 0 ≤ i) (h1 : i < maxThreads) :
    storeSleepingTID t mutexId i v = Function.update t mutexId
      { t mutexId with sleepingTID := Function.update (t mutexId).sleepingTID i v } := by
  obtain ⟨hd, hm⟩ := sleepingAddr_record mutexId i (by omega) h1
  have hw : i + 1 ≠ 0 := by omega
  have hr : i + 1 ≤ maxThreads := by omega
  simp only [storeSleepingTID, hd, hm, KthreadMutex.setWord, if_neg hw, if_pos hr]
  rw [show i + 1 - 1 = i by omega]

theorem storeSleepingTID_below (t : Mtable) (mutexId v : Int) :
    storeSleepingTID t mutexId (-1) v =
      Function.update t mutexId { t mutexId with tid := v } := by
  obtain ⟨hd, hm⟩ := sleepingAddr_record mutexId (-1) (by omega) (by decide)
  simp only [storeSleepingTID, hd, hm, KthreadMutex.setWord]
  simp

def isInQueueLoop (t : Mtable) (mutexId threadID checkUntil : Int) : Nat → Int → Option Bool
  | 0, _ => none
  | fuel + 1, i =>
    if i = checkUntil then some false
    else if loadSleepingTID t mutexId i = threadID then some true
    else isInQueueLoop t mutexId threadID checkUntil fuel ((i + 1).tmod maxMutexes)

def isInQueue (t : Mtable) (mutexId threadID : Int) : Option Bool :=
  isInQueueLoop t mutexId threadID
    (((t mutexId).startIndex + (t mutexId).count + 1).tmod maxMutexes)
    (maxMutexes.toNat + 2) (t mutexId).startIndex

def kthreadMutexAlloc (t : Mtable) : Mtable × Int :=
  match (List.range maxMutexes.toNat).find? (fun i : Nat => decide ((t i).status = mUnused)) with
  | some i => (Function.update t i ⟨0, fun _ => 0, mUnlocked, 0, 0⟩, i)
  | none => (t, -1)

def freeMutex (t : Mtable) (mutexId : Int) : Mtable :=
  Function.update t mutexId { t mutexId with status := mUnused }

def kthreadMutexDealloc (t : Mtable) (mutexId : Int) : Mtable × Int :=
  if (t mutexId).status = mUnlocked then (freeMutex t mutexId, 0) else (t, -1)

inductive LockOutcome where
  | ret (r : Int)
  | block
  deriving DecidableEq, Repr

def enqueueMutex (t : Mtable) (mutexId threadId : Int) : Mtable :=
  let destinationIndex := ((t mutexId).startIndex + (t mutexId).count).tmod maxThreads
  let t1 := storeSleepingTID t mutexId destinationIndex threadId
  Function.update t1 mutexId { t1 mutexId with count := (t1 mutexId).count + 1 }

def takeMutex (t : Mtable) (mutexId threadId : Int) : Mtable :=
  Function.update t mutexId { t mutexId with status := mLocked, tid := threadId }

def kthreadMutexLock (t : Mtable) (mutexId threadId : Int) : Option (Mtable × LockOutcome) :=
  if (t mutexId).status = mUnused then some (t, .ret (-1))
  else if (t mutexId).status = mUnlocked then
    some (takeMutex t mutexId threadId, .ret 0)
  else if (t mutexId).status = mLocked then
    match isInQueue t mutexId threadId with
    | some false => some (enqueueMutex t mutexId threadId, .block)
    | some true => some (t, .block)
    | none => none
  else none

def dequeueMutex (m : KthreadMutex) (tidToWakeUp : Int) : KthreadMutex :=
  if tidToWakeUp ≠ 0 then
    { m with count := m.count - 1, startIndex := (m.startIndex + 1).tmod maxThreads }
  else m

def openMutex (t : Mtable) (mutexId : Int) : Mtable :=
  Function.update t mutexId { t mutexId with status := mUnlocked, tid := 0 }

def tidToWakeUp (t : Mtable) (mutexId : Int) : Int :=
  loadSleepingTID (openMutex t mutexId) mutexId (openMutex t mutexId mutexId).startIndex

def releaseMutex (t : Mtable) (mutexId : Int) : Mtable :=
  Function.update (openMutex t mutexId) mutexId
    (dequeueMutex (openMutex t mutexId mutexId) (tidToWakeUp t mutexId))

variable {n : Nat}

def kthreadMutexUnlock (t : Mtable) (pt : Ptable n) (mutexId threadId : Int) :
    Mtable × Ptable n × Int :=
  if threadId = (t mutexId).tid ∧ (t mutexId).status = mLocked then
    (releaseMutex t mutexId, wakeBlocked pt (tidToWakeUp t mutexId), 0)
  else (t, pt, -1)

theorem kthreadMutexAlloc_cases (t : Mtable) :
    kthreadMutexAlloc t = (t, -1) ∨ ∃ m : Int, (0 ≤ m ∧ m < maxMutexes) ∧
      (t m).status = mUnused ∧
      kthreadMutexAlloc t = (Function.update t m ⟨0, fun _ => 0, mUnlocked, 0, 0⟩, m) := by
  unfold kthreadMutexAlloc
  split
  · rename_i i hi
    have hr := List.mem_range.mp (List.mem_of_find?_eq_some hi)
    simp only [maxMutexes] at hr ⊢
    exact Or.inr ⟨i, by omega, by simpa using List.find?_some hi, rfl⟩
  · exact Or.inl rfl

theorem enqueueMutex_inside (t : Mtable) (mutexId threadId : Int)
    (h : 0 ≤ (t mutexId).startIndex + (t mutexId).count) :
    enqueueMutex t mutexId threadId = Function.update t mutexId
      { t mutexId with
        sleepingTID := Function.update (t mutexId).sleepingTID
          (((t mutexId).startIndex + (t mutexId).count) % maxThreads) threadId
        count := (t mutexId).count + 1 } := by
  have hmod := Int.tmod_eq_emod_of_nonneg (b := maxThreads) h
  have h0 := Int.emod_nonneg ((t mutexId).startIndex + (t mutexId).count)
    (show maxThreads ≠ 0 by decide)
  have h1 := Int.emod_lt_of_pos ((t mutexId).startIndex + (t mutexId).count)
    (show (0 : Int) < maxThreads by decide)
  simp only [enqueueMutex, hmod, storeSleepingTID_inside t mutexId threadId h0 h1,
    Function.update_self, Function.update_idem]

theorem enqueueMutex_below (t : Mtable) (mutexId threadId : Int)
    (h : (t mutexId).startIndex + (t mutexId).count = -1) :
    enqueueMutex t mutexId threadId = Function.update t mutexId
      { t mutexId with tid := threadId, count := (t mutexId).count + 1 } := by
  have hmod : (-1 : Int).tmod maxThreads = -1 := by decide
  simp only [enqueueMutex, h, hmod, storeSleepingTID_below, Function.update_self,
    Function.update_idem]

theorem dequeueMutex_status (m : KthreadMutex) (tid : Int) :
    (dequeueMutex m tid).status = m.status := by
  unfold dequeueMutex; split <;> rfl

theorem dequeueMutex_tid (m : KthreadMutex) (tid : Int) : (dequeueMutex m tid).tid = m.tid := by
  unfold dequeueMutex; split <;> rfl

theorem releaseMutex_self (t : Mtable) (mutexId : Int) :
    (releaseMutex t mutexId mutexId).status = mUnlocked ∧
      (releaseMutex t mutexId mutexId).tid = 0 := by
  simp [releaseMutex, openMutex, dequeueMutex_status, dequeueMutex_tid]

theorem releaseMutex_other (t : Mtable) {mutexId m : Int} (h : m ≠ mutexId) :
    releaseMutex t mutexId m = t m := by
  simp [releaseMutex, openMutex, h]

theorem tidToWakeUp_inside (t : Mtable) (mutexId : Int) (h0 : 0 ≤ (t mutexId).startIndex)
    (h1 : (t mutexId).startIndex < maxThreads) :
    tidToWakeUp t mutexId = (t mutexId).sleepingTID (t mutexId).startIndex := by
  have hs : (openMutex t mutexId mutexId).startIndex = (t mutexId).startIndex := by
    simp [openMutex]
  rw [tidToWakeUp, hs, loadSleepingTID_inside _ _ h0 h1]
  simp [openMutex]

theorem isInQueue_empty (t : Mtable) (mutexId threadID : Int) (hc : (t mutexId).count = 0)
    (h0 : 0 ≤ (t mutexId).startIndex) (h1 : (t mutexId).startIndex < maxThreads) :
    isInQueue t mutexId threadID =
      some (decide ((t mutexId).sleepingTID (t mutexId).startIndex = threadID)) := by
  have hmod : ((t mutexId).startIndex + 1).tmod maxMutexes =
      ((t mutexId).startIndex + 1) % maxMutexes := Int.tmod_eq_emod_of_nonneg (by omega)
  have hne : (t mutexId).startIndex ≠ ((t mutexId).startIndex + 1) % maxMutexes := by
    simp only [maxMutexes]; omega
  simp only [isInQueue, hc, add_zero, hmod]
  generalize maxMutexes.toNat = fuel
  simp only [isInQueueLoop, if_neg hne, hmod, loadSleepingTID_inside t mutexId h0 h1, if_true]
  split <;> simp [*]

theorem kthreadMutexLock_ret {t t' : Mtable} {mutexId threadId r : Int}
    (h : kthreadMutexLock t mutexId threadId = some (t', .ret r)) :
    (t mutexId).status = mUnused ∧ t' = t ∧ r = -1 ∨
      (t mutexId).status = mUnlocked ∧ r = 0 ∧ t' = takeMutex t mutexId threadId := by
  unfold kthreadMutexLock at h
  split at h
  · rename_i hs
    simp only [Option.some.injEq, Prod.mk.injEq, LockOutcome.ret.injEq] at h
    exact Or.inl ⟨hs, h.1.symm, h.2.symm⟩
  · split at h
    · rename_i hs
      simp only [Option.some.injEq, Prod.mk.injEq, LockOutcome.ret.injEq] at h
      exact Or.inr ⟨hs, h.2.symm, h.1.symm⟩
    · split at h
      · split at h <;> simp at h
      · simp at h

theorem kthreadMutexLock_block {t t' : Mtable} {mutexId threadId : Int}
    (h : kthreadMutexLock t mutexId threadId = some (t', .block)) :
    (t mutexId).status = mLocked ∧
      (isInQueue t mutexId threadId = some true ∧ t' = t ∨
        isInQueue t mutexId threadId = some false ∧ t' = enqueueMutex t mutexId threadId) := by
  unfold kthreadMutexLock at h
  split at h
  · simp at h
  · split at h
    · simp at h
    · split at h
      · rename_i hs
        refine ⟨hs, ?_⟩
        split at h
        · rename_i hq
          simp only [Option.some.injEq, Prod.mk.injEq, and_true] at h
          exact Or.inr ⟨hq, h.symm⟩
        · rename_i hq
          simp only [Option.some.injEq, Prod.mk.injEq, and_true] at h
          exact Or.inl ⟨hq, h.symm⟩
        · simp at h
      · simp at h

theorem kthreadMutexUnlock_owner (t : Mtable) (pt : Ptable n) {mutexId threadId : Int}
    (h : threadId = (t mutexId).tid ∧ (t mutexId).status = mLocked) :
    kthreadMutexUnlock t pt mutexId threadId =
      (releaseMutex t mutexId, wakeBlocked pt (tidToWakeUp t mutexId), 0) := if_pos h

theorem kthreadMutexUnlock_other (t : Mtable) (pt : Ptable n) {mutexId threadId : Int}
    (h : ¬ (threadId = (t mutexId).tid ∧ (t mutexId).status = mLocked)) :
    kthreadMutexUnlock t pt mutexId threadId = (t, pt, -1) := if_neg h

end Xv6
