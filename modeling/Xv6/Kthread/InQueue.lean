import Xv6.Kthread.Mutex

namespace Xv6

open RingBuffer

def KthreadMutex.scanned (m : KthreadMutex) : List Int :=
  if m.startIndex < maxMutexes ∧ m.count % maxMutexes = maxMutexes - 1 then []
  else m.startIndex :: entries maxMutexes id (m.startIndex + 1) (m.count % maxMutexes)

def KthreadMutex.waiting (m : KthreadMutex) : List Int :=
  entries maxThreads id m.startIndex m.count

theorem entries_eq_map {α : Type} (N : Int) (f : Int → α) (start count : Int) :
    entries N f start count = (entries N id start count).map f := by
  simp [entries]

theorem isInQueueLoop_eq (t : Mtable) (mutexId threadID : Int) {checkUntil : Int} {d fuel : Nat}
    {i : Int} (hi : 0 ≤ i ∧ i < maxMutexes) (hd : (d : Int) < maxMutexes)
    (hend : (i + d) % maxMutexes = checkUntil) (hf : d < fuel) :
    isInQueueLoop t mutexId threadID checkUntil fuel i =
      some (decide (threadID ∈ entries maxMutexes (t mutexId).sleepingTID i d)) := by
  induction d generalizing fuel i with
  | zero =>
    obtain ⟨fuel, rfl⟩ : ∃ k, fuel = k + 1 := ⟨fuel - 1, by omega⟩
    have hat : i = checkUntil := by
      simp only [maxMutexes] at *
      omega
    rw [isInQueueLoop, if_pos hat]
    rfl
  | succ d ih =>
    obtain ⟨fuel, rfl⟩ : ∃ k, fuel = k + 1 := ⟨fuel - 1, by omega⟩
    have hne : i ≠ checkUntil := by
      simp only [maxMutexes] at *
      push_cast at *
      omega
    have hmod : (i + 1).tmod maxMutexes = (i + 1) % maxMutexes :=
      Int.tmod_eq_emod_of_nonneg (by omega)
    have hnext : isInQueueLoop t mutexId threadID checkUntil fuel ((i + 1) % maxMutexes) = _ :=
      ih ⟨Int.emod_nonneg _ (by decide), Int.emod_lt_of_pos _ (by decide)⟩
        (by push_cast at hd; omega)
        (by rw [Int.emod_add_emod, ← hend]; push_cast; congr 1; ring) (by omega)
    have hhere : i % maxMutexes = i := Int.emod_eq_of_lt hi.1 hi.2
    have hcount : ((d + 1 : Nat) : Int) - 1 = d := by omega
    have hfirst : entries maxMutexes (t mutexId).sleepingTID i (d + 1 : Nat) = _ :=
      entries_dequeue _ (by omega)
    rw [isInQueueLoop, if_neg hne, hmod, hnext,
      loadSleepingTID_inside t mutexId hi.1 (lt_trans hi.2 (by decide)), hfirst, hhere, hcount]
    by_cases h : (t mutexId).sleepingTID i = threadID
    · simp [h]
    · simp [h, Ne.symm h]

theorem isInQueue_eq (t : Mtable) (mutexId threadID : Int)
    (h0 : 0 ≤ (t mutexId).startIndex) (h1 : (t mutexId).startIndex < maxThreads)
    (hc : 0 ≤ (t mutexId).count) :
    isInQueue t mutexId threadID = some (decide
      (threadID ∈ (t mutexId).scanned.map (t mutexId).sleepingTID)) := by
  have hend : ((t mutexId).startIndex + (t mutexId).count + 1).tmod maxMutexes =
      ((t mutexId).startIndex + (t mutexId).count + 1) % maxMutexes :=
    Int.tmod_eq_emod_of_nonneg (by omega)
  have hmod : ((t mutexId).startIndex + 1).tmod maxMutexes =
      ((t mutexId).startIndex + 1) % maxMutexes := Int.tmod_eq_emod_of_nonneg (by omega)
  rw [isInQueue, show maxMutexes.toNat + 2 = 65 + 1 from rfl, isInQueueLoop, hend, hmod,
    loadSleepingTID_inside t mutexId h0 h1, KthreadMutex.scanned]
  by_cases hskip : (t mutexId).startIndex < maxMutexes ∧
      (t mutexId).count % maxMutexes = maxMutexes - 1
  · -- The end mark has come back to the start, and nothing is looked at.
    have hsame : (t mutexId).startIndex =
        ((t mutexId).startIndex + (t mutexId).count + 1) % maxMutexes := by
      simp only [maxMutexes] at *
      omega
    rw [if_pos hsame, if_pos hskip]
    rfl
  · have hne : (t mutexId).startIndex ≠
        ((t mutexId).startIndex + (t mutexId).count + 1) % maxMutexes := by
      simp only [maxMutexes] at *
      omega
    have hlen := Int.toNat_of_nonneg
      (Int.emod_nonneg (t mutexId).count (show maxMutexes ≠ 0 by decide))
    have hlt := Int.emod_lt_of_pos (t mutexId).count (show 0 < maxMutexes by decide)
    have hnext : isInQueueLoop t mutexId threadID
        (((t mutexId).startIndex + (t mutexId).count + 1) % maxMutexes) 65
        (((t mutexId).startIndex + 1) % maxMutexes) = _ :=
      isInQueueLoop_eq t mutexId threadID (d := ((t mutexId).count % maxMutexes).toNat)
        ⟨Int.emod_nonneg _ (by decide), Int.emod_lt_of_pos _ (by decide)⟩ (by omega)
        (by rw [hlen, Int.add_emod_emod, Int.emod_add_emod]; congr 1; ring)
        (by simp only [maxMutexes] at *; omega)
    rw [hlen, entries_congr_start _ (Int.emod_emod_of_dvd _ dvd_rfl), entries_eq_map] at hnext
    rw [if_neg hne, if_neg hskip, hnext, List.map_cons]
    by_cases h : (t mutexId).sleepingTID (t mutexId).startIndex = threadID
    · simp [h]
    · simp [h, Ne.symm h]

namespace KthreadMutex

variable {m : KthreadMutex} {threadID : Int}

structure Harmless (m : KthreadMutex) (threadID : Int) : Prop where
  extra : ∀ i ∈ m.scanned, i ∉ m.waiting → m.sleepingTID i = threadID →
    ∃ j ∈ m.waiting, m.sleepingTID j = threadID
  missed : ∀ j ∈ m.waiting, j ∉ m.scanned → m.sleepingTID j = threadID →
    ∃ i ∈ m.scanned, m.sleepingTID i = threadID

theorem harmless_iff : m.Harmless threadID ↔
    (threadID ∈ m.scanned.map m.sleepingTID ↔ threadID ∈ m.waiting.map m.sleepingTID) := by
  simp only [List.mem_map]
  constructor
  · intro h
    constructor
    · rintro ⟨i, hi, hid⟩
      by_cases hw : i ∈ m.waiting
      · exact ⟨i, hw, hid⟩
      · exact h.extra i hi hw hid
    · rintro ⟨j, hj, hid⟩
      by_cases hs : j ∈ m.scanned
      · exact ⟨j, hs, hid⟩
      · exact h.missed j hj hs hid
  · intro h
    exact ⟨fun i hi _ hid => h.mp ⟨i, hi, hid⟩, fun j hj _ hid => h.mpr ⟨j, hj, hid⟩⟩

end KthreadMutex

theorem isInQueue_decides_iff (t : Mtable) (mutexId threadID : Int)
    (h0 : 0 ≤ (t mutexId).startIndex) (h1 : (t mutexId).startIndex < maxThreads)
    (hc0 : 0 ≤ (t mutexId).count) (_hc1 : (t mutexId).count < maxThreads) :
    (∃ b, isInQueue t mutexId threadID = some b ∧ (b = true ↔ threadID ∈
      entries maxThreads (t mutexId).sleepingTID (t mutexId).startIndex (t mutexId).count)) ↔
      (t mutexId).Harmless threadID := by
  rw [isInQueue_eq t mutexId threadID h0 h1 hc0, KthreadMutex.harmless_iff, entries_eq_map,
    ← KthreadMutex.waiting]
  constructor
  · rintro ⟨b, hb, hiff⟩
    rw [← hiff, ← Option.some.inj hb, decide_eq_true_iff]
  · intro hiff
    exact ⟨_, rfl, by rw [decide_eq_true_iff, hiff]⟩

def oneWaiting : Mtable := fun _ => ⟨1, Function.update (fun _ => 0) 0 5, mLocked, 1, 0⟩

theorem isInQueue_decides_oneWaiting :
    ∃ b, isInQueue oneWaiting 0 5 = some b ∧ (b = true ↔ (5 : Int) ∈
      entries maxThreads (oneWaiting 0).sleepingTID (oneWaiting 0).startIndex
        (oneWaiting 0).count) := by
  refine (isInQueue_decides_iff oneWaiting 0 5 (by decide) (by decide) (by decide) (by decide)).mpr
    ⟨fun i hi hw => ?_, fun j hj hs => ?_⟩
  · intro _
    exact ⟨0, by decide, rfl⟩
  · intro _
    exact ⟨0, by decide, rfl⟩

def oneLeft : Mtable := fun _ => ⟨1, Function.update (fun _ => 0) 0 5, mLocked, 0, 0⟩

theorem isInQueue_finds_leftover : ¬ ∀ (t : Mtable) (mutexId threadID : Int),
    0 ≤ (t mutexId).startIndex → (t mutexId).startIndex < maxThreads →
    0 ≤ (t mutexId).count → (t mutexId).count < maxThreads →
    ∃ b, isInQueue t mutexId threadID = some b ∧ (b = true ↔ threadID ∈
      entries maxThreads (t mutexId).sleepingTID (t mutexId).startIndex (t mutexId).count) := by
  intro hall
  obtain ⟨b, hb, hiff⟩ := hall oneLeft 0 5 (by decide) (by decide) (by decide) (by decide)
  have hfound : isInQueue oneLeft 0 5 = some true := by decide
  obtain rfl : true = b := Option.some.inj (hfound.symm.trans hb)
  exact absurd (hiff.mp rfl) (by decide)

end Xv6
