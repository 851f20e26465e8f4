import Xv6.Kthread.System

namespace Xv6.Kthreads

variable {n : Nat}

structure MutexExclusive (s : Kthreads n) (m : Int) : Prop where
  atMostOne : ∀ i j, s.held i m = true → s.held j m = true → i = j
  recorded : ∀ i, s.held i m = true →
    (s.mtable m).status = mLocked ∧ (s.mtable m).tid = s.tidOf i
  unlockOther : ∀ i j, s.held i m = true → j ≠ i →
    kthreadMutexUnlock s.mtable s.ptable m (s.tidOf j) = (s.mtable, s.ptable, -1)
  dealloc : ∀ i, s.held i m = true → kthreadMutexDealloc s.mtable m = (s.mtable, -1)

def RingNotBelow (s : Kthreads n) (e : Fin n × KOp) : Prop :=
  ∀ m g, s.LockEntry e.1 e.2 m g → (s.mtable m).status = mLocked →
    0 ≤ (s.mtable m).startIndex + (s.mtable m).count

def MutexStep (s : Kthreads n) (e : Fin n × KOp) : Prop :=
  (e.2.isMutex = true ∧ e.2.inRange = true) ∧ s.RingNotBelow e

structure OwnersRecorded (s : Kthreads n) : Prop where
  distinct : Function.Injective s.tidOf
  recorded : ∀ i m, s.held i m = true → (s.mtable m).status = mLocked ∧ (s.mtable m).tid = s.tidOf i

theorem OwnersRecorded.exclusive {s : Kthreads n} (h : s.OwnersRecorded) (m : Int) :
    s.MutexExclusive m where
  atMostOne i j hi hj := h.distinct ((h.recorded i m hi).2.symm.trans (h.recorded j m hj).2)
  recorded i hi := h.recorded i m hi
  unlockOther i j hi hne := by
    apply kthreadMutexUnlock_other
    rintro ⟨hj, _⟩
    exact hne (h.distinct (hj.trans (h.recorded i m hi).2))
  dealloc i hi := by simp [kthreadMutexDealloc, (h.recorded i m hi).1]

theorem boot_ownersRecorded {s : Kthreads n} (h : s.Boot) (hd : Function.Injective s.tidOf) :
    s.OwnersRecorded :=
  ⟨hd, fun i m hi => by simp [h.held i m] at hi⟩

theorem ownersRecorded_frame {s t : Kthreads n} (h : s.OwnersRecorded)
    (hid : ∀ j, t.tidOf j = s.tidOf j)
    (hrec : ∀ i m, t.held i m = true → s.held i m = true ∧
      (t.mtable m).status = (s.mtable m).status ∧ (t.mtable m).tid = (s.mtable m).tid) :
    t.OwnersRecorded := by
  refine ⟨fun i j he => h.distinct (by rw [← hid i, ← hid j]; exact he), ?_⟩
  intro i m hi
  obtain ⟨hs, hstat, htid⟩ := hrec i m hi
  rw [hstat, htid, hid i]
  exact h.recorded i m hs

theorem ownersRecorded_release {s : Kthreads n} {i : Fin n} {m : Int} (h : s.OwnersRecorded)
    (ho : s.Owns i m) : (s.release i m).OwnersRecorded := by
  apply ownersRecorded_frame h (fun j => by simp [tidOf])
  intro j m' hj
  by_cases hmm : m' = m
  · subst hmm
    by_cases hji : j = i
    · subst hji; simp at hj
    · have hj' : s.held j m' = true := by simpa [Function.update_of_ne hji] using hj
      exact absurd (h.distinct ((h.recorded j m' hj').2.symm.trans ho.1.symm)) hji
  · have hj' : s.held j m' = true := by
      by_cases hji : j = i
      · subst hji; simpa [hmm] using hj
      · simpa [Function.update_of_ne hji] using hj
    simp [releaseMutex_other s.mtable hmm, hj']

theorem ownersRecorded_step (s : Kthreads n) (e : Fin n × KOp) (t : Kthreads n)
    (h : s.OwnersRecorded) (hc : s.MutexStep e) (hst : s.step e = some t) :
    t.OwnersRecorded := by
  obtain ⟨i, op⟩ := e
  have hk := step_kstep hst
  have hid := kstep_tidOf hk
  obtain ⟨⟨hop, _⟩, hring⟩ := hc
  cases hk with
  | alloc hs hpc =>
    apply ownersRecorded_frame h hid
    intro j m hj
    rcases kthreadMutexAlloc_cases s.mtable with ha | ⟨m', _, hu, ha⟩
    · simp [ha]; exact hj
    · have hne : m ≠ m' := by
        rintro rfl
        have := (h.recorded j m hj).1
        simp [hu] at this
      simp [ha, hne]; exact hj
  | @deallocFree m' hs hpc hm =>
    apply ownersRecorded_frame h hid
    intro j m hj
    have hne : m ≠ m' := by
      rintro rfl
      have := (h.recorded j m hj).1
      simp [hm] at this
    simp [freeMutex, hne]; exact hj
  | @lockFree _ m' g hs he hm =>
    have hfree : ∀ j, s.held j m' = false := by
      intro j
      by_contra hj
      have := (h.recorded j m' (by simpa using hj)).1
      simp [hm] at this
    refine ⟨fun a b hab => h.distinct (by rw [← hid a, ← hid b]; exact hab), ?_⟩
    intro j m hj
    by_cases hmm : m = m'
    · subst hmm
      by_cases hji : j = i
      · subst hji; simp [takeMutex, tidOf]
      · simp [Function.update_of_ne hji, hfree j] at hj
    · have hj' : s.held j m = true := by
        by_cases hji : j = i
        · subst hji; simpa [hmm] using hj
        · simpa [Function.update_of_ne hji] using hj
      simpa [takeMutex, hmm, tidOf] using h.recorded j m hj'
  | @lockEnqueue _ m' g hs he hm hq =>
    apply ownersRecorded_frame h hid
    intro j m hj
    rw [goto, enqueueMutex_inside _ _ _ (hring m' g he hm)]
    by_cases hmm : m = m'
    · subst hmm; simp; exact hj
    · simp [hmm]; exact hj
  | unlockOwner hs hpc ho =>
    exact ownersRecorded_frame (ownersRecorded_release h ho) (fun j => rfl)
      (fun j m hj => ⟨hj, rfl, rfl⟩)
  | condAlloc | condDealloc | condWaitOwner | condWaitOther | condWaitUnused | signalHead
  | signalEmpty | signalWake => simp [KOp.isMutex] at hop
  | _ => exact ownersRecorded_frame h hid (fun j m hj => ⟨hj, rfl, rfl⟩)

theorem mutex_exclusion_of_ring {s t : Kthreads n} {es : List (Fin n × KOp)} (hs : s.Boot)
    (hd : Function.Injective s.tidOf) (hes : GuardedRun.along step MutexStep s es)
    (hr : s.run es = some t) (m : Int) : t.MutexExclusive m :=
  (GuardedRun.run_invariant ownersRecorded_step (boot_ownersRecorded hs hd) hes hr).exclusive m

def relayStart : Kthreads nproc where
  ptable i := ⟨0, 0, 0, .running, 1, none, none, false, i.val + 1, fun _ => none⟩
  mtable _ := ⟨0, fun _ => 0, mUnused, 0, 0⟩
  ctable _ := ⟨cUnused, fun _ => 0, 0, 0, 0⟩
  pc _ := .user
  eax _ := 0
  held _ _ := false
  deallocs _ := 0

theorem relayStart_boot : relayStart.Boot where
  mtable := rfl
  ctable := rfl
  pc _ := rfl
  held _ _ := rfl
  deallocs _ := rfl

theorem relayStart_distinct : Function.Injective relayStart.tidOf := by
  intro i j h
  simp only [relayStart, tidOf] at h
  exact Fin.ext (by omega)

def runner (k : Nat) : Fin nproc := ⟨k % 3, by simp only [nproc]; omega⟩

def lastWaiter (k : Nat) (p : Int) : Int :=
  if p + 256 < k then (p + 257) % 3 + 1 else if p < k then (p + 1) % 3 + 1 else 0

structure Relay (k : Nat) (s : Kthreads nproc) : Prop where
  ids : ∀ i, (s.ptable i).threadId = i.val + 1
  running : ∀ i, (s.ptable i).state = .running
  pc : ∀ i, s.pc i = .user
  status : (s.mtable 0).status = mLocked
  tid : (s.mtable 0).tid = (s.ptable (runner k)).threadId
  count : (s.mtable 0).count = 0
  start : (s.mtable 0).startIndex = ((k : Int) % 256)
  ring : ∀ p, 0 ≤ p → p < 256 → (s.mtable 0).sleepingTID p = lastWaiter k p

def relayRound (k : Nat) : List (Fin nproc × KOp) :=
  [(runner (k + 1), .mutexLock 0), (runner (k + 1), .block), (runner k, .mutexUnlock 0),
    (runner (k + 1), .schedule), (runner (k + 1), .mutexRetry)]

theorem runner_ne (k : Nat) : runner (k + 1) ≠ runner k := by
  intro h
  have := congrArg Fin.val h
  simp only [runner] at this
  omega

theorem lastWaiter_stale (k : Nat) (hk : k < 511) :
    lastWaiter k ((k : Int) % 256) ≠ ((k : Int) + 1) % 3 + 1 := by
  unfold lastWaiter
  split
  · omega
  · split <;> omega

theorem lastWaiter_succ (k : Nat) (hk : k < 511) (p : Int) (h0 : 0 ≤ p) (h1 : p < 256) :
    lastWaiter (k + 1) p =
      if p = (k : Int) % 256 then ((k : Int) + 1) % 3 + 1 else lastWaiter k p := by
  unfold lastWaiter
  split_ifs <;> omega

theorem Relay.injective {k : Nat} {s : Kthreads nproc} (h : Relay k s) :
    Function.Injective (fun i => (s.ptable i).threadId) := by
  intro i j hij
  have hi := h.ids i
  have hj := h.ids j
  simp only at hij
  exact Fin.ext (by omega)

theorem Relay.enqueue {k : Nat} {s : Kthreads nproc} (h : Relay k s) :
    enqueueMutex s.mtable 0 ((s.ptable (runner (k + 1))).threadId) = Function.update s.mtable 0
      { s.mtable 0 with
        sleepingTID := Function.update (s.mtable 0).sleepingTID ((k : Int) % 256)
          ((s.ptable (runner (k + 1))).threadId)
        count := 1 } := by
  have hstart := h.start
  rw [enqueueMutex_inside _ _ _ (by rw [h.count]; omega), h.count, h.start]
  simp

theorem Relay.head {k : Nat} {s : Kthreads nproc} (h : Relay k s) :
    tidToWakeUp (enqueueMutex s.mtable 0 (s.ptable (runner (k + 1))).threadId) 0 =
      (s.ptable (runner (k + 1))).threadId := by
  rw [h.enqueue, tidToWakeUp_inside]
  · simp [h.start]
  · simp only [Function.update_self, h.start]; omega
  · simp only [Function.update_self, h.start, maxThreads]; omega

theorem Relay.released {k : Nat} {s : Kthreads nproc} (h : Relay k s) :
    releaseMutex (enqueueMutex s.mtable 0 (s.ptable (runner (k + 1))).threadId) 0 0 =
      ⟨0, Function.update (s.mtable 0).sleepingTID ((k : Int) % 256)
        (s.ptable (runner (k + 1))).threadId, mUnlocked, 0, ((k : Int) + 1) % 256⟩ := by
  have hid := h.ids (runner (k + 1))
  have hmod : ((k : Int) % 256 + 1).tmod maxThreads = ((k : Int) + 1) % 256 := by
    rw [Int.tmod_eq_emod_of_nonneg (by omega)]
    simp only [maxThreads]; omega
  rw [releaseMutex, h.head, dequeueMutex, if_pos (by omega)]
  simp [openMutex, h.enqueue, h.start, hmod]

theorem relay_round {k : Nat} (hk : k < 511) {s : Kthreads nproc} (h : Relay k s) :
    ∃ t, s.run (relayRound k) = some t ∧ Relay (k + 1) t := by
  have hne := runner_ne k
  have hy : (s.ptable (runner (k + 1))).threadId = ((k : Int) + 1) % 3 + 1 := by
    rw [h.ids]; simp [runner]
  have hq : isInQueue s.mtable 0 (s.ptable (runner (k + 1))).threadId = some false := by
    rw [isInQueue_empty _ _ _ h.count (by rw [h.start]; omega)
      (by rw [h.start]; simp only [maxThreads]; omega), h.start, h.ring _ (by omega) (by omega), hy]
    simp [lastWaiter_stale k hk]
  have hinj : Function.Injective
      (fun i => (setState s.ptable (runner (k + 1)) .blocking i).threadId) := by
    simpa using h.injective
  have hwake : (wakeBlocked (setState s.ptable (runner (k + 1)) .blocking)
      (s.ptable (runner (k + 1))).threadId (runner (k + 1))).state = .runnable := by
    simpa using wakeBlocked_wakes hinj (j := runner (k + 1)) (by simp)
  have hothers : ∀ j, j ≠ runner (k + 1) →
      (wakeBlocked (setState s.ptable (runner (k + 1)) .blocking)
        (s.ptable (runner (k + 1))).threadId j).state = .running := by
    intro j hj
    have hs : (setState s.ptable (runner (k + 1)) .blocking j).state = .running := by
      rw [setState_other _ _ hj]; exact h.running j
    rcases wakeBlocked_state_cases (setState s.ptable (runner (k + 1)) .blocking)
      (s.ptable (runner (k + 1))).threadId j with hw | hw
    · rw [hw, hs]
    · simp [hs] at hw
  refine ⟨_, run_kstep (.lockEnqueue (m := 0) (g := s.deallocs 0) (h.running _)
    (Or.inl ⟨rfl, h.pc _, rfl⟩) h.status hq) (run_kstep (.blockMutex (m := 0)
    (g := s.deallocs 0) ?_ ?_) (run_kstep (.unlockOwner (m := 0) ?_ ?_ ?_)
    (run_kstep (.resumeMutex (m := 0) (g := s.deallocs 0) ?_ ?_)
    (run_kstep (.lockFree (m := 0) (g := s.deallocs 0) ?_ (Or.inr ⟨rfl, ?_⟩) ?_) rfl)))), ?_⟩
  · simpa using h.running _
  · simp
  · simp [setState_state, hne.symm, h.running]
  · simp [hne.symm, h.pc]
  · simp [Owns, tidOf, h.enqueue, h.status, h.tid]
  · simpa [tidOf, h.head] using hwake
  · simp [hne]
  · simp
  · simp
  · simp [releaseMutex_self]
  · constructor
    · intro i; simp [h.ids]
    · intro i
      by_cases hi : i = runner (k + 1)
      · subst hi; simp
      · simpa [setState_state, hi, tidOf, h.head] using hothers i hi
    · intro i
      by_cases hi : i = runner (k + 1)
      · subst hi; simp
      · by_cases hx : i = runner k
        · subst hx; simp [hi]
        · simp [hi, hx, h.pc]
    · simp [takeMutex]
    · simp [takeMutex, tidOf]
    · simp [takeMutex, tidOf, h.released]
    · simp [takeMutex, tidOf, h.released]
    · intro p h0 h1
      rw [lastWaiter_succ k hk p h0 h1]
      by_cases hp : p = (k : Int) % 256
      · subst hp; simpa [takeMutex, tidOf, h.released] using hy
      · simp [takeMutex, tidOf, h.released, hp, h.ring p h0 h1]

theorem relay_rounds {s : Kthreads nproc} (h : Relay 0 s) (k : Nat) (hk : k ≤ 511) :
    ∃ t, s.run ((List.range k).flatMap relayRound) = some t ∧ Relay k t := by
  induction k with
  | zero => exact ⟨s, rfl, h⟩
  | succ k ih =>
    obtain ⟨t, ht, hrel⟩ := ih (by omega)
    obtain ⟨u, hu, hrel⟩ := relay_round (by omega) hrel
    refine ⟨u, ?_, hrel⟩
    rw [List.range_succ, List.flatMap_append]
    exact (GuardedRun.run_append step).mpr ⟨t, ht, by simpa using hu⟩

def relayOpen : List (Fin nproc × KOp) := [(0, .mutexAlloc), (0, .mutexLock 0)]

theorem relay_open : ∃ t, relayStart.run relayOpen = some t ∧ Relay 0 t := by
  refine ⟨_, run_kstep (.alloc rfl rfl) (run_kstep (.lockFree (m := 0) (g := 0) rfl
    (Or.inl ⟨rfl, rfl, rfl⟩) rfl) rfl), ?_⟩
  constructor
  · intro i; rfl
  · intro i; rfl
  · intro i; by_cases hi : i = 0 <;> simp [hi, relayStart]
  · rfl
  · rfl
  · rfl
  · rfl
  · intro p h0 h1
    have hlast : lastWaiter 0 p = 0 := by
      rw [lastWaiter, if_neg (by push_cast; omega), if_neg (by push_cast; omega)]
    rw [hlast]
    rfl

theorem Relay.underflow {s : Kthreads nproc} (h : Relay 511 s) :
    releaseMutex s.mtable 0 0 = ⟨0, (s.mtable 0).sleepingTID, mUnlocked, -1, 0⟩ := by
  have hstart : (s.mtable 0).startIndex = 255 := h.start
  have hhead : tidToWakeUp s.mtable 0 = 2 := by
    rw [tidToWakeUp_inside _ _ (by omega) (by simp only [maxThreads]; omega), hstart,
      h.ring 255 (by omega) (by omega)]
    decide
  rw [releaseMutex, hhead, dequeueMutex, if_pos (by decide)]
  simp [openMutex, h.count, hstart]

theorem relay_underflow {s : Kthreads nproc} (h : Relay 511 s) :
    ∃ t, s.run [(1, .mutexUnlock 0), (0, .mutexLock 0), (2, .mutexLock 0)] = some t ∧
      t.held 0 0 = true ∧ (t.mtable 0).tid ≠ t.tidOf 0 := by
  have hrun : ∀ tid j, (wakeBlocked s.ptable tid j).state = .running := by
    intro tid j
    rcases wakeBlocked_state_cases s.ptable tid j with hw | hw
    · rw [hw, h.running]
    · simp [h.running] at hw
  have howner : s.Owns 1 0 := ⟨h.tid.symm, h.status⟩
  refine ⟨_, run_kstep (.unlockOwner (h.running 1) (h.pc 1) howner)
    (run_kstep (.lockFree (m := 0) (g := s.deallocs 0) ?_ (Or.inl ⟨rfl, ?_, ?_⟩) ?_)
    (run_kstep (.lockEnqueue (m := 0) (g := s.deallocs 0) ?_ (Or.inl ⟨rfl, ?_, ?_⟩) ?_ ?_) rfl)),
    ?_, ?_⟩
  · simpa using hrun _ 0
  · simp [h.pc]
  · simp
  · simp [releaseMutex_self]
  · simpa using hrun _ 2
  · simp [h.pc]
  · simp
  · simp [takeMutex]
  · simp [takeMutex, isInQueue, h.underflow, isInQueueLoop]
  · simp
  · rw [goto, enqueueMutex_below _ _ _ (by simp [takeMutex, h.underflow])]
    simp [tidOf, h.ids]

theorem mutex_exclusion_fails :
    ¬ ∀ (s t : Kthreads nproc) (es : List (Fin nproc × KOp)), s.Boot →
      Function.Injective s.tidOf → (∀ e ∈ es, e.2.isMutex = true ∧ e.2.inRange = true) →
        s.run es = some t → t.MutexExclusive 0 := by
  intro hall
  obtain ⟨s0, h0, hrel⟩ := relay_open
  obtain ⟨s1, h1, hrel⟩ := relay_rounds hrel 511 le_rfl
  obtain ⟨t, h2, hheld, htid⟩ := relay_underflow hrel
  have hrun := (GuardedRun.run_append step).mpr ⟨s0, h0, (GuardedRun.run_append step).mpr ⟨s1, h1, h2⟩⟩
  have hops : ∀ e ∈ relayOpen ++ ((List.range 511).flatMap relayRound ++
      [((1 : Fin nproc), KOp.mutexUnlock 0), (0, .mutexLock 0), (2, .mutexLock 0)]),
      e.2.isMutex = true ∧ e.2.inRange = true := by
    intro e he
    simp only [relayOpen, relayRound, List.mem_append, List.mem_flatMap, List.mem_cons,
      List.not_mem_nil, or_false] at he
    rcases he with (rfl | rfl) | ⟨k, _, rfl | rfl | rfl | rfl | rfl⟩ | rfl | rfl | rfl <;>
      simp [KOp.isMutex, KOp.inRange]
  have hexcl := hall relayStart t _ relayStart_boot relayStart_distinct hops hrun
  exact htid (hexcl.recorded 0 hheld).2

def relayContended : List (Fin nproc × KOp) := relayOpen ++ [(1, .mutexLock 0), (1, .block)]

theorem mutex_exclusion_of_ring_contended :
    ∃ t, relayStart.run relayContended = some t ∧ t.held 0 0 = true ∧ t.MutexExclusive 0 := by
  have hring : ∀ {s : Kthreads nproc} {i : Fin nproc} {op : KOp},
      0 ≤ (s.mtable 0).startIndex + (s.mtable 0).count →
      (∀ m g, s.LockEntry i op m g → m = 0) → s.RingNotBelow (i, op) := by
    intro s i op h0 hm m g he _
    rw [hm m g he]
    exact h0
  have hes : GuardedRun.along step MutexStep relayStart relayContended := by
    refine GuardedRun.along_cons ⟨by decide, hring (by decide) ?_⟩ rfl
      (GuardedRun.along_cons ⟨by decide, hring (by decide) ?_⟩ rfl
      (GuardedRun.along_cons ⟨by decide, hring (by decide) ?_⟩ rfl
      (GuardedRun.along_cons ⟨by decide, hring (by decide) ?_⟩ rfl trivial)))
    all_goals rintro m g (⟨hop, _⟩ | ⟨hop, _⟩) <;> cases hop
    all_goals rfl
  exact ⟨_, rfl, rfl, mutex_exclusion_of_ring relayStart_boot relayStart_distinct hes rfl 0⟩

end Xv6.Kthreads
