import Xv6.Kthread.MutualExclusion

namespace Xv6

open RingBuffer

def KthreadMutex.waitRing (m : KthreadMutex) : List Int :=
  entries maxThreads m.sleepingTID m.startIndex m.count

theorem waitRing_enqueue (t : Mtable) (mutexId threadId : Int) (h0 : 0 ≤ (t mutexId).startIndex)
    (hc : 0 ≤ (t mutexId).count) (hfull : (t mutexId).count < maxThreads) :
    (enqueueMutex t mutexId threadId mutexId).waitRing = (t mutexId).waitRing ++ [threadId] := by
  rw [enqueueMutex_inside t mutexId threadId (by omega)]
  simpa [KthreadMutex.waitRing] using entries_enqueue (t mutexId).sleepingTID threadId hc hfull

theorem releaseMutex_startIndex (t : Mtable) (mutexId : Int) (h0 : 0 ≤ (t mutexId).startIndex)
    (h1 : (t mutexId).startIndex < maxThreads) :
    0 ≤ (releaseMutex t mutexId mutexId).startIndex ∧
      (releaseMutex t mutexId mutexId).startIndex < maxThreads := by
  have hmod := Int.tmod_eq_emod_of_nonneg (a := (t mutexId).startIndex + 1) (b := maxThreads)
    (by omega)
  simp only [maxThreads] at h1 hmod
  simp only [releaseMutex, Function.update_self, dequeueMutex]
  split
  · simp only [openMutex, Function.update_self, maxThreads, hmod]
    omega
  · simp only [openMutex, Function.update_self, maxThreads]
    omega

theorem waitRing_release (t : Mtable) (mutexId : Int) (h0 : 0 ≤ (t mutexId).startIndex)
    (h1 : (t mutexId).startIndex < maxThreads) (hc : 0 < (t mutexId).count)
    (hhead : tidToWakeUp t mutexId ≠ 0) :
    (t mutexId).waitRing = tidToWakeUp t mutexId :: (releaseMutex t mutexId mutexId).waitRing := by
  have hmod := Int.tmod_eq_emod_of_nonneg (a := (t mutexId).startIndex + 1) (b := maxThreads)
    (by omega)
  have hstart : (t mutexId).startIndex % maxThreads = (t mutexId).startIndex :=
    Int.emod_eq_of_lt h0 h1
  rw [KthreadMutex.waitRing, entries_dequeue _ hc, hstart, ← tidToWakeUp_inside t mutexId h0 h1]
  simp only [KthreadMutex.waitRing, releaseMutex, Function.update_self, dequeueMutex, if_pos hhead]
  simp [openMutex, hmod]

theorem waitRing_release_idle (t : Mtable) (mutexId : Int) (hhead : tidToWakeUp t mutexId = 0) :
    (releaseMutex t mutexId mutexId).waitRing = (t mutexId).waitRing := by
  simp [KthreadMutex.waitRing, releaseMutex, dequeueMutex, hhead, openMutex]

namespace Kthreads

variable {n : Nat}

def NoLostWaiter (s : Kthreads n) (m : Int) : Prop :=
  ∀ i g, s.pc i = .waitMutex m g → (s.ptable i).state = .blocking →
    s.tidOf i ∈ (s.mtable m).waitRing

structure WaiterStep (m : Int) (s : Kthreads n) (e : Fin n × KOp) : Prop where
  mutexOp : e.2.isMutex = true ∧ e.2.inRange = true
  keeps : e.2 ≠ .mutexDealloc m
  ring : s.RingNotBelow e
  found : ∀ g, s.LockEntry e.1 e.2 m g → (s.mtable m).status = mLocked →
    isInQueue s.mtable m (s.tidOf e.1) = some true → s.tidOf e.1 ∈ (s.mtable m).waitRing
  room : ∀ g, s.LockEntry e.1 e.2 m g → (s.mtable m).status = mLocked →
    isInQueue s.mtable m (s.tidOf e.1) = some false → (s.mtable m).count < maxThreads
  head : e.2 = .mutexUnlock m → s.Owns e.1 m →
    (s.mtable m).sleepingTID (s.mtable m).startIndex ≠ 0 →
      0 < (s.mtable m).count ∧ ∀ j g, s.pc j = .blockMutex m g →
        s.tidOf j ≠ (s.mtable m).sleepingTID (s.mtable m).startIndex

structure WaitersQueued (m : Int) (s : Kthreads n) : Prop where
  distinct : Function.Injective s.tidOf
  startIndex : 0 ≤ (s.mtable m).startIndex ∧ (s.mtable m).startIndex < maxThreads
  count : 0 ≤ (s.mtable m).count
  fresh : (s.mtable m).status = mUnused → ∀ i g, ¬ s.InLock i m g
  queued : ∀ i g, s.InLock i m g → s.tidOf i ∈ (s.mtable m).waitRing

theorem boot_waitersQueued {s : Kthreads n} (h : s.Boot) (hd : Function.Injective s.tidOf)
    (m : Int) : s.WaitersQueued m := by
  have hnone : ∀ i g, ¬ s.InLock i m g := by
    intro i g
    simp [InLock, h.pc i]
  refine ⟨hd, ?_, ?_, fun _ => hnone, fun i g hi => absurd hi (hnone i g)⟩
  · simp [h.mtable]
  · simp [h.mtable]

theorem WaitersQueued.of_ring {s t : Kthreads n} {i : Fin n} {op : KOp} {m : Int}
    (h : s.WaitersQueued m) (hk : KStep s i op t)
    (hstart : 0 ≤ (t.mtable m).startIndex ∧ (t.mtable m).startIndex < maxThreads)
    (hcount : 0 ≤ (t.mtable m).count)
    (hfresh : (t.mtable m).status = mUnused → ∀ j g, ¬ t.InLock j m g)
    (hqueued : ∀ j g, t.InLock j m g → s.tidOf j ∈ (t.mtable m).waitRing) : t.WaitersQueued m := by
  have hid := kstep_tidOf hk
  refine ⟨fun a b hab => h.distinct (by rw [← hid a, ← hid b]; exact hab), hstart, hcount, hfresh,
    ?_⟩
  intro j g hj
  rw [hid]
  exact hqueued j g hj

theorem waitersQueued_frame {s t : Kthreads n} {i : Fin n} {op : KOp} {m : Int}
    (h : s.WaitersQueued m) (hk : KStep s i op t)
    (hrec : (t.mtable m).sleepingTID = (s.mtable m).sleepingTID ∧
      (t.mtable m).startIndex = (s.mtable m).startIndex ∧
      (t.mtable m).count = (s.mtable m).count)
    (hused : (t.mtable m).status = mUnused → (s.mtable m).status = mUnused)
    (hlock : ∀ g, s.LockEntry i op m g → (s.mtable m).status ≠ mLocked) : t.WaitersQueued m := by
  obtain ⟨hsl, hst, hct⟩ := hrec
  have hring : (t.mtable m).waitRing = (s.mtable m).waitRing := by
    simp only [KthreadMutex.waitRing, hsl, hst, hct]
  have hin : ∀ j g, t.InLock j m g → s.InLock j m g := by
    intro j g hj
    rcases kstep_inLock hk hj with hj | ⟨_, hm, he⟩
    · exact hj
    · exact absurd hm (hlock g he)
  refine h.of_ring hk (hst ▸ h.startIndex) (hct ▸ h.count) ?_ ?_
  · intro hu j g hj
    exact h.fresh (hused hu) j g (hin j g hj)
  · intro j g hj
    rw [hring]
    exact h.queued j g (hin j g hj)

theorem waitersQueued_found {s t : Kthreads n} {i : Fin n} {op : KOp} {m : Int}
    (h : s.WaitersQueued m) (hk : KStep s i op t) (hrec : t.mtable = s.mtable)
    (hm : (s.mtable m).status = mLocked) (hmem : s.tidOf i ∈ (s.mtable m).waitRing) :
    t.WaitersQueued m := by
  refine h.of_ring hk (hrec ▸ h.startIndex) (hrec ▸ h.count) (by simp [hrec, hm]) ?_
  intro j g hj
  rw [hrec]
  rcases kstep_inLock hk hj with hj | ⟨rfl, _⟩
  · exact h.queued j g hj
  · exact hmem

theorem waitersQueued_enqueue {s t : Kthreads n} {i : Fin n} {op : KOp} {m : Int}
    (h : s.WaitersQueued m) (hk : KStep s i op t)
    (hrec : t.mtable = enqueueMutex s.mtable m (s.tidOf i)) (hm : (s.mtable m).status = mLocked)
    (hroom : (s.mtable m).count < maxThreads) : t.WaitersQueued m := by
  obtain ⟨h0, h1⟩ := h.startIndex
  have hc := h.count
  have hin := enqueueMutex_inside s.mtable m (s.tidOf i) (by omega)
  have hring := waitRing_enqueue s.mtable m (s.tidOf i) h0 hc hroom
  refine h.of_ring hk ?_ ?_ ?_ ?_
  · simpa [hrec, hin] using ⟨h0, h1⟩
  · simp [hrec, hin]; omega
  · simp [hrec, hin, hm]
  · intro j g hj
    rw [hrec, hring, List.mem_append, List.mem_singleton]
    rcases kstep_inLock hk hj with hj | ⟨rfl, _⟩
    · exact Or.inl (h.queued j g hj)
    · exact Or.inr rfl

theorem waitersQueued_release {s : Kthreads n} {i : Fin n} {m : Int} (h : s.WaitersQueued m)
    (hs : (s.ptable i).state = .running) (hpc : s.pc i = .user) (ho : s.Owns i m)
    (hhead : (s.mtable m).sleepingTID (s.mtable m).startIndex ≠ 0 →
      0 < (s.mtable m).count ∧ ∀ j g, s.pc j = .blockMutex m g →
        s.tidOf j ≠ (s.mtable m).sleepingTID (s.mtable m).startIndex) :
    ((s.release i m).returns i 0).WaitersQueued m := by
  have hk := KStep.unlockOwner hs hpc ho
  obtain ⟨h0, h1⟩ := h.startIndex
  have hstart := releaseMutex_startIndex s.mtable m h0 h1
  rw [← tidToWakeUp_inside s.mtable m h0 h1] at hhead
  have hfresh : (releaseMutex s.mtable m m).status = mUnused →
      ∀ j g, ¬ ((s.release i m).returns i 0).InLock j m g := by
    simp [(releaseMutex_self s.mtable m).1]
  have hin : ∀ j g, ((s.release i m).returns i 0).InLock j m g → s.InLock j m g := by
    intro j g hj
    rcases kstep_inLock hk hj with hj | ⟨_, _, he⟩
    · exact hj
    · rcases he with ⟨he, _⟩ | ⟨he, _⟩ <;> cases he
  by_cases hz : tidToWakeUp s.mtable m = 0
  · refine h.of_ring hk hstart ?_ hfresh ?_
    · simpa [releaseMutex, dequeueMutex, hz, openMutex] using h.count
    · intro j g hj
      simpa [waitRing_release_idle s.mtable m hz] using h.queued j g (hin j g hj)
  · obtain ⟨hc, hpending⟩ := hhead hz
    refine h.of_ring hk hstart ?_ hfresh ?_
    · simp [releaseMutex, dequeueMutex, hz, openMutex]; omega
    · intro j g hj
      have hmem := h.queued j g (hin j g hj)
      rw [waitRing_release s.mtable m h0 h1 hc hz, List.mem_cons] at hmem
      refine hmem.resolve_left ?_
      rcases hj with hj | ⟨_, hb⟩
      · exact hpending j g (update_pc_frame s.pc i (by simp) j hj)
      · exact (wakeBlocked_not_blocking h.distinct hb).2

theorem waitersQueued_step {m : Int} (s : Kthreads n) (e : Fin n × KOp) (t : Kthreads n)
    (h : s.WaitersQueued m) (hc : s.WaiterStep m e) (hst : s.step e = some t) :
    t.WaitersQueued m := by
  obtain ⟨i, op⟩ := e
  have hk := step_kstep hst
  have hk' := hk
  have hop := hc.mutexOp.1
  have hentry : ∀ {m' : Int} {g : Nat}, s.LockEntry i op m' g →
      (m = m' → (s.mtable m).status ≠ mLocked) →
      ∀ g, s.LockEntry i op m g → (s.mtable m).status ≠ mLocked := by
    rintro m' g he hm g' he'
    exact hm (he'.unique he)
  cases hk with
  | alloc hs hpc =>
    rcases kthreadMutexAlloc_cases s.mtable with ha | ⟨m', _, hu, ha⟩
    · exact waitersQueued_frame h hk' (by simp [ha]) (by simp [ha]) (by simp [LockEntry])
    · by_cases hmm : m = m'
      · subst hmm
        have hnone : ∀ j g, ¬ (({ s with mtable := (kthreadMutexAlloc s.mtable).1 }).returns i
            (kthreadMutexAlloc s.mtable).2).InLock j m g := by
          intro j g hj
          rcases kstep_inLock hk' hj with hj | ⟨_, hm, _⟩
          · exact h.fresh hu j g hj
          · simp [hu] at hm
        exact ⟨h.distinct, by simp [ha], by simp [ha], fun _ => hnone,
          fun j g hj => absurd hj (hnone j g)⟩
      · exact waitersQueued_frame h hk' (by simp [ha, hmm]) (by simp [ha, hmm])
          (by simp [LockEntry])
  | @deallocFree m' hs hpc hm =>
    have hmm : m ≠ m' := fun he => hc.keeps (by rw [he])
    exact waitersQueued_frame h hk' (by simp [freeMutex, hmm]) (by simp [freeMutex, hmm])
      (by simp [LockEntry])
  | @lockUnused _ m' g hs he hm =>
    exact waitersQueued_frame h hk' ⟨rfl, rfl, rfl⟩ id
      (hentry he (by rintro rfl; simp [hm]))
  | @lockFree _ m' g hs he hm =>
    refine waitersQueued_frame h hk' ?_ ?_ (hentry he (by rintro rfl; simp [hm])) <;>
      by_cases hmm : m = m'
    · subst hmm; simp [takeMutex]
    · simp [takeMutex, hmm]
    · subst hmm; simp [takeMutex]
    · simp [takeMutex, hmm]
  | @lockQueued _ m' g hs he hm hq =>
    by_cases hmm : m = m'
    · subst hmm
      exact waitersQueued_found h hk' rfl hm (hc.found g he hm hq)
    · exact waitersQueued_frame h hk' ⟨rfl, rfl, rfl⟩ id (hentry he (fun h => absurd h hmm))
  | @lockEnqueue _ m' g hs he hm hq =>
    by_cases hmm : m = m'
    · subst hmm
      exact waitersQueued_enqueue h hk' rfl hm (hc.room g he hm hq)
    · have hin := enqueueMutex_inside s.mtable m' (s.tidOf i) (hc.ring m' g he hm)
      exact waitersQueued_frame h hk' (by simp [hin, hmm]) (by simp [hin, hmm])
        (hentry he (fun h => absurd h hmm))
  | @unlockOwner m' hs hpc ho =>
    by_cases hmm : m = m'
    · subst hmm
      exact waitersQueued_release h hs hpc ho (hc.head rfl ho)
    · have hrel := releaseMutex_other s.mtable hmm
      exact waitersQueued_frame h hk' (by simp [hrel]) (by simp [hrel]) (by simp [LockEntry])
  | condAlloc | condDealloc | condWaitOwner | condWaitOther | condWaitUnused | signalHead
  | signalEmpty | signalWake => simp [KOp.isMutex] at hop
  | _ => exact waitersQueued_frame h hk' ⟨rfl, rfl, rfl⟩ id (by simp [LockEntry])

theorem no_lost_waiter {s t : Kthreads n} {es : List (Fin n × KOp)} {m : Int} (hs : s.Boot)
    (hd : Function.Injective s.tidOf) (hes : GuardedRun.along step (WaiterStep m) s es)
    (hr : s.run es = some t) : t.NoLostWaiter m :=
  fun i g hpc hb => (GuardedRun.run_invariant waitersQueued_step (boot_waitersQueued hs hd m) hes
    hr).queued i g (Or.inr ⟨hpc, hb⟩)

theorem lost_waiter :
    ¬ ∀ (s t : Kthreads nproc) (es : List (Fin nproc × KOp)), s.Boot →
      Function.Injective s.tidOf → (∀ i, s.tidOf i ≠ 0) →
      (∀ e ∈ es, e.2.isMutex = true ∧ e.2.inRange = true ∧ ∀ m, e.2 ≠ .mutexDealloc m) →
      s.run es = some t → t.NoLostWaiter 0 := by
  intro hall
  have hlost := hall relayStart _ (relayOpen ++ [(1, .mutexLock 0), (0, .mutexUnlock 0), (1, .block)])
    relayStart_boot relayStart_distinct (fun i => by simp only [relayStart, tidOf]; omega)
    (by simp [relayOpen, KOp.isMutex, KOp.inRange]) rfl 1 0 rfl rfl
  exact absurd hlost (by decide)

theorem waiterStep_idle {m : Int} {s : Kthreads n} {e : Fin n × KOp}
    (hop : (e.2.isMutex = true ∧ e.2.inRange = true) ∧ e.2 ≠ .mutexDealloc m ∧
      e.2 ≠ .mutexUnlock m)
    (hlock : ∀ m' g, s.LockEntry e.1 e.2 m' g → (s.mtable m').status ≠ mLocked) :
    s.WaiterStep m e where
  mutexOp := hop.1
  keeps := hop.2.1
  ring m' g he hl := absurd hl (hlock m' g he)
  found g he hl := absurd hl (hlock m g he)
  room g he hl := absurd hl (hlock m g he)
  head h := absurd h hop.2.2

theorem no_lost_waiter_contended :
    ∃ t, relayStart.run relayContended = some t ∧ t.pc 1 = .waitMutex 0 0 ∧
      (t.ptable 1).state = .blocking ∧ t.NoLostWaiter 0 := by
  have hes : GuardedRun.along step (WaiterStep 0) relayStart relayContended := by
    refine GuardedRun.along_cons (waiterStep_idle (by decide) ?_) rfl
      (GuardedRun.along_cons (waiterStep_idle (by decide) ?_) rfl
      (GuardedRun.along_cons ⟨by decide, by decide, ?_, fun _ _ _ => by decide,
        fun _ _ _ _ => by decide, fun h => absurd h (by decide)⟩ rfl
      (GuardedRun.along_cons (waiterStep_idle (by decide) ?_) rfl trivial)))
    all_goals rintro m g (⟨hop, _⟩ | ⟨hop, _⟩) <;> cases hop
    all_goals decide
  exact ⟨_, rfl, rfl, rfl, no_lost_waiter relayStart_boot relayStart_distinct hes rfl⟩

end Kthreads
end Xv6
