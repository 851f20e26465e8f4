import Xv6.Kthread.MutualExclusion

namespace Xv6.Kthreads

variable {n : Nat}

structure SoleOwner (s : Kthreads n) (i : Fin n) (m : Int) : Prop where
  owns : s.Owns i m
  alone : ∀ j, j ≠ i → s.held j m = false

structure OwnershipKept (s : Kthreads n) : Prop where
  returned : ∀ i c m t, s.pc i = .waitCond c m → s.step (i, .schedule) = some t → t.SoleOwner i m
  keeps : ∀ i m, s.held i m = true → s.Owns i m ∧ (s.unlockSection i m).2 = 0

def OwnedWait (s : Kthreads n) (e : Fin n × KOp) : Prop :=
  e.2.inRange = true ∧ ∀ c m, e.2 = .condWait c m → s.Owns e.1 m

def NoCondSleeper (s : Kthreads n) (tid : Int) : Prop :=
  ∀ j c m, s.pc j = .waitCond c m → (s.ptable j).state = .blocking → s.tidOf j ≠ tid

structure HandoffStep (s : Kthreads n) (e : Fin n × KOp) : Prop where
  owned : s.OwnedWait e
  ring : s.RingNotBelow e
  signal : ∀ c, e.2 = .condSignal c → (s.ctable c).count ≠ 0 →
    (s.mtable (s.ctable c).waitingMutexID).status = mLocked →
      (s.mtable (s.ctable c).waitingMutexID).tid = s.signalHead c
  wake : ∀ c tid, e.2 = .signalWake → s.pc e.1 = .signalWake c tid → s.NoCondSleeper tid
  unlock : ∀ m, (e.2 = .mutexUnlock m ∨ ∃ c, e.2 = .condWait c m) → s.Owns e.1 m →
    s.NoCondSleeper (tidToWakeUp s.mtable m)

theorem ownersRecorded_handoff (s : Kthreads n) (e : Fin n × KOp) (t : Kthreads n)
    (h : s.OwnersRecorded) (hc : s.HandoffStep e) (hst : s.step e = some t) :
    t.OwnersRecorded := by
  by_cases hop : e.2.isMutex = true
  · exact ownersRecorded_step s e t h ⟨⟨hop, hc.owned.1⟩, hc.ring⟩ hst
  obtain ⟨i, op⟩ := e
  have hk := step_kstep hst
  have hid := kstep_tidOf hk
  cases hk with
  | condWaitOwner hs hpc hf hu ho =>
    exact ownersRecorded_frame (ownersRecorded_release h ho) (fun j => rfl)
      (fun j m hj => ⟨hj, rfl, rfl⟩)
  | condWaitOther hs hpc hf hu ho => exact absurd (hc.owned.2 _ _ rfl) ho
  | @signalHead c hs hpc hf hcount =>
    apply ownersRecorded_frame h hid
    intro j m hj
    have hlock := (h.recorded j m hj).1
    by_cases hm : m = (s.ctable c).waitingMutexID
    · subst hm
      simpa [hc.signal c rfl hcount hlock] using hj
    · simpa [hm] using hj
  | condAlloc | condDealloc | condWaitUnused | signalEmpty | signalWake =>
    exact ownersRecorded_frame h hid (fun j m hj => ⟨hj, rfl, rfl⟩)
  | lockUnused hs he | lockFree hs he | lockQueued hs he | lockEnqueue hs he =>
    exact absurd he.isMutex hop
  | _ => exact absurd rfl hop

structure SleepersBlocked (s : Kthreads n) : Prop where
  owners : s.OwnersRecorded
  blocked : ∀ j c m, s.pc j = .waitCond c m → (s.ptable j).state = .blocking

theorem wakeBlocked_noCondSleeper {s : Kthreads n} {tid : Int} (h : s.NoCondSleeper tid)
    {j : Fin n} {c m : Int} (hpc : s.pc j = .waitCond c m) (hb : (s.ptable j).state = .blocking) :
    (wakeBlocked s.ptable tid j).state = .blocking := by
  rcases wakeBlocked_state_cases s.ptable tid j with hw | ⟨_, _, hid⟩
  · rw [hw, hb]
  · exact absurd hid (h j c m hpc hb)

theorem sleepersBlocked_step (s : Kthreads n) (e : Fin n × KOp) (t : Kthreads n)
    (h : s.SleepersBlocked) (hc : s.HandoffStep e) (hst : s.step e = some t) :
    t.SleepersBlocked := by
  refine ⟨ownersRecorded_handoff s e t h.owners hc hst, ?_⟩
  obtain ⟨i, op⟩ := e
  have hk := step_kstep hst
  intro j c m hj
  by_cases hji : j = i
  · subst hji
    cases hk with
    | blockCond hs hpc => simp
    | resumeOther hs hm hw => exact absurd hj (hw c m)
    | yield hs hpc => simp [h.blocked j c m hj] at hs
    | _ => simp at hj
  have hpc : s.pc j = .waitCond c m := by rw [← kstep_pc_other hk hji]; exact hj
  have hb := h.blocked j c m hpc
  cases hk with
  | unlockOwner hs hpc' ho =>
    exact wakeBlocked_noCondSleeper (hc.unlock _ (Or.inl rfl) ho) hpc hb
  | condWaitOwner hs hpc' hf hu ho =>
    exact wakeBlocked_noCondSleeper (hc.unlock _ (Or.inr ⟨_, rfl⟩) ho) hpc hb
  | signalWake hs hpc' => exact wakeBlocked_noCondSleeper (hc.wake _ _ rfl hpc') hpc hb
  | resumeMutex | resumeCond | resumeOther | yield | blockMutex | blockCond =>
    simpa [setState_other _ _ hji] using hb
  | _ => exact hb

theorem SleepersBlocked.ownershipKept {s : Kthreads n} (h : s.SleepersBlocked) :
    s.OwnershipKept where
  returned i c m t hpc hst := by simp [step, h.blocked i c m hpc] at hst
  keeps i m hi := by
    obtain ⟨hstat, htid⟩ := h.owners.recorded i m hi
    have ho : s.Owns i m := ⟨htid.symm, hstat⟩
    exact ⟨ho, by rw [unlockSection_owner ho]⟩

theorem ownership_kept {s t : Kthreads n} {es : List (Fin n × KOp)} (hs : s.Boot)
    (hd : Function.Injective s.tidOf) (hes : GuardedRun.along step HandoffStep s es)
    (hr : s.run es = some t) : t.OwnershipKept :=
  (GuardedRun.run_invariant sleepersBlocked_step
    ⟨boot_ownersRecorded hs hd, fun j c m hj => by simp [hs.pc j] at hj⟩ hes hr).ownershipKept

def waitThenLock : List (Fin nproc × KOp) :=
  [(0, .mutexAlloc), (0, .condAlloc), (0, .mutexLock 0), (0, .condWait 0 0), (0, .block),
    (1, .mutexLock 0)]

theorem ownedWait_other {s : Kthreads n} {i : Fin n} {op : KOp} (hop : op.inRange = true)
    (hw : ∀ c m, op ≠ .condWait c m) : s.OwnedWait (i, op) :=
  ⟨hop, fun c m h => absurd h (hw c m)⟩

theorem ownership_lost :
    ¬ ∀ (s t : Kthreads nproc) (es : List (Fin nproc × KOp)), s.Boot →
      Function.Injective s.tidOf → (∀ i, s.tidOf i ≠ 0) →
      GuardedRun.along step OwnedWait s es → s.run es = some t → t.OwnershipKept := by
  intro hall
  have hkept := hall relayStart _ (waitThenLock ++ [(1, .condSignal 0)]) relayStart_boot
    relayStart_distinct (fun i => by simp only [relayStart, tidOf]; omega) ?_ rfl
  · exact absurd (hkept.keeps 1 0 rfl).1 (by decide)
  · refine GuardedRun.along_cons (ownedWait_other rfl (by simp)) rfl
      (GuardedRun.along_cons (ownedWait_other rfl (by simp)) rfl
      (GuardedRun.along_cons (ownedWait_other rfl (by simp)) rfl
      (GuardedRun.along_cons ⟨rfl, ?_⟩ rfl
      (GuardedRun.along_cons (ownedWait_other rfl (by simp)) rfl
      (GuardedRun.along_cons (ownedWait_other rfl (by simp)) rfl
      (GuardedRun.along_cons (ownedWait_other rfl (by simp)) rfl trivial))))))
    rintro c m h
    cases h
    decide

theorem handoffStep_idle {s : Kthreads n} {i : Fin n} {op : KOp}
    (hop : op.inRange = true ∧ op.locksCtable = false ∧ op ≠ .signalWake)
    (hlock : ∀ m g, s.LockEntry i op m g → (s.mtable m).status ≠ mLocked)
    (hu : ∀ m, op ≠ .mutexUnlock m) : s.HandoffStep (i, op) where
  owned := ownedWait_other hop.1 (by rintro c m rfl; simp [KOp.locksCtable] at hop)
  ring m g he hl := absurd hl (hlock m g he)
  signal c h := by simp [show op = .condSignal c from h, KOp.locksCtable] at hop
  wake c tid h := absurd h hop.2.2
  unlock m h := by
    rcases h with h | ⟨c, h⟩
    · exact absurd h (hu m)
    · simp [show op = .condWait c m from h, KOp.locksCtable] at hop

theorem ownership_kept_waiting :
    ∃ t, relayStart.run waitThenLock = some t ∧ t.pc 0 = .waitCond 0 0 ∧ t.held 1 0 = true ∧
      t.OwnershipKept := by
  have hes : GuardedRun.along step HandoffStep relayStart waitThenLock := by
    refine GuardedRun.along_cons (handoffStep_idle (by decide) ?_ (by simp)) rfl
      (GuardedRun.along_cons ⟨ownedWait_other rfl (by simp), ?_, by simp, by simp, by simp⟩ rfl
      (GuardedRun.along_cons (handoffStep_idle (by decide) ?_ (by simp)) rfl
      (GuardedRun.along_cons ⟨⟨rfl, ?_⟩, ?_, by simp, by simp, ?_⟩ rfl
      (GuardedRun.along_cons (handoffStep_idle (by decide) ?_ (by simp)) rfl
      (GuardedRun.along_cons (handoffStep_idle (by decide) ?_ (by simp)) rfl trivial)))))
    · rintro m g (⟨h, _⟩ | ⟨h, _⟩) <;> cases h
    · rintro m g (⟨h, _⟩ | ⟨h, _⟩) <;> cases h
    · rintro m g (⟨h, _⟩ | ⟨h, _⟩) <;> cases h
      decide
    · rintro c m h
      cases h
      decide
    · rintro m g (⟨h, _⟩ | ⟨h, _⟩) <;> cases h
    · rintro m (h | ⟨c, h⟩) _ <;> cases h
      intro j c m hj
      simp [relayStart] at hj
    · rintro m g (⟨h, _⟩ | ⟨h, _⟩) <;> cases h
    · rintro m g (⟨h, _⟩ | ⟨h, _⟩) <;> cases h
      decide
  exact ⟨_, rfl, rfl, rfl, ownership_kept relayStart_boot relayStart_distinct hes rfl⟩

end Xv6.Kthreads
