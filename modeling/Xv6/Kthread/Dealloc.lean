import Xv6.Kthread.MutualExclusion

namespace Xv6.Kthreads

variable {n : Nat}

def NoStaleWaiter (s : Kthreads n) : Prop :=
  ∀ i m g, s.pc i = .waitMutex m g → (s.ptable i).state = .blocking → ¬ g < s.deallocs m

structure DeallocStep (s : Kthreads n) (e : Fin n × KOp) : Prop where
  inRange : e.2.inRange = true
  ring : s.RingNotBelow e
  idle : ∀ m, e.2 = .mutexDealloc m → (s.mtable m).status = mUnlocked → ∀ i g, ¬ s.InLock i m g
  retry : ∀ m g, e.2 = .mutexRetry → s.pc e.1 = .retryMutex m g → g < s.deallocs m →
    (s.mtable m).status ≠ mLocked

def LocksCurrent (s : Kthreads n) : Prop := ∀ i m g, s.InLock i m g → ¬ g < s.deallocs m

theorem kstep_deallocs {s t : Kthreads n} {i : Fin n} {op : KOp} (h : KStep s i op t) (m : Int) :
    t.deallocs m = s.deallocs m ∨ op = .mutexDealloc m ∧ (s.mtable m).status = mUnlocked := by
  cases h with
  | @deallocFree m' hs hpc hm =>
    by_cases hmm : m = m'
    · subst hmm; exact Or.inr ⟨rfl, hm⟩
    · exact Or.inl (by simp [hmm])
  | _ => exact Or.inl rfl

theorem locksCurrent_step (s : Kthreads n) (e : Fin n × KOp) (t : Kthreads n)
    (h : s.LocksCurrent) (hc : s.DeallocStep e) (hst : s.step e = some t) : t.LocksCurrent := by
  have hk := step_kstep hst
  intro j m g hj
  rcases kstep_inLock hk hj with hin | ⟨_, hm, ⟨hop, _, hg⟩ | ⟨hop, hpc⟩⟩
  · rcases kstep_deallocs hk m with hd | ⟨hop, hm⟩
    · rw [hd]
      exact h j m g hin
    · exact absurd hin (hc.idle m hop hm j g)
  · rcases kstep_deallocs hk m with hd | ⟨hop', _⟩
    · rw [hd, hg]
      exact lt_irrefl _
    · simp [hop] at hop'
  · rcases kstep_deallocs hk m with hd | ⟨hop', _⟩
    · rw [hd]
      exact fun hlt => hc.retry m g hop hpc hlt hm
    · simp [hop] at hop'

theorem no_stale_waiter {s t : Kthreads n} {es : List (Fin n × KOp)} (hs : s.Boot)
    (hes : GuardedRun.along step DeallocStep s es) (hr : s.run es = some t) : t.NoStaleWaiter := by
  have hboot : s.LocksCurrent := fun i m g _ => by simp [hs.deallocs m]
  have hinv := GuardedRun.run_invariant locksCurrent_step hboot hes hr
  exact fun i m g hpc hb => hinv i m g (Or.inr ⟨hpc, hb⟩)

def twoWaiters : List (Fin nproc × KOp) :=
  relayContended ++ [(2, .mutexLock 0), (2, .block), (0, .mutexUnlock 0)]

theorem stale_waiter :
    ¬ ∀ (s t : Kthreads nproc) (es : List (Fin nproc × KOp)), s.Boot →
      (∀ e ∈ es, e.2.isMutex = true ∧ e.2.inRange = true) → s.run es = some t →
        t.NoStaleWaiter := by
  intro hall
  have hstale := hall relayStart _ (twoWaiters ++ [(0, .mutexDealloc 0)]) relayStart_boot
    (by simp [twoWaiters, relayContended, relayOpen, KOp.isMutex, KOp.inRange]) rfl 2 0 0 rfl rfl
  exact hstale (by decide)

def deallocAwake : List (Fin nproc × KOp) :=
  relayContended ++ [(0, .mutexUnlock 0), (0, .mutexDealloc 0), (1, .schedule), (1, .mutexRetry)]

theorem deallocStep_quiet {s : Kthreads n} {e : Fin n × KOp}
    (hop : e.2.inRange = true ∧ e.2 ≠ .mutexRetry) (hd : ∀ m, e.2 ≠ .mutexDealloc m)
    (hl : ∀ m, e.2 = .mutexLock m → 0 ≤ (s.mtable m).startIndex + (s.mtable m).count) :
    s.DeallocStep e where
  inRange := hop.1
  ring m g he _ := by
    rcases he with ⟨hop', _⟩ | ⟨hop', _⟩
    · exact hl m hop'
    · exact absurd hop' hop.2
  idle m h := absurd h (hd m)
  retry m g h := absurd h hop.2

theorem not_inLock {s : Kthreads n}
    (h : ∀ i, s.pc i = .user ∨ s.pc i = .waitMutex 0 0 ∧ (s.ptable i).state = .runnable)
    (i : Fin n) (m : Int) (g : Nat) : ¬ s.InLock i m g := by
  rcases h i with hu | ⟨hw, hs⟩ <;> simp [InLock, *]

theorem no_stale_waiter_awake :
    ∃ t, relayStart.run deallocAwake = some t ∧ t.deallocs 0 = 1 ∧ t.eax 1 = -1 ∧
      t.NoStaleWaiter := by
  have hes : GuardedRun.along step DeallocStep relayStart deallocAwake := by
    refine GuardedRun.along_cons (deallocStep_quiet (by decide) (by simp) (by simp)) rfl
      (GuardedRun.along_cons (deallocStep_quiet (by decide) (by simp) ?_) rfl
      (GuardedRun.along_cons (deallocStep_quiet (by decide) (by simp) ?_) rfl
      (GuardedRun.along_cons (deallocStep_quiet (by decide) (by simp) (by simp)) rfl
      (GuardedRun.along_cons (deallocStep_quiet (by decide) (by simp) (by simp)) rfl
      (GuardedRun.along_cons ⟨rfl, ?_, ?_, by simp⟩ rfl
      (GuardedRun.along_cons (deallocStep_quiet (by decide) (by simp) (by simp)) rfl
      (GuardedRun.along_cons ⟨rfl, ?_, by simp, ?_⟩ rfl trivial)))))))
    · rintro m h
      cases h
      decide
    · rintro m h
      cases h
      decide
    · rintro m g (⟨h, _⟩ | ⟨h, _⟩) <;> cases h
    · exact fun m _ _ i g => not_inLock (by decide) i m g
    · rintro m g (⟨h, _⟩ | ⟨_, hpc⟩) hl
      · cases h
      · cases hpc
        exact absurd hl (by decide)
    · rintro m g _ hpc _
      cases hpc
      decide
  exact ⟨_, rfl, rfl, rfl, no_stale_waiter relayStart_boot hes rfl⟩

end Xv6.Kthreads
