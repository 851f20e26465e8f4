import Xv6.Kthread.CondOwnership
import Xv6.Kthread.MutexWaiters

namespace Xv6

open RingBuffer

def KthreadCond.waitRing (c : KthreadCond) : List Int :=
  entries maxThreads c.sleepingTID c.startIndex c.count

theorem kthreadCondAlloc_cases (t : Ctable) :
    kthreadCondAlloc t = (t, -1) ∨ ∃ c : Int, (t c).status = cUnused ∧
      kthreadCondAlloc t = (Function.update t c ⟨cUsed, fun _ => 0, 0, 0, 0⟩, c) := by
  unfold kthreadCondAlloc
  split
  · rename_i i hi
    exact Or.inr ⟨i, by simpa using List.find?_some hi, rfl⟩
  · exact Or.inl rfl

theorem waitRing_enqueueCond (c : KthreadCond) (threadId mutexId : Int) (h0 : 0 ≤ c.startIndex)
    (hc : 0 ≤ c.count) (hfull : c.count < maxThreads) :
    (enqueueCond c threadId mutexId).waitRing = c.waitRing ++ [threadId] := by
  have hmod := Int.tmod_eq_emod_of_nonneg (a := c.startIndex + c.count) (b := maxThreads) (by omega)
  simpa [KthreadCond.waitRing, enqueueCond, hmod] using
    entries_enqueue c.sleepingTID threadId hc hfull

theorem waitRing_dequeueCond (c : KthreadCond) (h0 : 0 ≤ c.startIndex)
    (h1 : c.startIndex < maxThreads) (hc : 0 < c.count) :
    c.waitRing = c.sleepingTID c.startIndex :: (dequeueCond c).waitRing := by
  have hmod := Int.tmod_eq_emod_of_nonneg (a := c.startIndex + 1) (b := maxThreads) (by omega)
  have hstart : c.startIndex % maxThreads = c.startIndex := Int.emod_eq_of_lt h0 h1
  rw [KthreadCond.waitRing, entries_dequeue _ hc, hstart]
  simp [KthreadCond.waitRing, dequeueCond, hmod]

theorem dequeueCond_startIndex (c : KthreadCond) (h0 : 0 ≤ c.startIndex) :
    0 ≤ (dequeueCond c).startIndex ∧ (dequeueCond c).startIndex < maxThreads := by
  have hmod := Int.tmod_eq_emod_of_nonneg (a := c.startIndex + 1) (b := maxThreads) (by omega)
  simp only [dequeueCond, hmod, maxThreads]
  omega

namespace Kthreads

variable {n : Nat}

def Awaits (s : Kthreads n) (c : Int) (i : Fin n) : Prop :=
  ∃ m, s.pc i = .blockCond c m ∨ s.pc i = .waitCond c m ∧ (s.ptable i).state = .blocking

def Signalled (s : Kthreads n) (c tid : Int) : Prop := ∃ k, s.pc k = .signalWake c tid

def NoLostSignal (s : Kthreads n) (c : Int) : Prop :=
  s.ctableFree = true → ∀ i m, s.pc i = .waitCond c m → (s.ptable i).state = .blocking →
    s.tidOf i ∈ (s.ctable c).waitRing

structure SignalStep (c : Int) (s : Kthreads n) (e : Fin n × KOp) : Prop where
  inRange : e.2.inRange = true
  keeps : e.2 ≠ .condDealloc c
  ring : s.RingNotBelow e
  room : ∀ m, e.2 = .condWait c m → (s.ctable c).count < maxThreads
  asleep : ∀ tid, e.2 = .signalWake → s.pc e.1 = .signalWake c tid →
    ∀ j m, s.pc j = .blockCond c m → s.tidOf j ≠ tid

structure SignalsQueued (c : Int) (s : Kthreads n) : Prop where
  distinct : Function.Injective s.tidOf
  startIndex : 0 ≤ (s.ctable c).startIndex ∧ (s.ctable c).startIndex < maxThreads
  count : 0 ≤ (s.ctable c).count
  fresh : (s.ctable c).status = cUnused → ∀ j, ¬ s.Awaits c j
  queued : ∀ j, s.Awaits c j → s.tidOf j ∈ (s.ctable c).waitRing ∨ s.Signalled c (s.tidOf j)

theorem boot_signalsQueued {s : Kthreads n} (h : s.Boot) (hd : Function.Injective s.tidOf)
    (c : Int) : s.SignalsQueued c := by
  have hnone : ∀ j, ¬ s.Awaits c j := by
    rintro j ⟨m, hj | ⟨hj, _⟩⟩ <;> simp [h.pc j] at hj
  refine ⟨hd, ?_, ?_, fun _ => hnone, fun j hj => absurd hj (hnone j)⟩
  · simp [h.ctable]
  · simp [h.ctable]

theorem ctableFree_not_signalled {s : Kthreads n} (h : s.ctableFree = true) (c tid : Int) :
    ¬ s.Signalled c tid := by
  rintro ⟨k, hk⟩
  have := List.all_eq_true.mp h k (List.mem_finRange k)
  simp [hk] at this

theorem SignalsQueued.noLostSignal {s : Kthreads n} {c : Int} (h : s.SignalsQueued c) :
    s.NoLostSignal c := by
  intro hf i m hpc hb
  exact (h.queued i ⟨m, Or.inr ⟨hpc, hb⟩⟩).resolve_right (ctableFree_not_signalled hf c _)

theorem kstep_awaits {s t : Kthreads n} {i j : Fin n} {op : KOp} {c : Int} (h : KStep s i op t)
    (hj : t.Awaits c j) :
    s.Awaits c j ∨ j = i ∧ (s.ctable c).status = cUsed ∧ ∃ m, op = .condWait c m := by
  obtain ⟨m, hj⟩ := hj
  by_cases hji : j = i
  · subst hji
    cases h with
    | blockCond hs hpc =>
      simp only [goto, Function.update_self, reduceCtorEq, Pc.waitCond.injEq, false_or] at hj
      exact Or.inl ⟨m, Or.inl (by rw [hpc, hj.1.1, hj.1.2])⟩
    | condWaitOwner hs hpc hf hu | condWaitOther hs hpc hf hu =>
      simp only [goto, Function.update_self, Pc.blockCond.injEq, reduceCtorEq, false_and,
        or_false] at hj
      exact Or.inr ⟨rfl, hj.1 ▸ hu, m, by rw [hj.1, hj.2]⟩
    | resumeOther hs hm hw =>
      rcases hj with hj | ⟨hj, _⟩
      · exact Or.inl ⟨m, Or.inl hj⟩
      · exact absurd hj (hw c m)
    | yield hs hpc =>
      rcases hj with hj | ⟨_, hb⟩
      · exact Or.inl ⟨m, Or.inl hj⟩
      · simp at hb
    | _ => simp at hj
  · rw [kstep_pc_other h hji] at hj
    refine Or.inl ⟨m, ?_⟩
    rcases hj with hj | ⟨hj, hb⟩
    · exact Or.inl hj
    · exact Or.inr ⟨hj, kstep_blocking_other h hji hb⟩

theorem kstep_signalled {s t : Kthreads n} {i : Fin n} {op : KOp} {c tid : Int}
    (h : KStep s i op t) (hop : op ≠ .signalWake) (hs : s.Signalled c tid) :
    t.Signalled c tid := by
  obtain ⟨k, hk⟩ := hs
  refine ⟨k, ?_⟩
  by_cases hki : k = i
  · subst hki
    cases h with
    | resumeOther | yield => exact hk
    | signalWake => exact absurd rfl hop
    | lockUnused _ he | lockFree _ he | lockQueued _ he | lockEnqueue _ he =>
      rcases he with ⟨_, he, _⟩ | ⟨_, he⟩ <;> simp [hk] at he
    | _ => simp_all
  · rw [kstep_pc_other h hki, hk]

theorem signalsQueued_frame {s t : Kthreads n} {i : Fin n} {op : KOp} {c : Int}
    (h : s.SignalsQueued c) (hk : KStep s i op t) (hrec : t.ctable c = s.ctable c)
    (hop : op ≠ .signalWake) (hw : ∀ m, op = .condWait c m → (s.ctable c).status ≠ cUsed) :
    t.SignalsQueued c := by
  have hid := kstep_tidOf hk
  have haw : ∀ j, t.Awaits c j → s.Awaits c j := by
    intro j hj
    rcases kstep_awaits hk hj with hj | ⟨_, hu, m, hm⟩
    · exact hj
    · exact absurd hu (hw m hm)
  refine ⟨fun i j he => h.distinct (by rw [← hid i, ← hid j]; exact he), hrec ▸ h.startIndex,
    hrec ▸ h.count, ?_, ?_⟩
  · intro hu j hj
    exact h.fresh (hrec ▸ hu) j (haw j hj)
  · intro j hj
    rw [hrec, hid]
    rcases h.queued j (haw j hj) with hq | hq
    · exact Or.inl hq
    · exact Or.inr (kstep_signalled hk hop hq)

theorem signalsQueued_wait {s t : Kthreads n} {i : Fin n} {c m : Int} (h : s.SignalsQueued c)
    (hk : KStep s i (.condWait c m) t) (hu : (s.ctable c).status = cUsed)
    (hroom : (s.ctable c).count < maxThreads)
    (hrec : t.ctable c = enqueueCond (s.ctable c) (s.tidOf i) m) : t.SignalsQueued c := by
  have hid := kstep_tidOf hk
  have hcount := h.count
  have hring := waitRing_enqueueCond (s.ctable c) (s.tidOf i) m h.startIndex.1 hcount hroom
  refine ⟨fun i j he => h.distinct (by rw [← hid i, ← hid j]; exact he), ?_, ?_, ?_, ?_⟩
  · simpa [hrec, enqueueCond] using h.startIndex
  · simp [hrec, enqueueCond]; omega
  · simp [hrec, enqueueCond, hu]
  · intro j hj
    rw [hrec, hring, hid, List.mem_append, List.mem_singleton]
    rcases kstep_awaits hk hj with hj | ⟨rfl, _⟩
    · rcases h.queued j hj with hq | hq
      · exact Or.inl (Or.inl hq)
      · exact Or.inr (kstep_signalled hk (by simp) hq)
    · exact Or.inl (Or.inr rfl)

theorem signalsQueued_signal {s t : Kthreads n} {i : Fin n} {c : Int} (h : s.SignalsQueued c)
    (hk : KStep s i (.condSignal c) t) (hne : (s.ctable c).count ≠ 0)
    (hrec : t.ctable c = dequeueCond (s.ctable c)) (hpc : t.pc i = .signalWake c (s.signalHead c)) :
    t.SignalsQueued c := by
  have hid := kstep_tidOf hk
  have hcount := h.count
  have hring := waitRing_dequeueCond (s.ctable c) h.startIndex.1 h.startIndex.2 (by omega)
  have haw : ∀ j, t.Awaits c j → s.Awaits c j := by
    intro j hj
    rcases kstep_awaits hk hj with hj | ⟨_, _, m, hm⟩
    · exact hj
    · cases hm
  refine ⟨fun i j he => h.distinct (by rw [← hid i, ← hid j]; exact he), ?_, ?_, ?_, ?_⟩
  · simpa [hrec] using dequeueCond_startIndex (s.ctable c) h.startIndex.1
  · simp [hrec, dequeueCond]; omega
  · intro hu j hj
    exact h.fresh (by simpa [hrec, dequeueCond] using hu) j (haw j hj)
  · intro j hj
    rw [hrec, hid]
    rcases h.queued j (haw j hj) with hq | hq
    · rw [hring, List.mem_cons] at hq
      rcases hq with hq | hq
      · exact Or.inr ⟨i, by rw [hpc, hq]; rfl⟩
      · exact Or.inl hq
    · exact Or.inr (kstep_signalled hk (by simp) hq)

theorem signalsQueued_wake {s : Kthreads n} {i : Fin n} {c c' tid : Int} (h : s.SignalsQueued c)
    (hs : (s.ptable i).state = .running) (hpc : s.pc i = .signalWake c' tid)
    (hasleep : c' = c → ∀ j m, s.pc j = .blockCond c m → s.tidOf j ≠ tid) :
    (({ s with ptable := wakeBlocked s.ptable tid }).returns i 0).SignalsQueued c := by
  have hk := KStep.signalWake hs hpc
  have hid := kstep_tidOf hk
  have haw : ∀ j, (({ s with ptable := wakeBlocked s.ptable tid }).returns i 0).Awaits c j →
      s.Awaits c j := by
    intro j hj
    rcases kstep_awaits hk hj with hj | ⟨_, _, m, hm⟩
    · exact hj
    · cases hm
  refine ⟨fun i j he => h.distinct (by rw [← hid i, ← hid j]; exact he), h.startIndex, h.count,
    fun hu j hj => h.fresh hu j (haw j hj), ?_⟩
  intro j hj
  rw [hid]
  rcases h.queued j (haw j hj) with hq | ⟨k, hq⟩
  · exact Or.inl hq
  · by_cases hki : k = i
    · subst hki
      rw [hpc, Pc.signalWake.injEq] at hq
      obtain ⟨rfl, rfl⟩ := hq
      obtain ⟨m, hj⟩ := hj
      rcases hj with hj | ⟨_, hb⟩
      · exact absurd rfl (hasleep rfl j m (update_pc_frame s.pc k (by simp) j hj))
      · exact absurd rfl (wakeBlocked_not_blocking h.distinct hb).2
    · exact Or.inr ⟨k, by rw [kstep_pc_other hk hki, hq]⟩

theorem signalsQueued_step {c : Int} (s : Kthreads n) (e : Fin n × KOp) (t : Kthreads n)
    (h : s.SignalsQueued c) (hc : s.SignalStep c e) (hst : s.step e = some t) :
    t.SignalsQueued c := by
  obtain ⟨i, op⟩ := e
  have hk := step_kstep hst
  have hk' := hk
  cases hk with
  | condAlloc hs hpc hf =>
    rcases kthreadCondAlloc_cases s.ctable with ha | ⟨c', hu, ha⟩
    · exact signalsQueued_frame h hk' (by simp [ha]) (by simp) (by simp)
    · by_cases hcc : c = c'
      · subst hcc
        have hnone : ∀ j, ¬ (({ s with ctable := (kthreadCondAlloc s.ctable).1 }).returns i
            (kthreadCondAlloc s.ctable).2).Awaits c j := by
          intro j hj
          rcases kstep_awaits hk' hj with hj | ⟨_, _, m, hm⟩
          · exact h.fresh hu j hj
          · cases hm
        exact ⟨h.distinct, by simp [ha], by simp [ha], fun _ => hnone,
          fun j hj => absurd hj (hnone j)⟩
      · exact signalsQueued_frame h hk' (by simp [ha, hcc]) (by simp) (by simp)
  | @condDealloc c' hs hpc hf =>
    have hcc : c ≠ c' := fun he => hc.keeps (by rw [he])
    refine signalsQueued_frame h hk' ?_ (by simp) (by simp)
    simp only [kthreadCondDealloc]
    split <;> simp [hcc]
  | @condWaitOwner c' m hs hpc hf hu ho | @condWaitOther c' m hs hpc hf hu ho =>
    by_cases hcc : c = c'
    · subst hcc
      exact signalsQueued_wait h hk' hu (hc.room m rfl) (by simp)
    · exact signalsQueued_frame h hk' (by simp [hcc]) (by simp) (by simp [Ne.symm hcc])
  | @signalHead c' hs hpc hf hcount =>
    by_cases hcc : c = c'
    · subst hcc
      exact signalsQueued_signal h hk' hcount (by simp) (by simp)
    · exact signalsQueued_frame h hk' (by simp [hcc]) (by simp) (by simp)
  | signalWake hs hpc =>
    refine signalsQueued_wake h hs hpc ?_
    rintro rfl
    exact hc.asleep _ rfl hpc
  | @condWaitUnused c' m hs hpc hf hu =>
    refine signalsQueued_frame h hk' rfl (by simp) ?_
    rintro m' heq
    cases heq
    exact hu
  | lockUnused _ he | lockFree _ he | lockQueued _ he | lockEnqueue _ he =>
    have hop := he.isMutex
    refine signalsQueued_frame h hk' rfl ?_ ?_
    · rintro rfl
      cases hop
    · rintro m rfl
      cases hop
  | _ => exact signalsQueued_frame h hk' rfl (by simp) (by simp)

theorem no_lost_signal {s t : Kthreads n} {es : List (Fin n × KOp)} {c : Int} (hs : s.Boot)
    (hd : Function.Injective s.tidOf) (hes : GuardedRun.along step (SignalStep c) s es)
    (hr : s.run es = some t) : t.NoLostSignal c :=
  (GuardedRun.run_invariant signalsQueued_step (boot_signalsQueued hs hd c) hes hr).noLostSignal

theorem lost_signal :
    ¬ ∀ (s t : Kthreads nproc) (es : List (Fin nproc × KOp)), s.Boot →
      Function.Injective s.tidOf → (∀ i, s.tidOf i ≠ 0) →
      (∀ e ∈ es, e.2.inRange = true ∧ ∀ c, e.2 ≠ .condDealloc c) → s.run es = some t →
        t.NoLostSignal 0 := by
  intro hall
  have hlost := hall relayStart _ [(0, .mutexAlloc), (0, .condAlloc), (0, .mutexLock 0),
    (0, .condWait 0 0), (1, .condSignal 0), (1, .signalWake), (0, .block)] relayStart_boot
    relayStart_distinct (fun i => by simp only [relayStart, tidOf]; omega) (by simp [KOp.inRange])
    rfl rfl 0 0 rfl rfl
  exact absurd hlost (by decide)

theorem signalStep_idle {c : Int} {s : Kthreads n} {i : Fin n} {op : KOp}
    (hop : op.inRange = true ∧ op ≠ .signalWake ∧ op ≠ .condDealloc c)
    (hw : ∀ m, op = .condWait c m → (s.ctable c).count < maxThreads)
    (hlock : ∀ m g, s.LockEntry i op m g → (s.mtable m).status ≠ mLocked) :
    s.SignalStep c (i, op) where
  inRange := hop.1
  keeps := hop.2.2
  ring m g he hl := absurd hl (hlock m g he)
  room := hw
  asleep _ h := absurd h hop.2.1

theorem no_lost_signal_waiting :
    ∃ t, relayStart.run waitThenLock = some t ∧ t.ctableFree = true ∧ t.pc 0 = .waitCond 0 0 ∧
      (t.ptable 0).state = .blocking ∧ t.NoLostSignal 0 := by
  have hes : GuardedRun.along step (SignalStep 0) relayStart waitThenLock := by
    refine GuardedRun.along_cons (signalStep_idle (by decide) (by simp) ?_) rfl
      (GuardedRun.along_cons (signalStep_idle (by decide) (by simp) ?_) rfl
      (GuardedRun.along_cons (signalStep_idle (by decide) (by simp) ?_) rfl
      (GuardedRun.along_cons (signalStep_idle (by decide) (fun _ _ => by decide) ?_) rfl
      (GuardedRun.along_cons (signalStep_idle (by decide) (by simp) ?_) rfl
      (GuardedRun.along_cons (signalStep_idle (by decide) (by simp) ?_) rfl trivial)))))
    all_goals rintro m g (⟨h, _⟩ | ⟨h, _⟩) <;> cases h
    all_goals decide
  exact ⟨_, rfl, rfl, rfl, rfl, no_lost_signal relayStart_boot relayStart_distinct hes rfl⟩

end Kthreads
end Xv6
