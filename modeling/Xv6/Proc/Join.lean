import Xv6.Proc.Sleepers

namespace Xv6

variable {n : Nat}

def ProcPc.joining : ProcPc n → Bool
  | .joinSleep _ _ _ _ => true
  | _ => false

namespace Procs

def AsleepInJoin (s : Procs n) (j : Fin n) : Prop :=
  (s.ptable j).state = .sleeping ∧ (s.pc j).joining = true

instance (s : Procs n) (j : Fin n) : Decidable (s.AsleepInJoin j) := by
  unfold AsleepInJoin; infer_instance

def LastThread (s : Procs n) (i : Fin n) : Prop :=
  ∀ q, q ≠ i → (s.ptable q).pid = (s.ptable i).pid → ¬ (s.ptable q).live

instance (s : Procs n) (i : Fin n) : Decidable (s.LastThread i) := by
  unfold LastThread; infer_instance

def WakeStep (s : Procs n) (e : Fin n × ProcOp) : Prop :=
  match e.2 with
  | .newExit => ∀ j, s.AsleepInJoin j → (s.ptable e.1).parent ≠ some j ∧
      (j = s.initproc → ∀ p, (s.ptable p).parent = some e.1 → (s.ptable p).state ≠ .zombie)
  | .kill pid => ∀ j, s.AsleepInJoin j → (s.ptable j).pid ≠ pid
  | .exit => s.LastThread e.1 →
      ∀ k j, (s.ptable e.1).sleepingThreads k = some j → ¬ s.AsleepInJoin j
  | _ => True

instance (s : Procs n) (e : Fin n × ProcOp) : Decidable (s.WakeStep e) := by
  unfold WakeStep; split <;> infer_instance

def JoinSound (s : Procs n) (e : Fin n × ProcOp) : Prop :=
  ∀ p k threadId birth, e.2 = .schedule → (s.ptable e.1).state = .runnable →
    s.pc e.1 = .joinSleep p k threadId birth → s.Ended p birth

structure WokenByTarget (s : Procs n) : Prop where
  spawning : s.groups.Spawning
  sleepers : s.Sleepers
  birth : ∀ j p k threadId birth, s.pc j = .joinSleep p k threadId birth → birth ≤ s.births p
  ended : ∀ j p k threadId birth, s.pc j = .joinSleep p k threadId birth →
    (s.ptable j).state = .runnable → s.Ended p birth

theorem exit_cases {s t : Procs n} {i : Fin n} (h : PStep s i .exit t) :
    (s.ptable i).state = .running ∧
      (s.LastThread i ∧ t.ptable = reapSiblings (wakeJoiners s.ptable i) i ∨
        t.ptable = setState (wakeJoiners s.ptable i) i .zombie) := by
  cases h with
  | exitLast hs hpc hi hc =>
    refine ⟨hs, Or.inl ⟨?_, rfl⟩⟩
    intro q hq hpid hlive
    exact (threadsCounter_sibling hs).mp hc q (sibling_iff.mpr ⟨hq, hpid, hlive⟩)
  | exitThread hs hpc hi hc => exact ⟨hs, Or.inr rfl⟩
  | waitReap he | waitNone he | waitBlock he => rcases he with ⟨hop, _⟩ | ⟨hop, _⟩ <;> cases hop

theorem wakes_joiner {s t : Procs n} {i j p : Fin n} {op : ProcOp} {k : Option (Fin 64)}
    {threadId : Int} {birth : Nat} (hs : s.Sleepers) (hc : s.WakeStep (i, op)) (h : PStep s i op t)
    (hw : s.Wakes i op j) (hj : s.pc j = .joinSleep p k threadId birth)
    (hsleep : (s.ptable j).state = .sleeping) : (t.ptable p).state = .zombie := by
  have hasleep : s.AsleepInJoin j := ⟨hsleep, by simp [hj, ProcPc.joining]⟩
  have hchan : (s.ptable j).chan = some j := by
    rcases hs.parked j p k threadId birth hj with ⟨_, hchan⟩ | hrun
    · exact hchan
    · simp [hsleep] at hrun
  rcases hw with ⟨rfl, κ, _, hκ⟩ | ⟨rfl, hparent | ⟨hinit, q, hq, hz⟩⟩ | ⟨pid, rfl, hpid⟩
  · have hentry : (s.ptable i).sleepingThreads κ = some j := hκ ▸ hchan
    obtain ⟨_, _, hj'⟩ := hs.entry i κ j hentry
    rw [hj] at hj'
    cases hj'
    obtain ⟨hrun, ⟨hlast, _⟩ | ht⟩ := exit_cases h
    · exact absurd hasleep (hc hlast κ j hentry)
    · simp [ht, setState]
  · exact absurd (hparent ▸ hchan) (hc j hasleep).1
  · rw [hchan, Option.some.injEq] at hinit
    exact absurd hz ((hc j hasleep).2 hinit q hq)
  · exact absurd (killSlot_some hpid) (hc j hasleep)

theorem wokenByTarget_step {s t : Procs n} {e : Fin n × ProcOp} (h : s.WokenByTarget)
    (hc : s.WakeStep e) (hstep : s.step e = some t) : t.WokenByTarget := by
  have hp := step_pstep hstep
  obtain ⟨hs, hsl, hbirth, hended⟩ := h
  have hs' : t.groups.Spawning := by
    obtain ⟨a, hk, _⟩ := pstep_gstep hp
    exact Groups.spawning_step hs hk
  refine ⟨hs', sleepers_step hsl hs hp, ?_, ?_⟩
  · intro j p k threadId birth hj
    by_cases hji : j = e.1
    · subst hji
      have he := pstep_joins hp (fun _ _ _ _ => hsl.not_running) hj
      rw [he.births, he.birth]
    · exact (hbirth j p k threadId birth (pstep_joining_other hp hji hj)).trans
        (pstep_births_le hp p)
  · intro j p k threadId birth hj hrun
    by_cases hji : j = e.1
    · subst hji
      have he := pstep_joins hp (fun _ _ _ _ => hsl.not_running) hj
      simp [he.asleep] at hrun
    · have hj' := pstep_joining_other hp hji hj
      have hrest := (pstep_other hs hp hji (hsl.active hj')).2
      rcases hrest.state with hst | ⟨hsleep, _, hw⟩
      · exact pstep_ended hs hp (hbirth j p k threadId birth hj')
          (hended j p k threadId birth hj' (hst ▸ hrun))
      · exact fun _ => Or.inl (wakes_joiner hsl hc hp hw hj' hsleep)

theorem boot_wokenByTarget {s : Procs n} (h : s.Boot) : s.WokenByTarget :=
  ⟨(boot_sound h).spawning, boot_sleepers h, fun j _ _ _ _ hj => by simp [h.pc] at hj,
    fun j _ _ _ _ hj => by simp [h.pc] at hj⟩

theorem join_sound {s : Procs n} {es : List (Fin n × ProcOp)} (h : s.Boot)
    (hc : GuardedRun.along step WakeStep s es) : GuardedRun.along step JoinSound s es := by
  refine GuardedRun.along_of_invariant (fun s e t => wokenByTarget_step) ?_ (boot_wokenByTarget h) hc
  intro s e hinv _ p k threadId birth _ hrun hpc
  exact hinv.ended e.1 p k threadId birth hpc hrun

def childExitsDuringJoin : List (Fin nproc × ProcOp) :=
  (0, .schedule) :: createOps 0 1 3 4 ++ forkOps 0 2 5 6 ++
    [(0, .join 1), (2, .exit), (2, .newExit)]

set_option maxRecDepth 4000 in
theorem join_returns_early :
    ∃ t u, (userinit (0 : Fin nproc) 1 2).Boot ∧
      (userinit (0 : Fin nproc) 1 2).run childExitsDuringJoin = some t ∧
      t.pc 0 = .joinSleep 1 (some 0) 1 1 ∧ t.step (0, .schedule) = some u ∧ u.eax 0 = 0 ∧
      (u.ptable 1).threadId = 1 ∧ (u.ptable 1).state = .running ∧ u.births 1 = 1 ∧
      ¬ t.JoinSound (0, .schedule) := by
  refine ⟨_, _, userinit_boot 0 1 (by decide), rfl, rfl, rfl, rfl, rfl, rfl, rfl, ?_⟩
  intro hsound
  exact absurd (hsound 1 (some 0) 1 1 rfl rfl rfl rfl) (by decide)

def threadJoined : List (Fin nproc × ProcOp) :=
  (0, .schedule) :: createOps 0 1 3 4 ++ [(0, .join 1), (1, .exit), (0, .schedule)]

theorem join_sound_thread_exited :
    ((userinit (0 : Fin nproc) 1 2).run threadJoined).map (fun t => (t.pc 0, t.eax 0)) =
        some (.user, 0) ∧
      GuardedRun.along step JoinSound (userinit (0 : Fin nproc) 1 2) threadJoined := by
  have hes : GuardedRun.along step WakeStep (userinit (0 : Fin nproc) 1 2) threadJoined :=
    GuardedRun.along_of_checks (by decide +kernel)
  exact ⟨by decide +kernel, join_sound (userinit_boot 0 1 (by decide)) hes⟩

def JoinStep (s : Procs n) (e : Fin n × ProcOp) : Prop :=
  match e.2, s.pc e.1 with
  | .join threadId, _ => ∀ q, (s.ptable q).threadId = threadId →
      (s.ptable q).state = .zombie ∨ (s.ptable q).active ∧ s.pc q ≠ .newExit
  | .forkClear, .forkClear np _ =>
    ∀ k j, (s.ptable np).sleepingThreads k = some j → ¬ s.AsleepInJoin j
  | .schedule, .joinSleep p (some k) _ _ =>
    ∀ j, (s.ptable p).sleepingThreads k = some j → j = e.1 ∨ ¬ s.AsleepInJoin j
  | _, _ => True

instance (s : Procs n) (e : Fin n × ProcOp) : Decidable (s.JoinStep e) := by
  unfold JoinStep; split <;> infer_instance

def JoinRecorded (s : Procs n) : Prop :=
  ∀ j p k threadId birth, s.pc j = .joinSleep p k threadId birth → (s.ptable j).state = .sleeping →
    ∃ x κ, (s.ptable x).sleepingThreads κ = some j ∧ (s.ptable x).threadId = threadId ∧
      (s.ptable x).live ∧ ∀ u, s.step (x, .exit) = some u → (u.ptable j).state = .runnable

def JoinRefuses (s : Procs n) (e : Fin n × ProcOp) : Prop :=
  ∀ threadId, e.2 = .join threadId → (s.ptable e.1).state = .running → s.pc e.1 = .user →
    (∀ q, (s.ptable q).live → (s.ptable q).threadId ≠ threadId) →
      s.step e = some (s.returns e.1 (-1))

structure Awaited (s : Procs n) : Prop where
  spawning : s.groups.Spawning
  sleepers : s.Sleepers
  target : ∀ j p k threadId birth, s.pc j = .joinSleep p k threadId birth →
    (s.ptable j).state = .sleeping → ∃ κ, k = some κ ∧ (s.ptable p).sleepingThreads κ = some j ∧
      (s.ptable p).threadId = threadId ∧ (s.ptable p).active ∧ s.pc p ≠ .newExit

theorem exit_wakes {s t : Procs n} {x j : Fin n} {κ : Fin 64} (h : PStep s x .exit t)
    (hx : (s.ptable x).sleepingThreads κ = some j) (hj : (s.ptable j).state = .sleeping)
    (hchan : (s.ptable j).chan = some j) : (t.ptable j).state = .runnable := by
  have hwake : (wakeJoiners s.ptable x j).state = .runnable := by
    rw [wakeJoiners, if_pos ⟨hj, κ, by simp [hx], by rw [hx, hchan]⟩]
  obtain ⟨hrun, ⟨_, ht⟩ | ht⟩ := exit_cases h
  · rw [ht, reapSiblings, if_neg (by simp [hwake])]
    exact hwake
  · have hne : j ≠ x := by
      rintro rfl
      simp [hj] at hrun
    rw [ht, setState, Function.update_of_ne hne]
    exact hwake

theorem freeIndex_exists {s : Procs nproc} (h : s.Sleepers) {i : Fin nproc}
    (hi : s.pc i = .user) (p : Fin nproc) : ∃ κ, freeIndex (s.ptable p) = some κ := by
  by_contra hnone
  have hfull : ∀ κ, ∃ j, (s.ptable p).sleepingThreads κ = some j := by
    intro κ
    have hf : freeIndex (s.ptable p) = none := by
      cases hk : freeIndex (s.ptable p) with
      | none => rfl
      | some κ => exact absurd ⟨κ, hk⟩ hnone
    have := SlotScan.firstSlot_none.mp hf κ
    exact Option.ne_none_iff_exists'.mp (by simpa using this)
  choose f hf using hfull
  have hinj : Function.Injective f := by
    intro a b hab
    obtain ⟨_, _, ha⟩ := h.entry p a (f a) (hf a)
    obtain ⟨_, _, hb⟩ := h.entry p b (f b) (hf b)
    rw [hab, hb] at ha
    cases ha
    rfl
  obtain ⟨κ, hκ⟩ := Finite.surjective_of_injective (f := (f : Fin nproc → Fin nproc)) hinj i
  obtain ⟨_, _, hj⟩ := h.entry p κ (f κ) (hf κ)
  rw [show f κ = i from hκ, hi] at hj
  cases hj

theorem gstep_own {g g' : Groups n} {i : Fin n} {a : GroupOp n} (hs : g.Spawning)
    (h : Groups.GStep g i a g') (hlast : a ≠ .exitLast) (hthread : a ≠ .exitThread)
    (hpc : g.pc i ≠ .newExit) :
    (g'.core i).threadId = (g.core i).threadId ∧ (g'.core i).phase = .active ∧
      g'.pc i ≠ .newExit := by
  have hne : ∀ np, (g.pc i).spawning = some np → i ≠ np := by
    rintro np hnp rfl
    obtain ⟨hi, he⟩ := hs.slot i i hnp
    simp [hi] at he
  cases h with
  | @idle x hi hx =>
    refine ⟨rfl, hi, ?_⟩
    rcases hx with rfl | ⟨_, hx⟩
    · simpa using hpc
    · rintro hxe
      simp [show x = .newExit by simpa using hxe, ProcPc.neutral] at hx
  | @reap z hi _ hz hpar =>
    have hiz : i ≠ z := by
      rintro rfl
      simp [hi] at hz
    simp [hiz, hi]
  | @spawn k np hi _ hnp =>
    have hin : i ≠ np := by
      rintro rfl
      simp [hi] at hnp
    simp [hin, hi]
  | @discard k np d hi hpci =>
    simp [hne np (by rcases hpci with hpci | hpci <;> simp [hpci, ProcPc.spawning]), hi]
  | @prepare k np hi hpci => simp [hne np (by simp [hpci, ProcPc.spawning]), hi]
  | @copy k np d hi hpci hd =>
    cases k <;> simp [hne np (by simp [hpci, ProcPc.spawning]), hi, afterCopy]
  | @publishFork np hi hpci => simp [hne np (by simp [hpci, ProcPc.spawning]), hi]
  | @publishThread np parent hi hpci => simp [hne np (by simp [hpci, ProcPc.spawning]), hi]
  | count hi | load hi | build hi | abort hi | commit hi => simp [hi]
  | exitLast => exact absurd rfl hlast
  | exitThread => exact absurd rfl hthread
  | newExit _ hpci => exact absurd hpci hpc

theorem pstep_own {s t : Procs n} {i : Fin n} {op : ProcOp} (hs : s.groups.Spawning)
    (h : PStep s i op t) (hop : op ≠ .exit) (hpc : s.pc i ≠ .newExit) :
    (t.ptable i).threadId = (s.ptable i).threadId ∧ (t.ptable i).active ∧ t.pc i ≠ .newExit := by
  obtain ⟨a, hk, ha⟩ := pstep_gstep h
  have hlast : a ≠ .exitLast := by
    rintro rfl
    exact hop ha
  have hthread : a ≠ .exitThread := by
    rintro rfl
    exact hop ha
  obtain ⟨hid, hphase, hpc'⟩ := gstep_own hs hk hlast hthread hpc
  exact ⟨hid, phase_active.mp hphase, hpc'⟩

theorem target_step {s t : Procs n} {i j p : Fin n} {op : ProcOp} {κ : Fin 64}
    (hs : s.groups.Spawning) (h : PStep s i op t) (hp : (s.ptable p).active)
    (hpc : s.pc p ≠ .newExit) (hentry : (s.ptable p).sleepingThreads κ = some j)
    (hj : (s.ptable j).state = .sleeping) (hchan : (s.ptable j).chan = some j)
    (hj' : (t.ptable j).state = .sleeping) :
    (t.ptable p).threadId = (s.ptable p).threadId ∧ (t.ptable p).active ∧ t.pc p ≠ .newExit := by
  by_cases hpi : p = i
  · subst hpi
    refine pstep_own hs h ?_ hpc
    rintro rfl
    simp [exit_wakes h hentry hj hchan] at hj'
  · obtain ⟨hpc', hrest⟩ := pstep_other hs h hpi hp
    exact ⟨hrest.threadId, hrest.active hp, by rwa [hpc']⟩

theorem entry_step {s t : Procs n} {i j p : Fin n} {op : ProcOp} {κ : Fin 64}
    (hs : s.groups.Spawning) (h : PStep s i op t) (hc : s.JoinStep (i, op)) (hji : j ≠ i)
    (hp : (s.ptable p).active) (hentry : (s.ptable p).sleepingThreads κ = some j)
    (hj : s.AsleepInJoin j) : (t.ptable p).sleepingThreads κ = some j := by
  cases pstep_entries h p with
  | kept he => rw [he, hentry]
  | created hpc he =>
    exact absurd (embryo_of_spawning hs (by rw [hpc]; rfl)) hp.2
  | forked hop hpc he =>
    simp only [JoinStep, hop, hpc] at hc
    exact absurd hj (hc κ j hentry)
  | @returned k threadId birth hop hpc he =>
    rw [he]
    by_cases hk : κ = k
    · subst hk
      simp only [JoinStep, hop, hpc] at hc
      rcases hc j hentry with hj' | hj'
      · exact absurd hj' hji
      · exact absurd hj hj'
    · rw [Function.update_of_ne hk, hentry]
  | @joined k threadId birth hk hpc he =>
    have hne : κ ≠ k := by
      rintro rfl
      simp [hk] at hentry
    rw [he, Function.update_of_ne hne, hentry]

theorem awaited_step {s t : Procs nproc} {e : Fin nproc × ProcOp} (h : s.Awaited)
    (hc : s.JoinStep e) (hstep : s.step e = some t) : t.Awaited := by
  have hp := step_pstep hstep
  obtain ⟨hs, hsl, htarget⟩ := h
  have hs' : t.groups.Spawning := by
    obtain ⟨a, hk, _⟩ := pstep_gstep hp
    exact Groups.spawning_step hs hk
  refine ⟨hs', sleepers_step hsl hs hp, ?_⟩
  intro j p k threadId birth hj hsleep
  by_cases hji : j = e.1
  · subst hji
    have he := pstep_joins hp (fun _ _ _ _ => hsl.not_running) hj
    obtain ⟨κ, hκ⟩ := freeIndex_exists hsl he.user p
    obtain rfl : k = some κ := he.index.symm.trans hκ
    refine ⟨κ, rfl, he.entry κ rfl, he.threadId, ?_⟩
    by_cases hpi : p = e.1
    · subst hpi
      exact ⟨by simp [Proc.active, Proc.live, he.asleep], by simp [hj]⟩
    · obtain ⟨hid, hnz⟩ := joinTarget_some he.target
      simp only [JoinStep, he.op] at hc
      obtain ⟨hact, hpc⟩ := (hc p hid).resolve_left hnz
      obtain ⟨hpc', hrest⟩ := pstep_other hs hp hpi hact
      exact ⟨hrest.active hact, by rwa [hpc']⟩
  · have hj' := pstep_joining_other hp hji hj
    have hrest := (pstep_other hs hp hji (hsl.active hj')).2
    have hsleep' : (s.ptable j).state = .sleeping := by
      rcases hrest.state with hst | ⟨hst, _⟩
      · rw [← hst, hsleep]
      · exact hst
    have hchan : (s.ptable j).chan = some j := by
      rcases hsl.parked j p k threadId birth hj' with ⟨_, hchan⟩ | hrun
      · exact hchan
      · simp [hsleep'] at hrun
    obtain ⟨κ, rfl, hentry, hid, hact, hpc⟩ := htarget j p k threadId birth hj' hsleep'
    obtain ⟨hid', hact', hpc'⟩ := target_step hs hp hact hpc hentry hsleep' hchan hsleep
    have hasleep : s.AsleepInJoin j := ⟨hsleep', by simp [hj', ProcPc.joining]⟩
    exact ⟨κ, rfl, entry_step hs hp hc hji hact hentry hasleep, hid'.trans hid, hact', hpc'⟩

theorem boot_awaited {s : Procs n} (h : s.Boot) : s.Awaited :=
  ⟨(boot_sound h).spawning, boot_sleepers h, fun j _ _ _ _ hj => by simp [h.pc] at hj⟩

theorem Awaited.recorded {s : Procs n} (h : s.Awaited) : s.JoinRecorded := by
  intro j p k threadId birth hj hsleep
  obtain ⟨κ, rfl, hentry, hid, hact, _⟩ := h.target j p k threadId birth hj hsleep
  refine ⟨p, κ, hentry, hid, hact.1, ?_⟩
  intro u hu
  rcases h.sleepers.parked j p (some κ) threadId birth hj with ⟨_, hchan⟩ | hrun
  · exact exit_wakes (step_pstep hu) hentry hsleep hchan
  · simp [hsleep] at hrun

theorem joinStep_refuses {s : Procs n} {e : Fin n × ProcOp} (hc : s.JoinStep e) :
    s.JoinRefuses e := by
  obtain ⟨i, op⟩ := e
  rintro threadId rfl hrun hpc hnone
  have htarget : joinTarget s.ptable threadId = none := by
    cases ht : joinTarget s.ptable threadId with
    | none => rfl
    | some p =>
      obtain ⟨hid, hnz⟩ := joinTarget_some ht
      obtain ⟨hact, _⟩ := (hc p hid).resolve_left hnz
      exact absurd hid (hnone p hact.1)
  dsimp only at hrun hpc
  simp [step, hrun, hpc, exec, joinSection, htarget]

theorem join_awaits_live_thread {s : Procs nproc} {es : List (Fin nproc × ProcOp)} (h : s.Boot)
    (hc : GuardedRun.along step JoinStep s es) :
    GuardedRun.along step JoinRefuses s es ∧ ∀ t, s.run es = some t → t.JoinRecorded := by
  refine ⟨GuardedRun.along_mono (fun s e => joinStep_refuses) hc, ?_⟩
  intro t ht
  exact (GuardedRun.run_invariant (fun s e t => awaited_step) (boot_awaited h) hc ht).recorded

def joinsReapedId : List (Fin nproc × ProcOp) :=
  (0, .schedule) :: forkOps 0 1 3 4 ++ [(1, .exit), (1, .newExit), (0, .wait)]

set_option maxRecDepth 4000 in
theorem join_awaits_dead_thread :
    ∃ t u, (userinit (0 : Fin nproc) 1 2).Boot ∧
      (userinit (0 : Fin nproc) 1 2).run joinsReapedId = some t ∧
      t.step (0, .join (-1)) = some u ∧ (u.ptable 0).state = .sleeping ∧
      ¬ t.JoinRefuses (0, .join (-1)) ∧ ¬ u.JoinRecorded := by
  refine ⟨_, _, userinit_boot 0 1 (by decide), rfl, rfl, rfl, ?_, ?_⟩
  · intro hrefuse
    have hstep := hrefuse (-1) rfl rfl rfl (by decide +kernel)
    exact absurd (congrArg (Option.map fun u => (u.ptable 0).state) hstep) (by decide +kernel)
  · intro hrec
    obtain ⟨x, -, -, hid, hlive, -⟩ := hrec 0 1 (some 0) (-1) 1 rfl rfl
    revert x
    decide +kernel

def joinsLiveThread : List (Fin nproc × ProcOp) :=
  (0, .schedule) :: createOps 0 1 3 4 ++ [(0, .join 7), (0, .join 1)]

theorem join_awaits_live_thread_asleep :
    ∃ t, (userinit (0 : Fin nproc) 1 2).run joinsLiveThread = some t ∧
      (t.ptable 0).state = .sleeping ∧ t.JoinRecorded := by
  have hes : GuardedRun.along step JoinStep (userinit (0 : Fin nproc) 1 2) joinsLiveThread :=
    GuardedRun.along_of_checks (by decide +kernel)
  exact ⟨_, rfl, rfl, (join_awaits_live_thread (userinit_boot 0 1 (by decide)) hes).2 _ rfl⟩

end Procs
end Xv6
