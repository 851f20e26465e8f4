import Xv6.Proc.Reaping

namespace Xv6

variable {n : Nat}

structure Rests (p q : Proc n) (w : Prop) : Prop where
  chan : q.chan = p.chan
  threadId : q.threadId = p.threadId
  state : q.state = p.state ∨ p.state = .sleeping ∧ q.state = .runnable ∧ w

theorem Rests.refl (p : Proc n) {w : Prop} : Rests p p w := ⟨rfl, rfl, Or.inl rfl⟩

theorem Rests.mono {p q : Proc n} {w v : Prop} (h : Rests p q w) (hw : w → v) : Rests p q v :=
  ⟨h.chan, h.threadId, h.state.imp id (And.imp id (And.imp id hw))⟩

theorem Rests.trans {p q r : Proc n} {w v : Prop} (h : Rests p q w) (h' : Rests q r v) :
    Rests p r (w ∨ v) := by
  refine ⟨h'.chan.trans h.chan, h'.threadId.trans h.threadId, ?_⟩
  rcases h.state with hq | ⟨hp, hq, hw⟩ <;> rcases h'.state with hr | ⟨hq', hr, hv⟩
  · exact Or.inl (hr.trans hq)
  · exact Or.inr ⟨hq ▸ hq', hr, Or.inr hv⟩
  · exact Or.inr ⟨hp, hr.trans hq, Or.inl hw⟩
  · simp [hq] at hq'

theorem Rests.after {p q r : Proc n} {w : Prop} (h : Rests p q False) (h' : Rests q r w) :
    Rests p r w := (h.trans h').mono (by simp)

theorem Rests.before {p q r : Proc n} {w : Prop} (h : Rests p q w) (h' : Rests q r False) :
    Rests p r w := (h.trans h').mono (by simp)

theorem Rests.active {p q : Proc n} {w : Prop} (h : Rests p q w) (hp : p.active) : q.active := by
  rcases h.state with hq | ⟨_, hq, _⟩
  · rwa [Proc.active, Proc.live, hq]
  · simp [Proc.active, Proc.live, hq]

theorem wakeup1_rests (pt : Ptable n) (c : Option (Fin n)) (j : Fin n) :
    Rests (pt j) (wakeup1 pt c j) ((pt j).chan = c) := by
  unfold wakeup1
  split
  · rename_i h
    exact ⟨rfl, rfl, Or.inr ⟨h.1, rfl, h.2⟩⟩
  · exact .refl _

theorem wakeJoiners_rests (pt : Ptable n) (i j : Fin n) :
    Rests (pt j) (wakeJoiners pt i j)
      (∃ k, (pt i).sleepingThreads k ≠ none ∧ (pt j).chan = (pt i).sleepingThreads k) := by
  unfold wakeJoiners
  split
  · rename_i h
    exact ⟨rfl, rfl, Or.inr ⟨h.1, rfl, h.2⟩⟩
  · exact .refl _

theorem setState_rests {pt : Ptable n} {i j : Fin n} (st : ProcState) (hj : j ≠ i) {w : Prop} :
    Rests (pt j) (setState pt i st j) w := by
  rw [setState, Function.update_of_ne hj]
  exact .refl _

theorem reapSiblings_rests {pt : Ptable n} {i j : Fin n} (hj : (pt j).state ≠ .zombie) {w : Prop} :
    Rests (pt j) (reapSiblings pt i j) w := by
  rw [reapSiblings, if_neg (fun h => hj h.1)]
  exact .refl _

theorem abandonChildren_rests (pt : Ptable n) (i initproc j : Fin n) :
    Rests (pt j) (abandonChildren pt i initproc j)
      ((pt j).chan = some initproc ∧ ∃ p, (pt p).parent = some i ∧ (pt p).state = .zombie) := by
  let pt' : Ptable n := fun p =>
    if (pt p).parent = some i then { pt p with parent := some initproc } else pt p
  have hadopt : ∀ {w : Prop}, Rests (pt j) (pt' j) w := by
    intro w
    dsimp only [pt']
    split
    · exact ⟨rfl, rfl, Or.inl rfl⟩
    · exact .refl _
  unfold abandonChildren
  dsimp only
  split
  · rename_i hz
    refine (hadopt.after (wakeup1_rests pt' (some initproc) j)).mono ?_
    intro h
    exact ⟨(hadopt (w := False)).chan ▸ h, hz⟩
  · exact hadopt

theorem newExitTable_rests {pt : Ptable n} {i initproc j : Fin n} (hj : j ≠ i) :
    Rests (pt j) (newExitTable pt i initproc j) ((pt j).chan = (pt i).parent ∨
      (pt j).chan = some initproc ∧ ∃ p, (pt p).parent = some i ∧ (pt p).state = .zombie) := by
  have hwake := wakeup1_rests pt (pt i).parent
  refine (((hwake j).trans (abandonChildren_rests _ i initproc j)).before
    (setState_rests .zombie hj)).mono ?_
  rintro (h | ⟨h, p, hp, hz⟩)
  · exact Or.inl h
  · refine Or.inr ⟨(hwake j).chan ▸ h, p, ?_, ?_⟩
    · unfold wakeup1 at hp
      split at hp <;> exact hp
    · rcases (hwake p).state with hs | ⟨_, hs, _⟩
      · exact hs ▸ hz
      · simp [hs] at hz

theorem killTable_rests (pt : Ptable n) (p j : Fin n) :
    Rests (pt j) (killTable pt p j) (p = j) := by
  by_cases hj : j = p
  · subst hj
    refine ⟨by simp [killTable], by simp [killTable], ?_⟩
    by_cases hs : (pt j).state = .sleeping <;> simp [killTable, hs]
  · rw [killTable, Function.update_of_ne hj]
    exact .refl _

theorem setSleeping_rests (pt : Ptable n) (p j : Fin n) (k : Fin 64) (v : Option (Fin n))
    {w : Prop} : Rests (pt j) (setSleeping pt p k v j) w := by
  by_cases hj : j = p
  · subst hj
    exact ⟨by simp [setSleeping], by simp [setSleeping], Or.inl (by simp [setSleeping])⟩
  · rw [setSleeping, Function.update_of_ne hj]
    exact .refl _

theorem clearSleeping_rests (pt : Ptable n) (p j : Fin n) (k : Option (Fin 64)) {w : Prop} :
    Rests (pt j) (clearSleeping pt p k j) w := by
  cases k with
  | some k => exact setSleeping_rests pt p j k none
  | none =>
    unfold clearSleeping
    split
    · rename_i h
      by_cases hj : j = ⟨p.val + 1, h⟩
      · subst hj
        exact ⟨by simp, by simp, Or.inl (by simp)⟩
      · simp only [Function.update_of_ne hj]
        exact .refl _
    · exact .refl _

namespace Procs

def Wakes (s : Procs n) (i : Fin n) (op : ProcOp) (j : Fin n) : Prop :=
  (op = .exit ∧
    ∃ k, (s.ptable i).sleepingThreads k ≠ none ∧
      (s.ptable j).chan = (s.ptable i).sleepingThreads k) ∨
  (op = .newExit ∧
    ((s.ptable j).chan = (s.ptable i).parent ∨ (s.ptable j).chan = some s.initproc ∧
      ∃ p, (s.ptable p).parent = some i ∧ (s.ptable p).state = .zombie)) ∨
  ∃ pid, op = .kill pid ∧ killSlot s.ptable pid = some j

theorem update_rests {pt : Ptable n} {p j : Fin n} {c : Proc n} (hj : j ≠ p) {w : Prop} :
    Rests (pt j) (Function.update pt p c j) w := by
  rw [Function.update_of_ne hj]
  exact .refl _

theorem waitEntry_other {s b : Procs n} {i j : Fin n} {op : ProcOp} (he : s.WaitEntry i op b)
    (hji : j ≠ i) : b.pc = s.pc ∧ b.ptable j = s.ptable j := by
  rcases he with ⟨_, _, _, rfl⟩ | ⟨_, _, _, rfl⟩
  · exact ⟨rfl, rfl⟩
  · exact ⟨rfl, by simp [awake, hji]⟩

theorem embryo_of_spawning {s : Procs n} (hs : s.groups.Spawning) {i np : Fin n}
    (h : (s.pc i).spawning = some np) : (s.ptable np).state = .embryo := by
  have he : (s.ptable np).state.phase = .embryo := (hs.slot i np h).2
  cases hst : (s.ptable np).state <;> simp_all [ProcState.phase]

theorem pstep_other {s t : Procs n} {i j : Fin n} {op : ProcOp} (hs : s.groups.Spawning)
    (h : PStep s i op t) (hji : j ≠ i) (hj : (s.ptable j).active) :
    t.pc j = s.pc j ∧ Rests (s.ptable j) (t.ptable j) (s.Wakes i op j) := by
  obtain ⟨⟨hunused, hzombie⟩, hembryo⟩ := hj
  have hnp : ∀ np, (s.pc i).spawning = some np → j ≠ np := by
    rintro np hpc rfl
    exact hembryo (embryo_of_spawning hs hpc)
  cases h with
  | resume | yield => exact ⟨rfl, setState_rests _ hji⟩
  | joinReturn hs hpc =>
    exact ⟨by simp [hji, awake], Rests.after (update_rests hji) (clearSleeping_rests _ _ _ _)⟩
  | @waitReap _ b z he hz =>
    obtain ⟨hpc, hpt⟩ := waitEntry_other he hji
    have hne : j ≠ z := by
      rintro rfl
      exact hzombie (hpt ▸ (zombieChild_some hz).2)
    refine ⟨by simp [hji, reap, hpc], ?_⟩
    rw [← hpt]
    exact update_rests hne
  | waitNone he hz hk =>
    obtain ⟨hpc, hpt⟩ := waitEntry_other he hji
    refine ⟨by simp [hji, hpc], ?_⟩
    rw [← hpt]
    exact .refl _
  | waitBlock he hz hk =>
    obtain ⟨hpc, hpt⟩ := waitEntry_other he hji
    refine ⟨by simp [hji, hpc, sleepSelf], ?_⟩
    rw [← hpt]
    exact update_rests hji
  | spawnFull | createCount | createLoad | execFail | execBuild | execAbort | joinNone | killNone =>
    exact ⟨by simp [hji], .refl _⟩
  | @spawn k np hs hpc ha =>
    have hne : j ≠ np := by
      rintro rfl
      exact hunused (allocSlot_some ha)
    exact ⟨by simp [hji, allocproc], update_rests hne⟩
  | @initFail k np hs hpc =>
    exact ⟨by simp [hji, discard], update_rests (hnp np (by simp [hpc, ProcPc.spawning]))⟩
  | @init k np kstack hs hpc =>
    have hne := hnp np (by simp [hpc, ProcPc.spawning])
    cases k <;> exact ⟨by simp [hji, prepare], update_rests hne⟩
  | @copyFail k np hs hpc =>
    exact ⟨by simp [hji, discardCopy], update_rests (hnp np (by simp [hpc, ProcPc.spawning]))⟩
  | @copy k np d hs hpc hd =>
    exact ⟨by simp [hji, install], update_rests (hnp np (by simp [hpc, ProcPc.spawning]))⟩
  | @forkPublish np hs hpc =>
    have hne := hnp np (by simp [hpc, ProcPc.spawning])
    exact ⟨by simp [hji, hne, publishFork], update_rests hne⟩
  | @forkClear np pid hs hpc =>
    refine ⟨by simp [hji], ?_⟩
    by_cases hne : j = np
    · subst hne
      exact ⟨by simp, by simp, Or.inl (by simp)⟩
    · exact update_rests hne
  | @createPublish np parent hs hpc =>
    have hne := hnp np (by simp [hpc, ProcPc.spawning])
    exact ⟨by simp [hji, hne, publishThread], update_rests hne⟩
  | execCommit hs hpc => exact ⟨by simp [hji, commit], update_rests hji⟩
  | exitLast hs hpc hi hc =>
    have hwake := wakeJoiners_rests s.ptable i j
    refine ⟨by simp [hji], (hwake.before (reapSiblings_rests ?_)).mono (fun h => .inl ⟨rfl, h⟩)⟩
    rcases hwake.state with h | ⟨_, h, _⟩
    · rwa [h]
    · simp [h]
  | exitThread hs hpc hi hc =>
    exact ⟨rfl, ((wakeJoiners_rests s.ptable i j).before (setState_rests _ hji)).mono
      (fun h => .inl ⟨rfl, h⟩)⟩
  | newExit hs hpc hi =>
    exact ⟨rfl, (newExitTable_rests hji).mono (fun h => Or.inr (Or.inl ⟨rfl, h⟩))⟩
  | @join θ p k hs hpc hj hk =>
    exact ⟨by simp [hji, sleepSelf],
      Rests.after (setSleeping_rests _ p j k (some i)) (update_rests hji)⟩
  | joinFull hs hpc hj hk => exact ⟨by simp [hji, sleepSelf], update_rests hji⟩
  | @kill pid p hs hpc hp =>
    refine ⟨by simp [hji], (killTable_rests s.ptable p j).mono ?_⟩
    rintro rfl
    exact Or.inr (Or.inr ⟨pid, rfl, hp⟩)

structure JoinEntry (s t : Procs n) (i : Fin n) (op : ProcOp) (p : Fin n) (k : Option (Fin 64))
    (threadId : Int) (birth : Nat) : Prop where
  op : op = .join threadId
  running : (s.ptable i).state = .running
  user : s.pc i = .user
  target : joinTarget s.ptable threadId = some p
  index : freeIndex (s.ptable p) = k
  birth : s.births p = birth
  births : t.births = s.births
  asleep : (t.ptable i).state = .sleeping
  chan : (t.ptable i).chan = some i
  threadId : (t.ptable p).threadId = threadId
  entry : ∀ κ, k = some κ → (t.ptable p).sleepingThreads κ = some i

theorem sleepSelf_threadId (s : Procs n) (i p : Fin n) :
    ((s.sleepSelf i).ptable p).threadId = (s.ptable p).threadId := by
  by_cases hp : p = i
  · subst hp; simp [sleepSelf]
  · simp [sleepSelf, hp]

theorem sleepSelf_sleepingThreads (s : Procs n) (i p : Fin n) :
    ((s.sleepSelf i).ptable p).sleepingThreads = (s.ptable p).sleepingThreads := by
  by_cases hp : p = i
  · subst hp; simp [sleepSelf]
  · simp [sleepSelf, hp]

theorem pstep_joins {s t : Procs n} {i p : Fin n} {op : ProcOp} {k : Option (Fin 64)}
    {threadId : Int} {birth : Nat} (h : PStep s i op t)
    (hpark : ∀ p k threadId birth, s.pc i = .joinSleep p k threadId birth →
      (s.ptable i).state ≠ .running)
    (ht : t.pc i = .joinSleep p k threadId birth) : JoinEntry s t i op p k threadId birth := by
  cases h with
  | resume hs hw hj => exact absurd ht (hj _ _ _ _)
  | yield hs => exact absurd hs (hpark _ _ _ _ ht)
  | exitThread hs hpc => simp [hpc] at ht
  | newExit hs hpc => simp [hpc] at ht
  | @copy k _ _ _ _ _ => cases k <;> simp [afterCopy] at ht
  | @join _ p κ hs hpc hj hk =>
    simp only [goto, Function.update_self, ProcPc.joinSleep.injEq] at ht
    obtain ⟨rfl, rfl, rfl, rfl⟩ := ht
    refine ⟨rfl, hs, hpc, hj, hk, rfl, rfl, by simp [sleepSelf], by simp [sleepSelf], ?_, ?_⟩
    · exact (sleepSelf_threadId _ i p).trans
        ((setSleeping_rests s.ptable p p κ (some i) (w := False)).threadId.trans
          (joinTarget_some hj).1)
    · rintro _ ⟨⟩
      refine (congrFun (sleepSelf_sleepingThreads _ i p) κ).trans ?_
      simp [setSleeping]
  | @joinFull _ p hs hpc hj hk =>
    simp only [goto, Function.update_self, ProcPc.joinSleep.injEq] at ht
    obtain ⟨rfl, rfl, rfl, rfl⟩ := ht
    refine ⟨rfl, hs, hpc, hj, hk, rfl, rfl, by simp [sleepSelf], by simp [sleepSelf], ?_, by simp⟩
    exact (sleepSelf_threadId _ i p).trans (joinTarget_some hj).1
  | _ => simp at ht

inductive Entries (s t : Procs n) (i : Fin n) (op : ProcOp) (x : Fin n) : Prop
  | kept (h : (t.ptable x).sleepingThreads = (s.ptable x).sleepingThreads)
  | created (hpc : s.pc i = .spawnInit .thread x) (h : (t.ptable x).sleepingThreads = fun _ => none)
  | forked {pid : Int} (hop : op = .forkClear) (hpc : s.pc i = .forkClear x pid)
      (h : (t.ptable x).sleepingThreads = fun _ => none)
  | returned {k : Fin 64} {threadId : Int} {birth : Nat} (hop : op = .schedule)
      (hpc : s.pc i = .joinSleep x (some k) threadId birth)
      (h : (t.ptable x).sleepingThreads = Function.update (s.ptable x).sleepingThreads k none)
  | joined {k : Fin 64} {threadId : Int} {birth : Nat} (hk : (s.ptable x).sleepingThreads k = none)
      (hpc : t.pc i = .joinSleep x (some k) threadId birth)
      (h : (t.ptable x).sleepingThreads = Function.update (s.ptable x).sleepingThreads k (some i))

theorem update_sleepingThreads {pt pt' : Ptable n} {p : Fin n} {c : Proc n}
    (hpt : pt' = Function.update pt p c) (hc : c.sleepingThreads = (pt p).sleepingThreads)
    (x : Fin n) : (pt' x).sleepingThreads = (pt x).sleepingThreads := by
  by_cases hx : x = p
  · subst hx; simpa [hpt] using hc
  · simp [hpt, hx]

theorem Entries.update {s t : Procs n} {i p x : Fin n} {op : ProcOp} {c : Proc n}
    (ht : t.ptable = Function.update s.ptable p c)
    (hc : c.sleepingThreads = (s.ptable p).sleepingThreads) : Entries s t i op x :=
  .kept (update_sleepingThreads ht hc x)

theorem wakeup1_sleepingThreads (pt : Ptable n) (c : Option (Fin n)) (x : Fin n) :
    (wakeup1 pt c x).sleepingThreads = (pt x).sleepingThreads := by
  unfold wakeup1
  split <;> rfl

theorem wakeJoiners_sleepingThreads (pt : Ptable n) (i x : Fin n) :
    (wakeJoiners pt i x).sleepingThreads = (pt x).sleepingThreads := by
  unfold wakeJoiners
  split <;> rfl

theorem reapSiblings_sleepingThreads (pt : Ptable n) (i x : Fin n) :
    (reapSiblings pt i x).sleepingThreads = (pt x).sleepingThreads := by
  unfold reapSiblings
  split <;> rfl

theorem setState_sleepingThreads (pt : Ptable n) (i x : Fin n) (st : ProcState) :
    (setState pt i st x).sleepingThreads = (pt x).sleepingThreads :=
  update_sleepingThreads (by rfl) (by rfl) x

theorem abandonChildren_sleepingThreads (pt : Ptable n) (i initproc x : Fin n) :
    (abandonChildren pt i initproc x).sleepingThreads = (pt x).sleepingThreads := by
  unfold abandonChildren
  dsimp only
  split
  · rw [wakeup1_sleepingThreads]
    split <;> rfl
  · dsimp only
    split <;> rfl

theorem newExitTable_sleepingThreads (pt : Ptable n) (i initproc x : Fin n) :
    (newExitTable pt i initproc x).sleepingThreads = (pt x).sleepingThreads := by
  rw [newExitTable, setState_sleepingThreads, abandonChildren_sleepingThreads,
    wakeup1_sleepingThreads]

theorem waitEntry_sleepingThreads {s b : Procs n} {i : Fin n} {op : ProcOp}
    (he : s.WaitEntry i op b) (x : Fin n) :
    (b.ptable x).sleepingThreads = (s.ptable x).sleepingThreads := by
  rcases he with ⟨_, _, _, rfl⟩ | ⟨_, _, _, rfl⟩
  · rfl
  · exact update_sleepingThreads (by rfl) (by rfl) x

theorem pstep_entries {s t : Procs n} {i : Fin n} {op : ProcOp} (h : PStep s i op t) (x : Fin n) :
    Entries s t i op x := by
  cases h with
  | resume | yield | execCommit | kill | spawn | initFail | copyFail | copy | forkPublish
  | createPublish => exact .update rfl rfl
  | spawnFull | createCount | createLoad | execFail | execBuild | execAbort | joinNone | killNone =>
    exact .kept rfl
  | @joinReturn p k threadId birth hs hpc =>
    have hawake : ((s.awake i).ptable x).sleepingThreads = (s.ptable x).sleepingThreads :=
      update_sleepingThreads (by rfl) (by rfl) x
    cases k with
    | none =>
      refine .kept ?_
      rw [← hawake]
      simp only [setTable, returns, clearSleeping]
      split
      · exact update_sleepingThreads (by rfl) (by rfl) x
      · rfl
    | some k =>
      by_cases hx : x = p
      · subst hx
        refine .returned rfl hpc ?_
        rw [← hawake]
        simp [clearSleeping, setSleeping]
      · refine .kept ?_
        rw [← hawake]
        simp [clearSleeping, setSleeping, hx]
  | waitReap he hz =>
    refine .kept ?_
    rw [← waitEntry_sleepingThreads he]
    exact update_sleepingThreads (by rfl) (by rfl) x
  | waitNone he hz hk => exact .kept (waitEntry_sleepingThreads he x)
  | waitBlock he hz hk =>
    refine .kept ?_
    rw [← waitEntry_sleepingThreads he]
    exact sleepSelf_sleepingThreads _ i x
  | @init k np kstack hs hpc =>
    cases k with
    | fork => exact .update rfl rfl
    | thread =>
      by_cases hx : x = np
      · subst hx
        exact .created hpc (by simp [prepare])
      · exact .kept (by simp [prepare, hx])
  | @forkClear np pid hs hpc =>
    by_cases hx : x = np
    · subst hx
      exact .forked rfl hpc (by simp)
    · exact .kept (by simp [hx])
  | exitLast hs hpc hi hc =>
    refine .kept ?_
    simp [reapSiblings_sleepingThreads, wakeJoiners_sleepingThreads]
  | exitThread hs hpc hi hc =>
    refine .kept ?_
    simp only [setTable, setState_sleepingThreads, wakeJoiners_sleepingThreads]
  | newExit hs hpc hi => exact .kept (newExitTable_sleepingThreads s.ptable i s.initproc x)
  | @join threadId p k hs hpc hj hk =>
    have hself := sleepSelf_sleepingThreads (s.setTable (setSleeping s.ptable p k (some i))) i x
    by_cases hx : x = p
    · subst hx
      refine .joined (freeIndex_some hk) (Function.update_self ..) (hself.trans ?_)
      simp [setSleeping]
    · refine .kept (hself.trans ?_)
      simp [setSleeping, hx]
  | joinFull hs hpc hj hk => exact .kept (sleepSelf_sleepingThreads s i x)

structure Sleepers (s : Procs n) : Prop where
  parked : ∀ j p k threadId birth, s.pc j = .joinSleep p k threadId birth →
    (s.ptable j).state = .sleeping ∧ (s.ptable j).chan = some j ∨ (s.ptable j).state = .runnable
  entry : ∀ x k j, (s.ptable x).sleepingThreads k = some j →
    ∃ threadId birth, s.pc j = .joinSleep x (some k) threadId birth

theorem Sleepers.active {s : Procs n} (h : s.Sleepers) {j p : Fin n} {k : Option (Fin 64)}
    {threadId : Int} {birth : Nat} (hj : s.pc j = .joinSleep p k threadId birth) :
    (s.ptable j).active := by
  rcases h.parked j p k threadId birth hj with ⟨hs, _⟩ | hs <;> simp [Proc.active, Proc.live, hs]

theorem Sleepers.not_running {s : Procs n} (h : s.Sleepers) {j p : Fin n} {k : Option (Fin 64)}
    {threadId : Int} {birth : Nat} (hj : s.pc j = .joinSleep p k threadId birth) :
    (s.ptable j).state ≠ .running := by
  rcases h.parked j p k threadId birth hj with ⟨hs, _⟩ | hs <;> simp [hs]

theorem gstep_pc_other {g g' : Groups n} {i j : Fin n} {a : GroupOp n} (h : Groups.GStep g i a g')
    (hji : j ≠ i) : g'.pc j = g.pc j ∨ g'.pc j = .user := by
  cases h with
  | @publishFork np hi hpc =>
    by_cases hj : j = np
    · subst hj; simp [hji]
    · simp [hji, hj]
  | @publishThread np parent hi hpc =>
    by_cases hj : j = np
    · subst hj; simp [hji]
    · simp [hji, hj]
  | _ => simp [hji]

theorem pstep_joining_other {s t : Procs n} {i j p : Fin n} {op : ProcOp} {k : Option (Fin 64)}
    {threadId : Int} {birth : Nat} (h : PStep s i op t) (hji : j ≠ i)
    (hj : t.pc j = .joinSleep p k threadId birth) : s.pc j = .joinSleep p k threadId birth := by
  obtain ⟨a, hk, _⟩ := pstep_gstep h
  rcases gstep_pc_other hk hji with hpc | hpc
  · exact (Eq.symm hpc).trans hj
  · exact absurd (Eq.trans (Eq.symm hj) hpc) (by simp)

theorem pstep_parked {s t : Procs n} {i : Fin n} {op : ProcOp} (h : PStep s i op t)
    {p : Fin n} {k : Option (Fin 64)} {threadId : Int} {birth : Nat}
    (hi : s.pc i = .joinSleep p k threadId birth) (hr : (s.ptable i).state ≠ .running) :
    op = .schedule ∧ t.pc i = .user ∧
      ∀ κ, k = some κ → (t.ptable p).sleepingThreads κ = none := by
  cases h with
  | joinReturn hs hpc =>
    rw [hi] at hpc
    cases hpc
    refine ⟨rfl, by simp, ?_⟩
    rintro κ rfl
    simp [clearSleeping, setSleeping]
  | resume hs hw hj => exact absurd hi (hj _ _ _ _)
  | waitReap he | waitNone he | waitBlock he =>
    rcases he with ⟨_, hs, _⟩ | ⟨_, _, hpc, _⟩
    · exact absurd hs hr
    · simp [hi] at hpc
  | _ => exact absurd (by assumption) hr

theorem sleepers_step {s t : Procs n} {i : Fin n} {op : ProcOp} (h : s.Sleepers)
    (hs : s.groups.Spawning) (hp : PStep s i op t) : t.Sleepers where
  parked j p k threadId birth hj := by
    by_cases hji : j = i
    · subst hji
      have he := pstep_joins hp (fun _ _ _ _ => h.not_running) hj
      exact Or.inl ⟨he.asleep, he.chan⟩
    · have hj' := pstep_joining_other hp hji hj
      have hrest := (pstep_other hs hp hji (h.active hj')).2
      rcases hrest.state with hst | ⟨_, hst, _⟩
      · rw [hst, hrest.chan]
        exact h.parked j p k threadId birth hj'
      · exact Or.inr hst
  entry x k j hx := by
    have hkeep : (s.ptable x).sleepingThreads k = some j →
        ∃ threadId birth, t.pc j = .joinSleep x (some k) threadId birth := by
      intro hx'
      obtain ⟨threadId, birth, hj⟩ := h.entry x k j hx'
      by_cases hji : j = i
      · subst hji
        simp [(pstep_parked hp hj (h.not_running hj)).2.2 k rfl] at hx
      · exact ⟨threadId, birth, (pstep_other hs hp hji (h.active hj)).1.trans hj⟩
    cases pstep_entries hp x with
    | kept he => exact hkeep (he ▸ hx)
    | created hpc he => simp [he] at hx
    | forked hop hpc he => simp [he] at hx
    | @returned k' threadId birth hop hpc he =>
      rw [he] at hx
      by_cases hk : k = k'
      · subst hk; simp at hx
      · exact hkeep (by simpa [hk] using hx)
    | @joined k' threadId birth hk hpc he =>
      rw [he] at hx
      by_cases hk : k = k'
      · subst hk
        rw [Function.update_self, Option.some.injEq] at hx
        exact ⟨threadId, birth, hx ▸ hpc⟩
      · exact hkeep (by simpa [hk] using hx)

theorem boot_sleepers {s : Procs n} (h : s.Boot) : s.Sleepers where
  parked j p k threadId birth hj := by simp [h.pc] at hj
  entry x k j hx := by
    have hnone : (s.ptable x).sleepingThreads = fun _ => none := by
      by_cases hi : x = s.initproc
      · rw [hi, h.init]
      · rw [h.others x hi]
    simp [hnone] at hx

def Ended (s : Procs n) (p : Fin n) (birth : Nat) : Prop :=
  s.births p = birth → (s.ptable p).state = .zombie ∨ (s.ptable p).state = .unused

theorem pstep_births {s t : Procs n} {i : Fin n} {op : ProcOp} (h : PStep s i op t)
    (hop : ∀ k, op ≠ .spawn k) : t.births = s.births := by
  cases h with
  | spawn | spawnFull => exact absurd rfl (hop _)
  | waitReap he | waitNone he | waitBlock he =>
    rcases he with ⟨_, _, _, rfl⟩ | ⟨_, _, _, rfl⟩ <;> rfl
  | @init k _ _ _ _ => cases k <;> rfl
  | _ => rfl

theorem gstep_ended {g g' : Groups n} {i p : Fin n} {a : GroupOp n} (hs : g.Spawning)
    (h : Groups.GStep g i a g') (ha : a ≠ .spawn)
    (hp : (g.core p).phase = .zombie ∨ (g.core p).phase = .free) :
    (g'.core p).phase = .zombie ∨ (g'.core p).phase = .free := by
  cases Groups.slot_step h p with
  | kept hphase => rwa [hphase]
  | spawned => exact absurd rfl ha
  | discarded _ hnew | reaped _ _ hnew => exact Or.inr hnew
  | exited _ _ _ hnew => exact Or.inl hnew
  | forked hpc | created hpc => simp [(hs.slot i p (by simp [hpc, ProcPc.spawning])).2] at hp

theorem phase_ended {s : Procs n} {p : Fin n} :
    ((s.groups.core p).phase = .zombie ∨ (s.groups.core p).phase = .free) ↔
      ((s.ptable p).state = .zombie ∨ (s.ptable p).state = .unused) := by
  simp only [groups, Proc.core]
  cases (s.ptable p).state <;> simp [ProcState.phase]

theorem pstep_spawn {s t : Procs n} {i : Fin n} {k : Spawn} (h : PStep s i (.spawn k) t) :
    t = s.returns i (-1) ∨ ∃ np, t = (s.allocproc np).goto i (.spawnInit k np) := by
  cases h with
  | spawnFull hr hpc ha => exact Or.inl rfl
  | spawn hr hpc ha => exact Or.inr ⟨_, rfl⟩
  | waitReap he | waitNone he | waitBlock he => rcases he with ⟨hop, _⟩ | ⟨hop, _⟩ <;> cases hop

theorem pstep_births_le {s t : Procs n} {i : Fin n} {op : ProcOp} (h : PStep s i op t) (p : Fin n) :
    s.births p ≤ t.births p := by
  by_cases hop : ∃ k, op = .spawn k
  · obtain ⟨k, rfl⟩ := hop
    rcases pstep_spawn h with rfl | ⟨np, rfl⟩
    · exact le_rfl
    · by_cases hpn : p = np
      · subst hpn; simp [allocproc]
      · simp [allocproc, hpn]
  · rw [pstep_births h (fun k hk => hop ⟨k, hk⟩)]

theorem pstep_ended {s t : Procs n} {i p : Fin n} {op : ProcOp} {birth : Nat}
    (hs : s.groups.Spawning) (h : PStep s i op t) (hle : birth ≤ s.births p)
    (hp : s.Ended p birth) : t.Ended p birth := by
  by_cases hop : ∃ k, op = .spawn k
  · obtain ⟨k, rfl⟩ := hop
    rcases pstep_spawn h with rfl | ⟨np, rfl⟩
    · exact hp
    · by_cases hpn : p = np
      · subst hpn
        simp only [allocproc, goto, setSlot, Ended, Function.update_self]
        omega
      · simpa [allocproc, Ended, hpn] using hp
  · have hb := pstep_births h (fun k hk => hop ⟨k, hk⟩)
    intro hbirth
    obtain ⟨a, hk, ha⟩ := pstep_gstep h
    have hspawn : a ≠ .spawn := by
      rintro rfl
      exact hop ha
    exact phase_ended.mp (gstep_ended hs hk hspawn (phase_ended.mpr (hp (hb ▸ hbirth))))

end Procs
end Xv6
