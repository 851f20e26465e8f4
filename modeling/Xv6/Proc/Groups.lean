import Xv6.Proc.System

namespace Xv6

inductive Phase where
  | free
  | embryo
  | active
  | zombie
  deriving DecidableEq

def ProcState.phase : ProcState → Phase
  | .unused => .free
  | .embryo => .embryo
  | .zombie => .zombie
  | _ => .active

structure Core (n : Nat) where
  phase : Phase
  pid : Int
  pgdir : Nat
  threadId : Int
  parent : Option (Fin n)
  forker : Int

structure Groups (n : Nat) where
  core : Fin n → Core n
  pc : Fin n → ProcPc n
  holder : Nat → Option (Holder n)
  nextpid : Int
  nextThread : Int
  initproc : Fin n

def ProcPc.neutral {n : Nat} : ProcPc n → Bool
  | .user | .forkClear _ _ | .waitSleep | .joinSleep _ _ _ _ => true
  | _ => false

inductive GroupOp (n : Nat) where
  | idle
  | reap (z : Fin n)
  | spawn
  | discard
  | prepare
  | copy
  | publishFork
  | count
  | load
  | publishThread
  | build
  | abort
  | commit
  | exitLast
  | exitThread
  | newExit
  deriving DecidableEq

variable {n : Nat}

def Core.freed (c : Core n) : Core n := { c with phase := .free, pid := 0, parent := none }

def Spawn.threadId (threadId : Int) : Spawn → Int
  | .fork => -1
  | .thread => threadId

def Core.adopted (proc initproc : Fin n) (c : Core n) : Core n :=
  if c.parent = some proc then { c with parent := some initproc } else c

namespace Groups

@[simp] def setCore (g : Groups n) (p : Fin n) (c : Core n) : Groups n :=
  { g with core := Function.update g.core p c }

@[simp] def setPc (g : Groups n) (i : Fin n) (x : ProcPc n) : Groups n :=
  { g with pc := Function.update g.pc i x }

@[simp] def setHolder (g : Groups n) (d : Nat) (h : Option (Holder n)) : Groups n :=
  { g with holder := Function.update g.holder d h }

def Sibling (g : Groups n) (i q : Fin n) : Prop :=
  q ≠ i ∧ (g.core q).pid = (g.core i).pid ∧
    ((g.core q).phase = .active ∨ (g.core q).phase = .embryo)

def sweep (g : Groups n) (i p : Fin n) : Core n :=
  if (g.core p).phase = .zombie ∧ (g.core p).pid = (g.core i).pid ∧
      (g.core i).threadId ≠ (g.core p).threadId then (g.core p).freed
  else g.core p

inductive GStep (g : Groups n) (i : Fin n) : GroupOp n → Groups n → Prop
  | idle {x : ProcPc n} (hi : (g.core i).phase = .active)
      (hx : x = g.pc i ∨ (g.pc i).neutral = true ∧ x.neutral = true) :
      GStep g i .idle (g.setPc i x)
  | reap {z : Fin n} (hi : (g.core i).phase = .active) (hpc : (g.pc i).neutral = true)
      (hz : (g.core z).phase = .zombie) (hp : (g.core z).parent = some i) :
      GStep g i (.reap z)
        (((g.setHolder (g.core z).pgdir none).setCore z (g.core z).freed).setPc i .user)
  | spawn {k : Spawn} {np : Fin n} (hi : (g.core i).phase = .active) (hpc : g.pc i = .user)
      (hnp : (g.core np).phase = .free) :
      GStep g i .spawn
        ({ g.setCore np { g.core np with phase := .embryo, pid := g.nextpid } with
          nextpid := int32 (g.nextpid + 1) }.setPc i (.spawnInit k np))
  | discard {k : Spawn} {np : Fin n} {d : Nat} (hi : (g.core i).phase = .active)
      (hpc : g.pc i = .spawnInit k np ∨ g.pc i = .spawnCopy k np) :
      GStep g i .discard
        ((g.setCore np { g.core np with phase := .free, pgdir := d }).setPc i .user)
  | prepare {k : Spawn} {np : Fin n} (hi : (g.core i).phase = .active)
      (hpc : g.pc i = .spawnInit k np) :
      GStep g i .prepare
        ((g.setCore np { g.core np with threadId := k.threadId (g.core np).threadId }).setPc i
          (.spawnCopy k np))
  | copy {k : Spawn} {np : Fin n} {d : Nat} (hi : (g.core i).phase = .active)
      (hpc : g.pc i = .spawnCopy k np) (hd : g.holder d = none) :
      GStep g i .copy
        (((g.setHolder d (some (k.holder (g.core np).pid))).setCore np
          { g.core np with pgdir := d }).setPc i (Procs.afterCopy np k))
  | publishFork {np : Fin n} (hi : (g.core i).phase = .active) (hpc : g.pc i = .forkPublish np) :
      GStep g i .publishFork
        (((g.setCore np { g.core np with
          phase := .active
          parent := some i
          forker := (g.core i).pid }).setPc np .user).setPc i (.forkClear np (g.core np).pid))
  | count {np : Fin n} (hi : (g.core i).phase = .active) (hpc : g.pc i = .createCount np) :
      GStep g i .count
        ({ g with nextThread := int32 (g.nextThread + 1) }.setPc i (.createLoad np))
  | load {np : Fin n} (hi : (g.core i).phase = .active) (hpc : g.pc i = .createLoad np) :
      GStep g i .load (g.setPc i (.createPublish np (g.core i).parent))
  | publishThread {np : Fin n} {parent : Option (Fin n)} (hi : (g.core i).phase = .active)
      (hpc : g.pc i = .createPublish np parent) :
      GStep g i .publishThread
        (((g.setCore np { g.core i with
          threadId := g.nextThread
          parent := parent
          phase := .active }).setPc np .user).setPc i .user)
  | build {d sz : Nat} (hi : (g.core i).phase = .active) (hpc : g.pc i = .user)
      (hd : g.holder d = none) :
      GStep g i .build ((g.setHolder d (some (.building i))).setPc i (.execCommit d sz))
  | abort {d sz : Nat} (hi : (g.core i).phase = .active) (hpc : g.pc i = .execCommit d sz) :
      GStep g i .abort ((g.setHolder d none).setPc i .user)
  | commit {d sz : Nat} (hi : (g.core i).phase = .active) (hpc : g.pc i = .execCommit d sz) :
      GStep g i .commit
        ((((g.setHolder (g.core i).pgdir none).setHolder d
          (some (.group (g.core i).pid))).setCore i { g.core i with pgdir := d }).setPc i .user)
  | exitLast (hi : (g.core i).phase = .active) (hpc : g.pc i = .user) (hinit : i ≠ g.initproc)
      (halone : ∀ q, ¬ g.Sibling i q) :
      GStep g i .exitLast ({ g with core := g.sweep i }.setPc i .newExit)
  | exitThread {q : Fin n} (hi : (g.core i).phase = .active) (hpc : g.pc i = .user)
      (hinit : i ≠ g.initproc) (hq : g.Sibling i q) :
      GStep g i .exitThread (g.setCore i { g.core i with phase := .zombie })
  | newExit (hi : (g.core i).phase = .active) (hpc : g.pc i = .newExit) (hinit : i ≠ g.initproc) :
      GStep g i .newExit
        ({ g with core := fun p => (g.core p).adopted i g.initproc }.setCore i
          { (g.core i).adopted i g.initproc with phase := .zombie })

end Groups

def Proc.core (p : Proc n) (forker : Int) : Core n :=
  ⟨p.state.phase, p.pid, p.pgdir, p.threadId, p.parent, forker⟩

def Procs.groups (s : Procs n) : Groups n :=
  ⟨fun p => (s.ptable p).core (s.forker p), s.pc, s.holder, s.nextpid, s.nextThread, s.initproc⟩

def Procs.Reaps (s : Procs n) (i : Fin n) (op : ProcOp) (z : Fin n) : Prop :=
  ∃ b, s.WaitEntry i op b ∧ zombieChild b.ptable i = some z

def Procs.Does (s : Procs n) (i : Fin n) (op : ProcOp) : GroupOp n → Prop
  | .reap z => s.Reaps i op z
  | .spawn => ∃ k, op = .spawn k
  | .count => op = .createCount
  | .commit => op = .execCommit
  | .exitLast | .exitThread => op = .exit
  | .newExit => op = .newExit
  | _ => True

theorem Proc.live_iff (p : Proc n) :
    p.live ↔ p.state.phase = .active ∨ p.state.phase = .embryo := by
  unfold live
  cases p.state <;> simp [ProcState.phase]

theorem Proc.core_state (p : Proc n) {st : ProcState} (h : st.phase = p.state.phase) (f : Int) :
    { p with state := st }.core f = p.core f := by
  simp [core, h]

theorem Proc.core_reaped (p : Proc n) (f : Int) : p.reaped.core f = (p.core f).freed := rfl

def cores (pt : Ptable n) (forker : Fin n → Int) : Fin n → Core n :=
  fun p => (pt p).core (forker p)

theorem cores_update (pt : Ptable n) (f : Fin n → Int) (i : Fin n) (q : Proc n) :
    cores (Function.update pt i q) f = Function.update (cores pt f) i (q.core (f i)) := by
  funext p
  by_cases hp : p = i
  · subst hp; simp [cores]
  · simp [cores, hp]

theorem cores_update_both (pt : Ptable n) (f : Fin n → Int) (i : Fin n) (q : Proc n) (v : Int) :
    cores (Function.update pt i q) (Function.update f i v) =
      Function.update (cores pt f) i (q.core v) := by
  funext p
  by_cases hp : p = i
  · subst hp; simp [cores]
  · simp [cores, hp]

theorem cores_update_same (pt : Ptable n) (f : Fin n → Int) (i : Fin n) {q : Proc n}
    (h : q.core (f i) = (pt i).core (f i)) : cores (Function.update pt i q) f = cores pt f := by
  rw [cores_update, h]
  exact Function.update_eq_self i (cores pt f)

theorem cores_setState (pt : Ptable n) (f : Fin n → Int) (i : Fin n) {st : ProcState}
    (h : st.phase = (pt i).state.phase) : cores (setState pt i st) f = cores pt f :=
  cores_update_same pt f i ((pt i).core_state h (f i))

theorem cores_wakeup1 (pt : Ptable n) (f : Fin n → Int) (chan : Option (Fin n)) :
    cores (wakeup1 pt chan) f = cores pt f := by
  funext p
  simp only [cores, wakeup1]
  split
  · rename_i h
    exact (pt p).core_state (by rw [h.1]; rfl) (f p)
  · rfl

theorem cores_wakeJoiners (pt : Ptable n) (f : Fin n → Int) (i : Fin n) :
    cores (wakeJoiners pt i) f = cores pt f := by
  funext p
  simp only [cores, wakeJoiners]
  split
  · rename_i h
    exact (pt p).core_state (by rw [h.1]; rfl) (f p)
  · rfl

theorem cores_exitThread (pt : Ptable n) (f : Fin n → Int) (i : Fin n) :
    cores (setState (wakeJoiners pt i) i .zombie) f =
      Function.update (cores pt f) i { cores pt f i with phase := .zombie } := by
  have hi : (wakeJoiners pt i i).core (f i) = cores pt f i :=
    congrFun (cores_wakeJoiners pt f i) i
  rw [setState, cores_update, cores_wakeJoiners, ← hi]
  rfl

theorem cores_setSleeping (pt : Ptable n) (f : Fin n → Int) (p : Fin n) (k : Fin 64)
    (v : Option (Fin n)) : cores (setSleeping pt p k v) f = cores pt f :=
  cores_update_same pt f p rfl

theorem cores_clearSleeping (pt : Ptable n) (f : Fin n → Int) (p : Fin n) (k : Option (Fin 64)) :
    cores (clearSleeping pt p k) f = cores pt f := by
  cases k with
  | some k => exact cores_setSleeping pt f p k none
  | none =>
    simp only [clearSleeping]
    split
    · exact cores_update_same pt f _ rfl
    · rfl

theorem cores_killTable (pt : Ptable n) (f : Fin n → Int) (p : Fin n) :
    cores (killTable pt p) f = cores pt f := by
  apply cores_update_same
  simp only [Proc.core]
  split
  · rename_i h
    rw [h]; rfl
  · rfl

theorem cores_abandonChildren (pt : Ptable n) (f : Fin n → Int) (i initproc : Fin n) :
    cores (abandonChildren pt i initproc) f = fun p => (cores pt f p).adopted i initproc := by
  have h : cores (fun p => if (pt p).parent = some i then
      { pt p with parent := some initproc } else pt p) f =
      fun p => (cores pt f p).adopted i initproc := by
    funext p
    simp only [cores, Core.adopted, Proc.core]
    by_cases h : (pt p).parent = some i <;> simp [h]
  simp only [abandonChildren]
  split
  · rw [cores_wakeup1, h]
  · exact h

theorem cores_newExitTable (pt : Ptable n) (f : Fin n → Int) (i initproc : Fin n) :
    cores (newExitTable pt i initproc) f = Function.update
      (fun p => (cores pt f p).adopted i initproc) i
      { (cores pt f i).adopted i initproc with phase := .zombie } := by
  have h := cores_abandonChildren (wakeup1 pt (pt i).parent) f i initproc
  rw [cores_wakeup1] at h
  rw [newExitTable, setState, cores_update, h]
  have hi : (cores pt f i).adopted i initproc =
      (abandonChildren (wakeup1 pt (pt i).parent) i initproc i).core (f i) := (congrFun h i).symm
  rw [hi]
  rfl

theorem cores_reapSiblings (s : Procs n) (pt : Ptable n) (i : Fin n)
    (h : cores pt s.forker = cores s.ptable s.forker) :
    cores (reapSiblings pt i) s.forker = s.groups.sweep i := by
  have hc : ∀ p, (pt p).core (s.forker p) = s.groups.core p := congrFun h
  funext p
  simp only [cores, reapSiblings, Groups.sweep, ← hc, Proc.core]
  have hz : (pt p).state.phase = .zombie ↔ (pt p).state = .zombie := by
    cases (pt p).state <;> simp [ProcState.phase]
  simp only [hz]
  split <;> rfl

namespace Procs

theorem groups_eq {s : Procs n} {g : Groups n} (hcore : cores s.ptable s.forker = g.core)
    (hpc : s.pc = g.pc) (hholder : s.holder = g.holder) (hpid : s.nextpid = g.nextpid)
    (hthread : s.nextThread = g.nextThread) (hinit : s.initproc = g.initproc) : s.groups = g := by
  cases g
  subst hcore hpc hholder hpid hthread hinit
  rfl

theorem gstep_of_eq {s t : Procs n} {i : Fin n} {a : GroupOp n} {g : Groups n}
    (h : Groups.GStep s.groups i a g) (he : t.groups = g) : Groups.GStep s.groups i a t.groups :=
  he ▸ h

theorem phase_running {s : Procs n} {i : Fin n} (hs : (s.ptable i).state = .running) :
    (s.groups.core i).phase = .active := by
  simp [groups, Proc.core, hs, ProcState.phase]

theorem phase_runnable {s : Procs n} {i : Fin n} (hs : (s.ptable i).state = .runnable) :
    (s.groups.core i).phase = .active := by
  simp [groups, Proc.core, hs, ProcState.phase]

theorem cores_sleepSelf {s : Procs n} {i : Fin n} (h : (s.ptable i).state.phase = .active) :
    cores (s.sleepSelf i).ptable (s.sleepSelf i).forker = cores s.ptable s.forker :=
  cores_update_same s.ptable s.forker i (by simp only [Proc.core, h]; rfl)

theorem gstep_idle {s t : Procs n} {i : Fin n} {x : ProcPc n}
    (hi : (s.groups.core i).phase = .active)
    (hx : x = s.pc i ∨ (s.pc i).neutral = true ∧ x.neutral = true)
    (hcore : cores t.ptable t.forker = cores s.ptable s.forker)
    (hpc : t.pc = Function.update s.pc i x) (hholder : t.holder = s.holder)
    (hpid : t.nextpid = s.nextpid) (hthread : t.nextThread = s.nextThread)
    (hinit : t.initproc = s.initproc) : Groups.GStep s.groups i .idle t.groups :=
  gstep_of_eq (.idle hi hx) (groups_eq hcore hpc hholder hpid hthread hinit)

theorem waitEntry_active {s b : Procs n} {i : Fin n} {op : ProcOp} (h : s.WaitEntry i op b) :
    (s.groups.core i).phase = .active ∧ (s.pc i).neutral = true ∧
      cores b.ptable b.forker = cores s.ptable s.forker ∧ b = s.setTable b.ptable := by
  rcases h with ⟨_, hs, hpc, rfl⟩ | ⟨_, hs, hpc, rfl⟩
  · exact ⟨phase_running hs, by simp [hpc, ProcPc.neutral], rfl, rfl⟩
  · refine ⟨phase_runnable hs, by simp [hpc, ProcPc.neutral], ?_, rfl⟩
    exact cores_update_same s.ptable s.forker i (by simp [Proc.core, hs, ProcState.phase])

theorem sibling_iff {s : Procs n} {i q : Fin n} :
    s.groups.Sibling i q ↔ q ≠ i ∧ (s.ptable q).pid = (s.ptable i).pid ∧ (s.ptable q).live := by
  simp only [Groups.Sibling, groups, Proc.core, Proc.live_iff]

theorem threadsCounter_sibling {s : Procs n} {i : Fin n} (hs : (s.ptable i).state = .running) :
    threadsCounter (wakeJoiners s.ptable i) i = 1 ↔ ∀ q, ¬ s.groups.Sibling i q := by
  have hc : ∀ p, (wakeJoiners s.ptable i p).core (s.forker p) = (s.ptable p).core (s.forker p) :=
    congrFun (cores_wakeJoiners s.ptable s.forker i)
  have hpid : ∀ p, (wakeJoiners s.ptable i p).pid = (s.ptable p).pid :=
    fun p => congrArg Core.pid (hc p)
  have hphase : ∀ p, (wakeJoiners s.ptable i p).state.phase = (s.ptable p).state.phase :=
    fun p => congrArg Core.phase (hc p)
  have hlive : ∀ p, (wakeJoiners s.ptable i p).live ↔ (s.ptable p).live := by
    intro p
    rw [Proc.live_iff, Proc.live_iff, hphase]
  rw [threadsCounter_eq_one ((hlive i).mpr (by simp [Proc.live, hs]))]
  simp only [hpid, hlive, sibling_iff, not_and]

theorem gstep_reap {s b : Procs n} {i z : Fin n} {op : ProcOp} (he : s.WaitEntry i op b)
    (hz : zombieChild b.ptable i = some z) (r : Int) :
    Groups.GStep s.groups i (.reap z) ((b.reap z).returns i r).groups := by
  obtain ⟨hi, hpc, hcore, hb⟩ := waitEntry_active he
  have hf : b.forker = s.forker := by rw [hb]; rfl
  have hcz : (b.ptable z).core (s.forker z) = s.groups.core z := by
    rw [hf] at hcore
    exact congrFun hcore z
  obtain ⟨hpar, hzom⟩ := zombieChild_some hz
  refine gstep_of_eq (.reap hi hpc ?_ ?_) (groups_eq ?_ ?_ ?_ ?_ ?_ ?_)
  · rw [← hcz]
    simp [Proc.core, hzom, ProcState.phase]
  · rw [← hcz]
    exact hpar
  · simp only [reap, returns, setSlot, Procs.setHolder, cores_update, hcore]
    rw [hf, Proc.core_reaped, hcz]
    rfl
  · rw [hb]; rfl
  · rw [← hcz, hb]; rfl
  · rw [hb]; rfl
  · rw [hb]; rfl
  · rw [hb]; rfl

def scanOp (pt : Ptable n) (i : Fin n) : GroupOp n :=
  match zombieChild pt i with
  | some z => .reap z
  | none => .idle

def groupOp (s : Procs n) (i : Fin n) : ProcOp → GroupOp n
  | .schedule => if s.pc i = .waitSleep then scanOp (s.awake i).ptable i else .idle
  | .wait => scanOp s.ptable i
  | .spawn _ => if allocSlot s.ptable = none then .idle else .spawn
  | .spawnInit none | .spawnCopy none => .discard
  | .spawnInit (some _) => .prepare
  | .spawnCopy (some _) => .copy
  | .forkPublish => .publishFork
  | .createCount => .count
  | .createLoad => .load
  | .createPublish => .publishThread
  | .exec (some _) => .build
  | .execAbort => .abort
  | .execCommit => .commit
  | .exit => if threadsCounter (wakeJoiners s.ptable i) i = 1 then .exitLast else .exitThread
  | .newExit => .newExit
  | .yield | .forkClear | .exec none | .join _ | .kill _ => .idle

theorem groupOp_waitEntry {s b : Procs n} {i : Fin n} {op : ProcOp} (h : s.WaitEntry i op b) :
    s.groupOp i op = scanOp b.ptable i := by
  rcases h with ⟨rfl, _, _, rfl⟩ | ⟨rfl, _, hpc, rfl⟩
  · rfl
  · simp [groupOp, hpc]

theorem groupOp_reap {s b : Procs n} {i z : Fin n} {op : ProcOp} (h : s.WaitEntry i op b)
    (hz : zombieChild b.ptable i = some z) : s.groupOp i op = .reap z := by
  rw [groupOp_waitEntry h, scanOp, hz]

theorem groupOp_idle {s b : Procs n} {i : Fin n} {op : ProcOp} (h : s.WaitEntry i op b)
    (hz : zombieChild b.ptable i = none) : s.groupOp i op = .idle := by
  rw [groupOp_waitEntry h, scanOp, hz]

theorem groupOp_schedule {s : Procs n} {i : Fin n} (h : s.pc i ≠ .waitSleep) :
    s.groupOp i .schedule = .idle := if_neg h

theorem pstep_groupOp {s t : Procs n} {i : Fin n} {op : ProcOp} (h : PStep s i op t) :
    Groups.GStep s.groups i (s.groupOp i op) t.groups := by
  cases h with
  | resume hs hw hj =>
    rw [groupOp_schedule hw]
    refine gstep_idle (phase_runnable hs) (Or.inl rfl) ?_ (by simp) rfl rfl rfl rfl
    exact cores_setState s.ptable s.forker i (by rw [hs]; rfl)
  | @joinReturn p k threadId birth hs hpc =>
    rw [groupOp_schedule (by simp [hpc])]
    refine gstep_idle (phase_runnable hs) (Or.inr ⟨by simp [hpc, ProcPc.neutral], rfl⟩) ?_
      rfl rfl rfl rfl rfl
    refine (cores_clearSleeping _ _ p k).trans ?_
    exact cores_update_same s.ptable s.forker i (by simp [Proc.core, hs, ProcState.phase])
  | waitReap he hz =>
    rw [groupOp_reap he hz]
    exact gstep_reap he hz _
  | waitNone he hz hk =>
    rw [groupOp_idle he hz]
    obtain ⟨hi, hpc, hcore, hb⟩ := waitEntry_active he
    refine gstep_idle (x := .user) hi (Or.inr ⟨hpc, rfl⟩) hcore ?_ ?_ ?_ ?_ ?_ <;> rw [hb] <;> rfl
  | waitBlock he hz hk =>
    rw [groupOp_idle he hz]
    obtain ⟨hi, hpc, hcore, hb⟩ := waitEntry_active he
    refine gstep_idle (x := .waitSleep) hi (Or.inr ⟨hpc, rfl⟩) ?_ ?_ ?_ ?_ ?_ ?_
    · refine (cores_sleepSelf ?_).trans hcore
      exact (congrArg Core.phase (congrFun hcore i)).trans hi
    all_goals rw [hb]; rfl
  | yield hs =>
    refine gstep_idle (phase_running hs) (Or.inl rfl) ?_ (by simp) rfl rfl rfl rfl
    exact cores_setState s.ptable s.forker i (by rw [hs]; rfl)
  | @spawnFull k hs hpc ha =>
    rw [show s.groupOp i (.spawn k) = .idle from if_pos ha]
    exact gstep_idle (phase_running hs) (Or.inr ⟨by simp [hpc, ProcPc.neutral], rfl⟩) rfl rfl rfl
      rfl rfl rfl
  | @spawn k np hs hpc ha =>
    rw [show s.groupOp i (.spawn k) = .spawn from if_neg (by simp [ha])]
    refine gstep_of_eq (.spawn (phase_running hs) hpc ?_)
      (groups_eq (cores_update _ _ _ _) rfl rfl rfl rfl rfl)
    simp [groups, Proc.core, allocSlot_some ha, ProcState.phase]
  | @initFail k np hs hpc =>
    exact gstep_of_eq (.discard (phase_running hs) (Or.inl hpc))
      (groups_eq (cores_update _ _ _ _) rfl rfl rfl rfl rfl)
  | @init k np kstack hs hpc =>
    refine gstep_of_eq (.prepare (phase_running hs) hpc)
      (groups_eq ?_ ?_ ?_ ?_ ?_ ?_) <;> cases k
    all_goals first | exact cores_update _ _ _ _ | rfl
  | @copyFail k np hs hpc =>
    exact gstep_of_eq (.discard (phase_running hs) (Or.inr hpc))
      (groups_eq (cores_update _ _ _ _) rfl rfl rfl rfl rfl)
  | @copy k np pgdir hs hpc hd =>
    exact gstep_of_eq (.copy (phase_running hs) hpc hd.2)
      (groups_eq (cores_update _ _ _ _) rfl rfl rfl rfl rfl)
  | @forkPublish np hs hpc =>
    exact gstep_of_eq (.publishFork (phase_running hs) hpc)
      (groups_eq (cores_update_both _ _ _ _ _) rfl rfl rfl rfl rfl)
  | forkClear hs hpc =>
    exact gstep_idle (phase_running hs) (Or.inr ⟨by simp [hpc, ProcPc.neutral], rfl⟩)
      (cores_update_same _ _ _ rfl) rfl rfl rfl rfl rfl
  | createCount hs hpc =>
    exact gstep_of_eq (.count (phase_running hs) hpc) (groups_eq rfl rfl rfl rfl rfl rfl)
  | createLoad hs hpc =>
    exact gstep_of_eq (.load (phase_running hs) hpc) (groups_eq rfl rfl rfl rfl rfl rfl)
  | createPublish hs hpc =>
    exact gstep_of_eq (.publishThread (phase_running hs) hpc)
      (groups_eq (cores_update_both _ _ _ _ _) rfl rfl rfl rfl rfl)
  | execFail hs hpc =>
    exact gstep_idle (phase_running hs) (Or.inr ⟨by simp [hpc, ProcPc.neutral], rfl⟩) rfl rfl rfl
      rfl rfl rfl
  | execBuild hs hpc hd =>
    exact gstep_of_eq (.build (phase_running hs) hpc hd.2) (groups_eq rfl rfl rfl rfl rfl rfl)
  | execAbort hs hpc =>
    exact gstep_of_eq (.abort (phase_running hs) hpc) (groups_eq rfl rfl rfl rfl rfl rfl)
  | execCommit hs hpc =>
    exact gstep_of_eq (.commit (phase_running hs) hpc)
      (groups_eq (cores_update _ _ _ _) rfl rfl rfl rfl rfl)
  | exitLast hs hpc hi hc =>
    rw [show s.groupOp i .exit = .exitLast from if_pos hc]
    exact gstep_of_eq (.exitLast (phase_running hs) hpc hi ((threadsCounter_sibling hs).mp hc))
      (groups_eq (cores_reapSiblings s _ i (cores_wakeJoiners _ _ _)) rfl rfl rfl rfl rfl)
  | exitThread hs hpc hi hc =>
    rw [show s.groupOp i .exit = .exitThread from if_neg hc]
    rw [ne_eq, threadsCounter_sibling hs, not_forall] at hc
    obtain ⟨q, hq⟩ := hc
    exact gstep_of_eq (.exitThread (phase_running hs) hpc hi (not_not.mp hq))
      (groups_eq (cores_exitThread _ _ _) rfl rfl rfl rfl rfl)
  | newExit hs hpc hi =>
    exact gstep_of_eq (.newExit (phase_running hs) hpc hi)
      (groups_eq (cores_newExitTable _ _ _ _) rfl rfl rfl rfl rfl)
  | joinNone hs hpc hj =>
    exact gstep_idle (phase_running hs) (Or.inr ⟨by simp [hpc, ProcPc.neutral], rfl⟩) rfl rfl rfl
      rfl rfl rfl
  | @join threadId p k hs hpc hj hk =>
    refine gstep_idle (phase_running hs) (Or.inr ⟨by simp [hpc, ProcPc.neutral], rfl⟩) ?_
      rfl rfl rfl rfl rfl
    refine (cores_sleepSelf ?_).trans (cores_setSleeping s.ptable s.forker p k (some i))
    exact (congrArg Core.phase (congrFun (cores_setSleeping s.ptable s.forker p k (some i)) i)).trans
      (phase_running hs)
  | joinFull hs hpc hj hk =>
    refine gstep_idle (phase_running hs) (Or.inr ⟨by simp [hpc, ProcPc.neutral], rfl⟩) ?_
      rfl rfl rfl rfl rfl
    exact cores_update_same _ _ _ (by simp [Proc.core, hs, ProcState.phase])
  | killNone hs hpc hp =>
    exact gstep_idle (phase_running hs) (Or.inr ⟨by simp [hpc, ProcPc.neutral], rfl⟩) rfl rfl rfl
      rfl rfl rfl
  | kill hs hpc hp =>
    exact gstep_idle (phase_running hs) (Or.inr ⟨by simp [hpc, ProcPc.neutral], rfl⟩)
      (cores_killTable _ _ _) rfl rfl rfl rfl rfl

theorem does_groupOp {s t : Procs n} {i : Fin n} {op : ProcOp} (h : PStep s i op t) :
    s.Does i op (s.groupOp i op) := by
  cases h with
  | waitReap he hz =>
    rw [groupOp_reap he hz]
    exact ⟨_, he, hz⟩
  | waitNone he hz hk | waitBlock he hz hk =>
    rw [groupOp_idle he hz]
    trivial
  | resume hs hw hj =>
    rw [groupOp_schedule hw]
    trivial
  | joinReturn hs hpc =>
    rw [groupOp_schedule (by simp [hpc])]
    trivial
  | @spawnFull k hs hpc ha =>
    rw [show s.groupOp i (.spawn k) = .idle from if_pos ha]
    trivial
  | @spawn k np hs hpc ha =>
    rw [show s.groupOp i (.spawn k) = .spawn from if_neg (by simp [ha])]
    exact ⟨k, rfl⟩
  | exitLast | exitThread =>
    simp only [groupOp]
    split <;> exact rfl
  | _ => first | exact trivial | exact rfl

theorem pstep_gstep {s t : Procs n} {i : Fin n} {op : ProcOp} (h : PStep s i op t) :
    ∃ a, Groups.GStep s.groups i a t.groups ∧ s.Does i op a :=
  ⟨_, pstep_groupOp h, does_groupOp h⟩

end Procs

end Xv6
