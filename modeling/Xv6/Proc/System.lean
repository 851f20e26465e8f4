import Xv6.Lib.GuardedRun
import Xv6.Proc.Table

namespace Xv6

inductive Spawn where
  | fork
  | thread
  deriving DecidableEq, Repr

inductive ProcPc (n : Nat) where
  | user
  | spawnInit (k : Spawn) (np : Fin n)
  | spawnCopy (k : Spawn) (np : Fin n)
  | forkPublish (np : Fin n)
  | forkClear (np : Fin n) (pid : Int)
  | createCount (np : Fin n)
  | createLoad (np : Fin n)
  | createPublish (np : Fin n) (parent : Option (Fin n))
  | execCommit (pgdir sz : Nat)
  | newExit
  | waitSleep
  | joinSleep (p : Fin n) (i : Option (Fin 64)) (threadId : Int) (birth : Nat)
  deriving DecidableEq

inductive ProcOp where
  | schedule
  | yield
  | spawn (k : Spawn)
  | spawnInit (kstack : Option Nat)
  | spawnCopy (pgdir : Option Nat)
  | forkPublish
  | forkClear
  | createCount
  | createLoad
  | createPublish
  | exec (image : Option (Nat × Nat))
  | execAbort
  | execCommit
  | exit
  | newExit
  | wait
  | join (threadId : Int)
  | kill (pid : Int)
  deriving DecidableEq, Repr

inductive Holder (n : Nat) where
  | group (pid : Int)
  | building (i : Fin n)
  | leaked
  deriving DecidableEq

def Spawn.holder {n : Nat} (pid : Int) : Spawn → Holder n
  | .fork => .group pid
  | .thread => .leaked

-- `holder` is the set of page directories in use, with for whom each was made; `births` and
-- `forker` are history: how often a slot was allocated, and which process forked a slot's process.
structure Procs (n : Nat) where
  ptable : Ptable n
  nextpid : Int
  nextThread : Int
  initproc : Fin n
  pc : Fin n → ProcPc n
  eax : Fin n → Int
  holder : Nat → Option (Holder n)
  births : Fin n → Nat
  forker : Fin n → Int

namespace Procs

variable {n : Nat}

@[simp] def returns (s : Procs n) (i : Fin n) (r : Int) : Procs n :=
  { s with pc := Function.update s.pc i .user, eax := Function.update s.eax i r }

@[simp] def goto (s : Procs n) (i : Fin n) (p : ProcPc n) : Procs n :=
  { s with pc := Function.update s.pc i p }

@[simp] def setSlot (s : Procs n) (i : Fin n) (p : Proc n) : Procs n :=
  { s with ptable := Function.update s.ptable i p }

@[simp] def setHolder (s : Procs n) (pgdir : Nat) (h : Option (Holder n)) : Procs n :=
  { s with holder := Function.update s.holder pgdir h }

@[simp] def setTable (s : Procs n) (pt : Ptable n) : Procs n := { s with ptable := pt }

def awake (s : Procs n) (i : Fin n) : Procs n :=
  s.setSlot i { s.ptable i with state := .running, chan := none }

def sleepSelf (s : Procs n) (i : Fin n) : Procs n :=
  s.setSlot i { s.ptable i with state := .sleeping, chan := some i }

def allocproc (s : Procs n) (np : Fin n) : Procs n :=
  { s.setSlot np { s.ptable np with state := .embryo, pid := s.nextpid } with
    nextpid := int32 (s.nextpid + 1)
    births := Function.update s.births np (s.births np + 1) }

def discard (s : Procs n) (np : Fin n) : Procs n :=
  s.setSlot np { s.ptable np with kstack := 0, state := .unused }

def discardCopy (s : Procs n) (np : Fin n) : Procs n :=
  s.setSlot np { s.ptable np with pgdir := 0, kstack := 0, state := .unused }

def prepare (s : Procs n) (np : Fin n) (kstack : Nat) : Spawn → Procs n
  | .fork => s.setSlot np { s.ptable np with kstack := kstack, threadId := -1 }
  | .thread => s.setSlot np { s.ptable np with kstack := kstack, sleepingThreads := fun _ => none }

def install (s : Procs n) (np : Fin n) (pgdir : Nat) (k : Spawn) : Procs n :=
  (s.setSlot np { s.ptable np with pgdir := pgdir }).setHolder pgdir
    (some (k.holder (s.ptable np).pid))

def afterCopy (np : Fin n) : Spawn → ProcPc n
  | .fork => .forkPublish np
  | .thread => .createCount np

def publishFork (s : Procs n) (i np : Fin n) : Procs n :=
  { (s.setSlot np
      { s.ptable np with
        sz := (s.ptable i).sz
        parent := some i
        state := .runnable }).returns np 0 with
    forker := Function.update s.forker np (s.ptable i).pid }

-- `np->parent = proc->parent` takes no lock, so its load is a step of its own. The store and the
-- publication are one: a New_exit in between passes on EMBRYO and RUNNABLE children alike.
def publishThread (s : Procs n) (i np : Fin n) (parent : Option (Fin n)) : Procs n :=
  { (s.setSlot np
      { s.ptable np with
        threadId := s.nextThread
        pid := (s.ptable i).pid
        pgdir := (s.ptable i).pgdir
        sz := (s.ptable i).sz
        parent := parent
        state := .runnable }).returns np 0 with
    forker := Function.update s.forker np (s.forker i) }

def commit (s : Procs n) (i : Fin n) (pgdir sz : Nat) : Procs n :=
  ((s.setHolder (s.ptable i).pgdir none).setHolder pgdir (some (.group (s.ptable i).pid))).setSlot i
    { s.ptable i with pgdir := pgdir, sz := sz }

def reap (s : Procs n) (z : Fin n) : Procs n :=
  (s.setHolder (s.ptable z).pgdir none).setSlot z (s.ptable z).reaped

def waitSection (s : Procs n) (i : Fin n) : Procs n :=
  match zombieChild s.ptable i with
  | some z => (s.reap z).returns i (s.ptable z).pid
  | none =>
    if (∀ p, (s.ptable p).parent ≠ some i) ∨ (s.ptable i).killed = true then s.returns i (-1)
    else (s.sleepSelf i).goto i .waitSleep

def joinSection (s : Procs n) (i : Fin n) (threadId : Int) : Procs n :=
  match joinTarget s.ptable threadId with
  | none => s.returns i (-1)
  | some p =>
    let k := freeIndex (s.ptable p)
    let pt := match k with
      | some k => setSleeping s.ptable p k (some i)
      | none => s.ptable
    ((s.setTable pt).sleepSelf i).goto i (.joinSleep p k threadId (s.births p))

def exitSection (s : Procs n) (i : Fin n) : Option (Procs n) :=
  if i = s.initproc then none
  else
    let pt := wakeJoiners s.ptable i
    if threadsCounter pt i = 1 then some ((s.setTable (reapSiblings pt i)).goto i .newExit)
    else some (s.setTable (setState pt i .zombie))

def newExitSection (s : Procs n) (i : Fin n) : Option (Procs n) :=
  if i = s.initproc then none
  else some (s.setTable (newExitTable s.ptable i s.initproc))

def resume (s : Procs n) (i : Fin n) : Procs n :=
  match s.pc i with
  | .waitSleep => (s.awake i).waitSection i
  | .joinSleep p k _ _ => ((s.awake i).setTable (clearSleeping (s.awake i).ptable p k)).returns i 0
  | _ => s.setTable (setState s.ptable i .running)

def FreshDir (s : Procs n) (pgdir : Nat) : Prop := pgdir ≠ 0 ∧ s.holder pgdir = none

instance (s : Procs n) (pgdir : Nat) : Decidable (s.FreshDir pgdir) := by
  unfold FreshDir; infer_instance

def exec (s : Procs n) (i : Fin n) : ProcOp → ProcPc n → Option (Procs n)
  | .yield, _ => some (s.setTable (setState s.ptable i .runnable))
  | .spawn k, .user =>
    match allocSlot s.ptable with
    | some np => some ((s.allocproc np).goto i (.spawnInit k np))
    | none => some (s.returns i (-1))
  | .spawnInit (some kstack), .spawnInit k np =>
    some ((s.prepare np kstack k).goto i (.spawnCopy k np))
  | .spawnInit none, .spawnInit _ np => some ((s.discard np).returns i (-1))
  | .spawnCopy (some pgdir), .spawnCopy k np =>
    if s.FreshDir pgdir then some ((s.install np pgdir k).goto i (afterCopy np k)) else none
  | .spawnCopy none, .spawnCopy _ np => some ((s.discardCopy np).returns i (-1))
  | .forkPublish, .forkPublish np =>
    some ((s.publishFork i np).goto i (.forkClear np (s.ptable np).pid))
  | .forkClear, .forkClear np pid =>
    some ((s.setSlot np { s.ptable np with sleepingThreads := fun _ => none }).returns i pid)
  | .createCount, .createCount np =>
    some ({ s with nextThread := int32 (s.nextThread + 1) }.goto i (.createLoad np))
  | .createLoad, .createLoad np => some (s.goto i (.createPublish np (s.ptable i).parent))
  | .createPublish, .createPublish np parent =>
    some ((s.publishThread i np parent).returns i (s.ptable i).pid)
  | .exec (some (pgdir, sz)), .user =>
    if s.FreshDir pgdir then
      some ((s.setHolder pgdir (some (.building i))).goto i (.execCommit pgdir sz))
    else none
  | .exec none, .user => some (s.returns i (-1))
  | .execAbort, .execCommit pgdir _ => some ((s.setHolder pgdir none).returns i (-1))
  | .execCommit, .execCommit pgdir sz => some ((s.commit i pgdir sz).returns i 0)
  | .exit, .user => s.exitSection i
  | .newExit, .newExit => s.newExitSection i
  | .wait, .user => some (s.waitSection i)
  | .join threadId, .user => some (s.joinSection i threadId)
  | .kill pid, .user =>
    match killSlot s.ptable pid with
    | some p => some ((s.setTable (killTable s.ptable p)).returns i 0)
    | none => some (s.returns i (-1))
  | _, _ => none

def step (s : Procs n) (e : Fin n × ProcOp) : Option (Procs n) :=
  match (s.ptable e.1).state, e.2 with
  | .runnable, .schedule => some (s.resume e.1)
  | .running, op => s.exec e.1 op (s.pc e.1)
  | _, _ => none

abbrev run (s : Procs n) (es : List (Fin n × ProcOp)) : Option (Procs n) :=
  GuardedRun.run step s es

structure Boot (s : Procs n) : Prop where
  init : s.ptable s.initproc =
    ⟨4096, (s.ptable s.initproc).pgdir, (s.ptable s.initproc).kstack, .runnable, 1, none, none,
      false, 0, fun _ => none⟩
  pgdir : (s.ptable s.initproc).pgdir ≠ 0
  others : ∀ p, p ≠ s.initproc →
    s.ptable p = ⟨0, 0, 0, .unused, 0, none, none, false, 0, fun _ => none⟩
  nextpid : s.nextpid = 2
  nextThread : s.nextThread = 0
  pc : ∀ p, s.pc p = .user
  holder : s.holder =
    Function.update (fun _ => none) (s.ptable s.initproc).pgdir (some (.group 1))

def userinit (initproc : Fin n) (kstack pgdir : Nat) : Procs n where
  ptable := Function.update (fun _ => ⟨0, 0, 0, .unused, 0, none, none, false, 0, fun _ => none⟩)
    initproc ⟨4096, pgdir, kstack, .runnable, 1, none, none, false, 0, fun _ => none⟩
  nextpid := 2
  nextThread := 0
  initproc := initproc
  pc := fun _ => .user
  eax := fun _ => 0
  holder := Function.update (fun _ => none) pgdir (some (.group 1))
  births := Function.update (fun _ => 0) initproc 1
  forker := fun _ => 0

theorem userinit_boot (initproc : Fin n) (kstack : Nat) {pgdir : Nat} (h : pgdir ≠ 0) :
    (userinit initproc kstack pgdir).Boot := by
  constructor <;> simp +contextual [userinit, h]

def WaitEntry (s : Procs n) (i : Fin n) (op : ProcOp) (b : Procs n) : Prop :=
  op = .wait ∧ (s.ptable i).state = .running ∧ s.pc i = .user ∧ b = s ∨
    op = .schedule ∧ (s.ptable i).state = .runnable ∧ s.pc i = .waitSleep ∧ b = s.awake i

inductive PStep (s : Procs n) (i : Fin n) : ProcOp → Procs n → Prop
  | resume (hs : (s.ptable i).state = .runnable) (hw : s.pc i ≠ .waitSleep)
      (hj : ∀ p k threadId birth, s.pc i ≠ .joinSleep p k threadId birth) :
      PStep s i .schedule (s.setTable (setState s.ptable i .running))
  | joinReturn {p : Fin n} {k : Option (Fin 64)} {threadId : Int} {birth : Nat}
      (hs : (s.ptable i).state = .runnable) (hpc : s.pc i = .joinSleep p k threadId birth) :
      PStep s i .schedule
        (((s.awake i).setTable (clearSleeping (s.awake i).ptable p k)).returns i 0)
  | waitReap {op : ProcOp} {b : Procs n} {z : Fin n} (he : s.WaitEntry i op b)
      (hz : zombieChild b.ptable i = some z) :
      PStep s i op ((b.reap z).returns i (b.ptable z).pid)
  | waitNone {op : ProcOp} {b : Procs n} (he : s.WaitEntry i op b)
      (hz : zombieChild b.ptable i = none)
      (hk : (∀ p, (b.ptable p).parent ≠ some i) ∨ (b.ptable i).killed = true) :
      PStep s i op (b.returns i (-1))
  | waitBlock {op : ProcOp} {b : Procs n} (he : s.WaitEntry i op b)
      (hz : zombieChild b.ptable i = none)
      (hk : ¬ ((∀ p, (b.ptable p).parent ≠ some i) ∨ (b.ptable i).killed = true)) :
      PStep s i op ((b.sleepSelf i).goto i .waitSleep)
  | yield (hs : (s.ptable i).state = .running) :
      PStep s i .yield (s.setTable (setState s.ptable i .runnable))
  | spawnFull {k : Spawn} (hs : (s.ptable i).state = .running) (hpc : s.pc i = .user)
      (ha : allocSlot s.ptable = none) : PStep s i (.spawn k) (s.returns i (-1))
  | spawn {k : Spawn} {np : Fin n} (hs : (s.ptable i).state = .running) (hpc : s.pc i = .user)
      (ha : allocSlot s.ptable = some np) :
      PStep s i (.spawn k) ((s.allocproc np).goto i (.spawnInit k np))
  | initFail {k : Spawn} {np : Fin n} (hs : (s.ptable i).state = .running)
      (hpc : s.pc i = .spawnInit k np) :
      PStep s i (.spawnInit none) ((s.discard np).returns i (-1))
  | init {k : Spawn} {np : Fin n} {kstack : Nat} (hs : (s.ptable i).state = .running)
      (hpc : s.pc i = .spawnInit k np) :
      PStep s i (.spawnInit (some kstack)) ((s.prepare np kstack k).goto i (.spawnCopy k np))
  | copyFail {k : Spawn} {np : Fin n} (hs : (s.ptable i).state = .running)
      (hpc : s.pc i = .spawnCopy k np) :
      PStep s i (.spawnCopy none) ((s.discardCopy np).returns i (-1))
  | copy {k : Spawn} {np : Fin n} {pgdir : Nat} (hs : (s.ptable i).state = .running)
      (hpc : s.pc i = .spawnCopy k np) (hd : s.FreshDir pgdir) :
      PStep s i (.spawnCopy (some pgdir)) ((s.install np pgdir k).goto i (afterCopy np k))
  | forkPublish {np : Fin n} (hs : (s.ptable i).state = .running)
      (hpc : s.pc i = .forkPublish np) :
      PStep s i .forkPublish ((s.publishFork i np).goto i (.forkClear np (s.ptable np).pid))
  | forkClear {np : Fin n} {pid : Int} (hs : (s.ptable i).state = .running)
      (hpc : s.pc i = .forkClear np pid) :
      PStep s i .forkClear
        ((s.setSlot np { s.ptable np with sleepingThreads := fun _ => none }).returns i pid)
  | createCount {np : Fin n} (hs : (s.ptable i).state = .running)
      (hpc : s.pc i = .createCount np) :
      PStep s i .createCount
        ({ s with nextThread := int32 (s.nextThread + 1) }.goto i (.createLoad np))
  | createLoad {np : Fin n} (hs : (s.ptable i).state = .running)
      (hpc : s.pc i = .createLoad np) :
      PStep s i .createLoad (s.goto i (.createPublish np (s.ptable i).parent))
  | createPublish {np : Fin n} {parent : Option (Fin n)} (hs : (s.ptable i).state = .running)
      (hpc : s.pc i = .createPublish np parent) :
      PStep s i .createPublish ((s.publishThread i np parent).returns i (s.ptable i).pid)
  | execFail (hs : (s.ptable i).state = .running) (hpc : s.pc i = .user) :
      PStep s i (.exec none) (s.returns i (-1))
  | execBuild {pgdir sz : Nat} (hs : (s.ptable i).state = .running) (hpc : s.pc i = .user)
      (hd : s.FreshDir pgdir) :
      PStep s i (.exec (some (pgdir, sz)))
        ((s.setHolder pgdir (some (.building i))).goto i (.execCommit pgdir sz))
  | execAbort {pgdir sz : Nat} (hs : (s.ptable i).state = .running)
      (hpc : s.pc i = .execCommit pgdir sz) :
      PStep s i .execAbort ((s.setHolder pgdir none).returns i (-1))
  | execCommit {pgdir sz : Nat} (hs : (s.ptable i).state = .running)
      (hpc : s.pc i = .execCommit pgdir sz) :
      PStep s i .execCommit ((s.commit i pgdir sz).returns i 0)
  | exitLast (hs : (s.ptable i).state = .running) (hpc : s.pc i = .user) (hi : i ≠ s.initproc)
      (hc : threadsCounter (wakeJoiners s.ptable i) i = 1) :
      PStep s i .exit ((s.setTable (reapSiblings (wakeJoiners s.ptable i) i)).goto i .newExit)
  | exitThread (hs : (s.ptable i).state = .running) (hpc : s.pc i = .user) (hi : i ≠ s.initproc)
      (hc : threadsCounter (wakeJoiners s.ptable i) i ≠ 1) :
      PStep s i .exit (s.setTable (setState (wakeJoiners s.ptable i) i .zombie))
  | newExit (hs : (s.ptable i).state = .running) (hpc : s.pc i = .newExit) (hi : i ≠ s.initproc) :
      PStep s i .newExit (s.setTable (newExitTable s.ptable i s.initproc))
  | joinNone {threadId : Int} (hs : (s.ptable i).state = .running) (hpc : s.pc i = .user)
      (hj : joinTarget s.ptable threadId = none) : PStep s i (.join threadId) (s.returns i (-1))
  | join {threadId : Int} {p : Fin n} {k : Fin 64} (hs : (s.ptable i).state = .running)
      (hpc : s.pc i = .user) (hj : joinTarget s.ptable threadId = some p)
      (hk : freeIndex (s.ptable p) = some k) :
      PStep s i (.join threadId)
        (((s.setTable (setSleeping s.ptable p k (some i))).sleepSelf i).goto i
          (.joinSleep p (some k) threadId (s.births p)))
  | joinFull {threadId : Int} {p : Fin n} (hs : (s.ptable i).state = .running)
      (hpc : s.pc i = .user) (hj : joinTarget s.ptable threadId = some p)
      (hk : freeIndex (s.ptable p) = none) :
      PStep s i (.join threadId)
        ((s.sleepSelf i).goto i (.joinSleep p none threadId (s.births p)))
  | killNone {pid : Int} (hs : (s.ptable i).state = .running) (hpc : s.pc i = .user)
      (hp : killSlot s.ptable pid = none) : PStep s i (.kill pid) (s.returns i (-1))
  | kill {pid : Int} {p : Fin n} (hs : (s.ptable i).state = .running) (hpc : s.pc i = .user)
      (hp : killSlot s.ptable pid = some p) :
      PStep s i (.kill pid) ((s.setTable (killTable s.ptable p)).returns i 0)

theorem waitSection_pstep {s b : Procs n} {i : Fin n} {op : ProcOp} (he : s.WaitEntry i op b) :
    PStep s i op (b.waitSection i) := by
  unfold waitSection
  split
  · rename_i z hz
    exact .waitReap he hz
  · rename_i hz
    split
    · rename_i hk
      exact .waitNone he hz hk
    · rename_i hk
      exact .waitBlock he hz hk

theorem exec_pstep {s t : Procs n} {i : Fin n} {op : ProcOp} (hs : (s.ptable i).state = .running)
    (h : s.exec i op (s.pc i) = some t) : PStep s i op t := by
  cases op with
  | schedule => simp [exec] at h
  | yield =>
    simp only [exec, Option.some.injEq] at h
    subst h
    exact .yield hs
  | spawn k =>
    cases hpc : s.pc i <;> simp only [hpc, exec, reduceCtorEq] at h
    split at h <;> cases h
    · rename_i ha
      exact .spawn hs hpc ha
    · rename_i ha
      exact .spawnFull hs hpc ha
  | spawnInit kstack =>
    cases hpc : s.pc i <;> cases kstack <;> simp only [hpc, exec, reduceCtorEq] at h <;> cases h
    · exact .initFail hs hpc
    · exact .init hs hpc
  | spawnCopy pgdir =>
    cases hpc : s.pc i <;> cases pgdir <;> simp only [hpc, exec, reduceCtorEq] at h
    · cases h
      exact .copyFail hs hpc
    · split at h <;> cases h
      rename_i hd
      exact .copy hs hpc hd
  | exec image =>
    cases hpc : s.pc i <;> cases image <;> simp only [hpc, exec, reduceCtorEq] at h
    · cases h
      exact .execFail hs hpc
    · split at h <;> cases h
      rename_i hd
      exact .execBuild hs hpc hd
  | exit =>
    cases hpc : s.pc i <;> simp only [hpc, exec, reduceCtorEq] at h
    unfold exitSection at h
    split at h
    · cases h
    · rename_i hi
      simp only at h
      split at h <;> cases h
      · rename_i hc
        exact .exitLast hs hpc hi hc
      · rename_i hc
        exact .exitThread hs hpc hi hc
  | newExit =>
    cases hpc : s.pc i <;> simp only [hpc, exec, reduceCtorEq] at h
    unfold newExitSection at h
    split at h <;> cases h
    rename_i hi
    exact .newExit hs hpc hi
  | wait =>
    cases hpc : s.pc i <;> simp only [hpc, exec, reduceCtorEq] at h
    cases h
    exact waitSection_pstep (Or.inl ⟨rfl, hs, hpc, rfl⟩)
  | join threadId =>
    cases hpc : s.pc i <;> simp only [hpc, exec, reduceCtorEq] at h
    cases h
    unfold joinSection
    split
    · rename_i hj
      exact .joinNone hs hpc hj
    · rename_i p hj
      cases hk : freeIndex (s.ptable p) with
      | none => exact .joinFull hs hpc hj hk
      | some k => exact .join hs hpc hj hk
  | kill pid =>
    cases hpc : s.pc i <;> simp only [hpc, exec, reduceCtorEq] at h
    split at h <;> cases h
    · rename_i hp
      exact .kill hs hpc hp
    · rename_i hp
      exact .killNone hs hpc hp
  | forkPublish | forkClear | createCount | createLoad | createPublish | execAbort | execCommit =>
    cases hpc : s.pc i <;> simp only [hpc, exec, reduceCtorEq] at h
    cases h
    first
      | exact .forkPublish hs hpc
      | exact .forkClear hs hpc
      | exact .createCount hs hpc
      | exact .createLoad hs hpc
      | exact .createPublish hs hpc
      | exact .execAbort hs hpc
      | exact .execCommit hs hpc

theorem step_pstep {s t : Procs n} {e : Fin n × ProcOp} (h : s.step e = some t) :
    PStep s e.1 e.2 t := by
  obtain ⟨i, op⟩ := e
  unfold step at h
  split at h
  · rename_i hs hop
    cases hop
    cases h
    dsimp only at hs ⊢
    cases hpc : s.pc i with
    | waitSleep =>
      simpa [resume, hpc] using waitSection_pstep (Or.inr ⟨rfl, hs, hpc, rfl⟩)
    | joinSleep p k threadId birth => simpa [resume, hpc] using PStep.joinReturn hs hpc
    | _ => simpa [resume, hpc] using PStep.resume hs (by simp [hpc]) (by simp [hpc])
  · rename_i hs
    exact exec_pstep hs h
  · cases h

end Procs
end Xv6
