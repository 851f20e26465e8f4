import Xv6.Lib.GuardedRun
import Xv6.Param

namespace Xv6

-- A flow of control of the kernel is between calls, in pushcli after readeflags (which acquire
-- may have called), or in the loop of acquire.
inductive CliPc (L : Type) where
  | run
  | pushing (eflags : Bool) (lk : Option L)
  | spin (lk : L)
  deriving DecidableEq

-- `frames` is the code that interrupts have put aside. No step reads the other two: `held` are the
-- calls of pushcli and acquire that are not undone yet, and `took` is the interrupt flag at the
-- first of them.
structure Flow (L : Type) where
  pc : CliPc L
  frames : List (CliPc L)
  held : List (Option L)
  took : Bool

-- `iflag` is FL_IF of the CPU.
structure CliCpu (T : Type) where
  ncli : Int
  intena : Bool
  iflag : Bool
  proc : Option T

-- What swtch finds for a thread: `sched` keeps its local intena on the stack.
inductive CliContext where
  | unused
  | forkret
  | sched (intena : Bool)
  | running
  deriving DecidableEq

structure Spinlocks (T C L : Type) where
  cpu : C → CliCpu T
  thread : T → Flow L
  scheduler : C → Flow L
  context : T → CliContext
  lock : L → Option C

-- `call none` is pushcli and `call (some lk)` is acquire; `tick` goes on with such a call. A flow
-- that holds nothing may set the flag itself, as sti, cli and the entry into the kernel do.
inductive CliOp (T L : Type) where
  | call (lk : Option L)
  | tick
  | popcli
  | release (lk : L)
  | setFlag (b : Bool)
  | intr
  | iret
  | sched
  | dispatch (t : T)
  | allocproc (t : T)

namespace Spinlocks

variable {T C L : Type} [DecidableEq T] [DecidableEq C] [DecidableEq L]

structure Local (T C L : Type) where
  cpu : CliCpu T
  flow : Flow L
  lock : L → Option C

def holding (lock : L → Option C) (c : C) (lk : L) : Prop := lock lk = some c

instance (lock : L → Option C) (c : C) (lk : L) : Decidable (holding lock c lk) := by
  unfold holding
  infer_instance

-- The rest of pushcli: cli, the counter, and the flag that was read if this is the outermost call.
def pushcli (x : CliCpu T) (eflags : Bool) : CliCpu T :=
  { x with
    iflag := false
    ncli := x.ncli + 1
    intena := if x.ncli = 0 then eflags else x.intena }

-- `none` is a panic.
def popcli (x : CliCpu T) : Option (CliCpu T) :=
  if x.iflag = true then none
  else if x.ncli - 1 < 0 then none
  else some { x with
    ncli := x.ncli - 1
    iflag := decide (x.ncli - 1 = 0) && x.intena }

def pushed (lk : Option L) (iflag : Bool) (f : Flow L) : Flow L :=
  { f with
    pc := match lk with
      | none => .run
      | some l => .spin l
    held := lk :: f.held
    took := if f.held = [] then iflag else f.took }

def undone (lk : Option L) (f : Flow L) : Flow L := { f with held := f.held.erase lk }

-- The calls that scheduler makes itself: sti and acquire(&ptable.lock) at the top of its loop,
-- release(&ptable.lock) at its end, and pushcli and popcli in switchuvm.
def schedulerCalls (ptable : L) (x : CliCpu T) (f : Flow L) : CliOp T L → Prop
  | .call (some lk) => lk = ptable ∧ f.held = [] ∧ x.iflag = true
  | .call none => f.held ≠ []
  | .setFlag b => b = true
  | _ => True

instance (ptable : L) (x : CliCpu T) (f : Flow L) (op : CliOp T L) :
    Decidable (schedulerCalls ptable x f op) := by
  cases op with
  | call lk => cases lk <;> (unfold schedulerCalls; infer_instance)
  | _ => unfold schedulerCalls; infer_instance

def callStep (c : C) (s : Local T C L) : CliOp T L → Option (Local T C L)
  | .call lk =>
    if s.flow.pc = .run then some { s with flow := { s.flow with pc := .pushing s.cpu.iflag lk } }
    else none
  | .tick =>
    match s.flow.pc with
    | .run => none
    | .pushing eflags lk =>
      if ∃ l ∈ lk, holding s.lock c l then none
      else some { s with cpu := pushcli s.cpu eflags, flow := pushed lk s.cpu.iflag s.flow }
    | .spin lk =>
      if s.lock lk = none then
        some { s with
          flow := { s.flow with pc := .run }
          lock := Function.update s.lock lk (some c) }
      else some s
  | .popcli =>
    if s.flow.pc = .run ∧ none ∈ s.flow.held then
      (popcli s.cpu).map fun x => { s with cpu := x, flow := undone none s.flow }
    else none
  | .release lk =>
    if s.flow.pc = .run ∧ some lk ∈ s.flow.held ∧ holding s.lock c lk then
      (popcli s.cpu).map fun x =>
        ⟨x, undone (some lk) s.flow, Function.update s.lock lk none⟩
    else none
  | .setFlag b =>
    if s.flow.pc = .run ∧ s.flow.held = [] then some { s with cpu := { s.cpu with iflag := b } }
    else none
  | .intr =>
    if s.cpu.iflag = true then
      some { s with
        cpu := { s.cpu with iflag := false }
        flow := { s.flow with pc := .run, frames := s.flow.pc :: s.flow.frames } }
    else none
  | .iret =>
    match s.flow.frames with
    | pc :: frames =>
      if s.flow.pc = .run ∧ s.flow.held = [] then
        some { s with
          cpu := { s.cpu with iflag := true }
          flow := { s.flow with pc := pc, frames := frames } }
      else none
    | [] => none
  | _ => none

def flow (s : Spinlocks T C L) (c : C) : Flow L :=
  match (s.cpu c).proc with
  | some t => s.thread t
  | none => s.scheduler c

def put (s : Spinlocks T C L) (c : C) (x : Local T C L) : Spinlocks T C L :=
  match (s.cpu c).proc with
  | some t => { s with
      cpu := Function.update s.cpu c x.cpu
      thread := Function.update s.thread t x.flow
      lock := x.lock }
  | none => { s with
      cpu := Function.update s.cpu c x.cpu
      scheduler := Function.update s.scheduler c x.flow
      lock := x.lock }

-- Interrupts run any calls on the stack of the scheduler.
def mayCall (ptable : L) (s : Spinlocks T C L) (c : C) (op : CliOp T L) : Prop :=
  (s.cpu c).proc = none → (s.flow c).frames = [] → schedulerCalls ptable (s.cpu c) (s.flow c) op

instance (ptable : L) (s : Spinlocks T C L) (c : C) (op : CliOp T L) :
    Decidable (mayCall ptable s c op) := by
  unfold mayCall
  infer_instance

-- sched up to swtch; the checks before it panic.
def sched (ptable : L) (s : Spinlocks T C L) (c : C) : Option (Spinlocks T C L) :=
  match (s.cpu c).proc with
  | none => none
  | some t =>
    if (s.thread t).pc = .run ∧ (s.thread t).held = [some ptable] ∧ holding s.lock c ptable ∧
        (s.cpu c).ncli = 1 ∧ (s.cpu c).iflag = false then
      some { s with
        cpu := Function.update s.cpu c { s.cpu c with proc := none }
        context := Function.update s.context t (.sched (s.cpu c).intena) }
    else none

-- swtch from scheduler, and the statement of sched behind it. A new thread holds ptable.lock, which
-- scheduler took, and is to run with interrupts.
def dispatch (ptable : L) (s : Spinlocks T C L) (c : C) (t : T) : Option (Spinlocks T C L) :=
  if (s.cpu c).proc = none ∧ (s.scheduler c).pc = .run ∧ (s.scheduler c).frames = [] ∧
      (s.scheduler c).held = [some ptable] then
    match s.context t with
    | .sched intena => some { s with
        cpu := Function.update s.cpu c { s.cpu c with proc := some t, intena := intena }
        context := Function.update s.context t .running }
    | .forkret => some { s with
        cpu := Function.update s.cpu c { s.cpu c with proc := some t }
        thread := Function.update s.thread t ⟨.run, [], [some ptable], true⟩
        context := Function.update s.context t .running }
    | _ => none
  else none

def step (ptable : L) (s : Spinlocks T C L) (e : C × CliOp T L) : Option (Spinlocks T C L) :=
  match e.2 with
  | .sched => s.sched ptable e.1
  | .dispatch t => s.dispatch ptable e.1 t
  | .allocproc t =>
    if s.context t = .unused then
      some { s with context := Function.update s.context t .forkret }
    else none
  | op =>
    if s.mayCall ptable e.1 op then
      (callStep e.1 ⟨s.cpu e.1, s.flow e.1, s.lock⟩ op).map (s.put e.1)
    else none

-- Every CPU is about to enter scheduler, with interrupts as the boot code left them.
structure Start (s : Spinlocks T C L) : Prop where
  ncli : ∀ c, (s.cpu c).ncli = 0
  proc : ∀ c, (s.cpu c).proc = none
  scheduler : ∀ c, (s.scheduler c).pc = .run ∧ (s.scheduler c).frames = [] ∧
    (s.scheduler c).held = []
  context : ∀ t, s.context t = .unused ∨ s.context t = .forkret
  lock : ∀ lk, s.lock lk = none

end Spinlocks

end Xv6
