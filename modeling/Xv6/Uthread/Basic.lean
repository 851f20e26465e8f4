import Xv6.Lib.SlotScan
import Xv6.Proc.Table

namespace Xv6.Uthread

open SlotScan

abbrev maxUthreads : Nat := 64

abbrev priorities : Nat := 10

inductive Policy where
  | rr
  | pb
  deriving DecidableEq, Repr

def schedPolicy : Policy := .pb

-- `ss` stands for ss_bp and ss_sp, which are stored and loaded together. The allocator is not
-- modelled: the stack comes with the call of uthread_create.
structure UthreadT (F R : Type) where
  tid : Int
  ss : Option R
  priority : Int
  startFunc : Option F
  firstRun : Bool

-- `lost` is a thread pointer outside the table, which the code goes on to use.
inductive Phase where
  | main
  | running
  | exited
  | lost
  deriving DecidableEq, Repr

structure Dispatch (F : Type) where
  tid : Int
  entered : Option F
  deriving DecidableEq, Repr

-- `thread` is an index into the table, none for the null pointer; `dispatched` and `created` record
-- the switches so far and the threads made, with their functions.
structure Process (F R : Type) where
  threads : Fin maxUthreads → UthreadT F R
  thread : Option Int
  pbRrIndexes : Fin priorities → Int
  rrIndex : Int
  nextTid : Int
  numberOfCT : Int
  regs : Option R
  phase : Phase
  dispatched : List (Dispatch F)
  created : List (Int × F)

inductive Call (F R : Type) where
  | create (startFunc : F) (priority : Int) (stack : R)
  | startAll
  | yield (regs : R)
  | setpr (priority : Int)
  | exit

def slot (i : Int) : Option (Fin maxUthreads) :=
  if h : 0 ≤ i ∧ i < maxUthreads then some ⟨i.toNat, by omega⟩ else none

-- (i+1)%MAX_UTHREADS: in C the remainder has the sign of i+1.
def wrap (i : Int) : Int := (i + 1).tmod maxUthreads

-- while(i != last){ if(ok(i)) break; i = (i+1)%MAX_UTHREADS; }
def scan (ok : Fin maxUthreads → Bool) (last : Int) : Nat → Int → Option Int
  | 0, _ => none
  | fuel + 1, i =>
    if i = last then some i
    else if (slot i).any ok then some i
    else scan ok last fuel (wrap i)

namespace Process

variable {F R : Type}

def setThread (s : Process F R) (j : Fin maxUthreads) (t : UthreadT F R) : Process F R :=
  { s with threads := Function.update s.threads j t }

def getNextRoundRobin (s : Process F R) : Option (Int × Process F R) := do
  let i ← scan (fun j => (s.threads j).tid != 0) s.rrIndex maxUthreads (wrap s.rrIndex)
  pure (i, { s with rrIndex := i })

def inPriority (s : Process F R) (priority : Int) (j : Fin maxUthreads) : Bool :=
  (s.threads j).tid != 0 && (s.threads j).priority == priority

def getNumberOfThreadInPrioirity (s : Process F R) (priority : Int) : Nat :=
  (List.finRange maxUthreads).countP (s.inPriority priority)

def getNextPB (s : Process F R) : Option (Int × Process F R) :=
  match firstSlot fun p : Fin priorities => s.getNumberOfThreadInPrioirity p != 0 with
  | none => some (-1, s)
  | some p => do
    let last := s.pbRrIndexes p
    let i ← scan (s.inPriority p) last maxUthreads (wrap last)
    pure (i, { s with pbRrIndexes := Function.update s.pbRrIndexes p i })

def nextThreadToRun (s : Process F R) : Option (Int × Process F R) :=
  match schedPolicy with
  | .rr => s.getNextRoundRobin
  | .pb => s.getNextPB

def uthreadCreate (s : Process F R) (startFunc : F) (priority : Int) (stack : R) :
    Process F R × Int :=
  match firstSlot fun j => (s.threads j).tid == 0 with
  | none => (s, -1)
  | some j =>
    ({ s.setThread j ⟨s.nextTid, some stack, priority, some startFunc, true⟩ with
        nextTid := int32 (s.nextTid + 1)
        numberOfCT := s.numberOfCT + 1
        created := s.created ++ [(s.nextTid, startFunc)] }, s.nextTid)

def enter (s : Process F R) (j : Fin maxUthreads) : Process F R :=
  let t := s.threads j
  if t.firstRun then
    { s.setThread j { t with firstRun := false } with
      dispatched := s.dispatched ++ [⟨t.tid, t.startFunc⟩] }
  else { s with dispatched := s.dispatched ++ [⟨t.tid, none⟩] }

def switch (s : Process F R) : Option (Process F R) := do
  let (i, s) ← s.nextThreadToRun
  let s := { s with thread := some i }
  match slot i with
  | none => pure { s with phase := .lost }
  | some j => pure ({ s with regs := (s.threads j).ss }.enter j)

def uthreadYield (s : Process F R) (regs : R) : Option (Process F R) := do
  let j ← s.thread.bind slot
  (s.setThread j { s.threads j with ss := some regs }).switch

def freeThread (s : Process F R) (j : Fin maxUthreads) : Process F R :=
  let s := { s with numberOfCT := s.numberOfCT - 1 }
  match firstSlot fun i => (s.threads j).tid == (s.threads i).tid with
  | none => s
  | some i => s.setThread i { s.threads i with tid := 0, priority := priorities }

def uthreadExit (s : Process F R) : Option (Process F R) := do
  let j ← s.thread.bind slot
  if s.numberOfCT = 1 then pure { s.freeThread j with phase := .exited }
  else (s.freeThread j).switch

def uthreadStartAll (s : Process F R) : Option (Process F R) := do
  let (i, s) ← s.nextThreadToRun
  let s := { s with thread := some i, phase := .running }
  match slot i with
  | none => pure { s with phase := .lost }
  | some j =>
    if (s.threads j).firstRun then pure (s.enter j)
    else pure { s.enter j with regs := (s.threads j).ss }

def uthreadSetpr (s : Process F R) (priority : Int) : Option (Process F R × Int) :=
  if 0 ≤ priority ∧ priority ≤ 9 then do
    let j ← s.thread.bind slot
    pure (s.setThread j { s.threads j with priority }, (s.threads j).priority)
  else some (s, -1)

def step (s : Process F R) (e : Call F R) : Option (Process F R) :=
  match s.phase, e with
  | .main, .create f priority stack => some (s.uthreadCreate f priority stack).1
  | .main, .startAll => s.uthreadStartAll
  | .running, .create f priority stack => some (s.uthreadCreate f priority stack).1
  | .running, .yield regs => s.uthreadYield regs
  | .running, .setpr priority => (s.uthreadSetpr priority).map Prod.fst
  | .running, .exit => s.uthreadExit
  | _, _ => none

def start : Process F R where
  threads _ := ⟨0, none, 0, none, false⟩
  thread := none
  pbRrIndexes p := if p = 0 then -1 else 0
  rrIndex := -1
  nextTid := 1
  numberOfCT := 0
  regs := none
  phase := .main
  dispatched := []
  created := []

end Process

end Xv6.Uthread
