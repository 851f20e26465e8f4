import Xv6.Lib.GuardedRun
import Xv6.Lib.SlotScan
import Xv6.Proc.Basic

namespace Xv6

open SlotScan

abbrev pipesize : BitVec 32 := 512

inductive PipeChan where
  | nread
  | nwrite
  deriving DecidableEq, Repr

-- `unannounced` in `writeFor` is history: a byte was stored since the lock was taken.
inductive PipeCode where
  | writeFor (n : Int) (i : Nat) (unannounced : Bool)
  | writeWait (n : Int) (i : Nat)
  | readWhile (n : Int)
  | readFor (n : Int) (i : Nat)
  | closeEnd (writable : Bool)
  | closeTest
  | ret (r : Int)
  deriving DecidableEq, Repr

inductive PipePc where
  | user
  | acquire (c : PipeCode)
  | hold (c : PipeCode)
  | wakeup (ch : PipeChan) (c : PipeCode)
  | sleep (ch : PipeChan) (c : PipeCode)
  | switch (ch : PipeChan) (c : PipeCode)
  | asleep (ch : PipeChan) (c : PipeCode)
  deriving DecidableEq, Repr

inductive PipeOp where
  | pipewrite (n : Int)
  | piperead (n : Int)
  | pipeclose (writable : Bool)
  | kill (pid : Int)
  | tick (b : UInt8)
  | schedule
  | yield
  deriving DecidableEq, Repr

structure PipeProc where
  state : ProcState
  chan : Option PipeChan
  killed : Bool
  pid : Int
  pc : PipePc
  eax : Int
  deriving DecidableEq, Repr

-- `freed` stands for the page's return to the allocator; `stored` and `taken` are history.
structure Pipe (n : Nat) where
  data : Int → UInt8
  nread : BitVec 32
  nwrite : BitVec 32
  readopen : Bool
  writeopen : Bool
  lock : Option (Fin n)
  ptableLock : Option (Fin n)
  proc : Fin n → PipeProc
  freed : Bool
  stored : List UInt8
  taken : List UInt8

namespace Pipe

variable {n : Nat}

@[simp] def setProc (s : Pipe n) (i : Fin n) (p : PipeProc) : Pipe n :=
  { s with proc := Function.update s.proc i p }

@[simp] def goto (s : Pipe n) (i : Fin n) (pc : PipePc) : Pipe n :=
  s.setProc i { s.proc i with pc := pc }

@[simp] def returns (s : Pipe n) (i : Fin n) (r : Int) : Pipe n :=
  s.setProc i { s.proc i with pc := .user, eax := r }

def full (s : Pipe n) : Prop := s.nwrite = s.nread + pipesize

instance (s : Pipe n) : Decidable s.full := by unfold full; infer_instance

@[simp] def store (s : Pipe n) (b : UInt8) : Pipe n :=
  { s with
    data := Function.update s.data (s.nwrite.toNat % 512) b
    nwrite := s.nwrite + 1
    stored := s.stored ++ [b] }

@[simp] def take (s : Pipe n) : Pipe n :=
  { s with nread := s.nread + 1, taken := s.taken ++ [s.data (s.nread.toNat % 512)] }

def wakeup1 (pt : Fin n → PipeProc) (ch : PipeChan) (j : Fin n) : PipeProc :=
  if (pt j).state = .sleeping ∧ (pt j).chan = some ch then { pt j with state := .runnable }
  else pt j

def killProc (p : PipeProc) : PipeProc :=
  { p with killed := true, state := if p.state = .sleeping then .runnable else p.state }

def kill (pt : Fin n → PipeProc) (pid : Int) : (Fin n → PipeProc) × Int :=
  match firstSlot (fun j => decide ((pt j).pid = pid)) with
  | some j => (Function.update pt j (killProc (pt j)), 0)
  | none => (pt, -1)

-- One pass of a loop of `pipewrite` or `piperead`, or the next statement, under `p->lock`. Only
-- `killed` can change meanwhile, and a pass reads it at most once. `b` is the byte at `addr[i]`.
def region (s : Pipe n) (i : Fin n) (b : UInt8) : PipeCode → Pipe n
  | .writeFor m k _ =>
    if (k : Int) < m then
      if s.full then
        if s.readopen = false ∨ (s.proc i).killed = true then s.goto i (.hold (.ret (-1)))
        else s.goto i (.wakeup .nread (.writeWait m k))
      else (s.store b).goto i (.hold (.writeFor m (k + 1) true))
    else s.goto i (.wakeup .nread (.ret m))
  | .writeWait m k => s.goto i (.sleep .nwrite (.writeFor m k false))
  | .readWhile m =>
    if s.nread = s.nwrite ∧ s.writeopen = true then
      if (s.proc i).killed = true then s.goto i (.hold (.ret (-1)))
      else s.goto i (.sleep .nread (.readWhile m))
    else s.goto i (.hold (.readFor m 0))
  | .readFor m k =>
    if (k : Int) < m ∧ s.nread ≠ s.nwrite then s.take.goto i (.hold (.readFor m (k + 1)))
    else s.goto i (.wakeup .nwrite (.ret k))
  | .closeEnd true => ({ s with writeopen := false }).goto i (.wakeup .nread .closeTest)
  | .closeEnd false => ({ s with readopen := false }).goto i (.wakeup .nwrite .closeTest)
  | .closeTest =>
    ({ s with
      lock := none
      freed := s.freed || (!s.readopen && !s.writeopen) }).returns i 0
  | .ret r => ({ s with lock := none }).returns i r

def exec (s : Pipe n) (i : Fin n) : PipeOp → PipePc → Option (Pipe n)
  | .pipewrite m, .user => some (s.goto i (.acquire (.writeFor m 0 false)))
  | .piperead m, .user => some (s.goto i (.acquire (.readWhile m)))
  | .pipeclose w, .user => some (s.goto i (.acquire (.closeEnd w)))
  | .kill pid, .user =>
    if s.ptableLock = none then
      let k := kill s.proc pid
      some (({ s with proc := k.1 }).returns i k.2)
    else none
  | .yield, .user =>
    if s.ptableLock = none then
      some (s.setProc i { s.proc i with state := .runnable })
    else none
  | .tick _, .acquire c =>
    if s.lock = none ∧ s.freed = false then some (({ s with lock := some i }).goto i (.hold c))
    else none
  | .tick b, .hold c => some (s.region i b c)
  | .tick _, .wakeup ch c =>
    if s.ptableLock = none then some (({ s with proc := wakeup1 s.proc ch }).goto i (.hold c))
    else none
  | .tick _, .sleep ch c =>
    if s.ptableLock = none then
      some (({ s with lock := none, ptableLock := some i }).goto i (.switch ch c))
    else none
  | .tick _, .switch ch c =>
    some (({ s with ptableLock := none }).setProc i
      { s.proc i with state := .sleeping, chan := some ch, pc := .asleep ch c })
  | _, _ => none

def resume (p : PipeProc) : PipeProc :=
  match p.pc with
  | .asleep _ c => { p with state := .running, chan := none, pc := .acquire c }
  | _ => { p with state := .running }

def step (s : Pipe n) (e : Fin n × PipeOp) : Option (Pipe n) :=
  match (s.proc e.1).state, e.2 with
  | .runnable, .schedule =>
    if s.ptableLock = none then
      some (s.setProc e.1 (resume (s.proc e.1)))
    else none
  | .running, op => s.exec e.1 op (s.proc e.1).pc
  | _, _ => none

abbrev run (s : Pipe n) (es : List (Fin n × PipeOp)) : Option (Pipe n) := GuardedRun.run step s es

inductive PStep (s : Pipe n) (i : Fin n) : PipeOp → Pipe n → Prop
  | resumeAsleep {ch : PipeChan} {c : PipeCode} (hp : s.ptableLock = none)
      (hpc : (s.proc i).pc = .asleep ch c) :
      PStep s i .schedule
        (s.setProc i { s.proc i with state := .running, chan := none, pc := .acquire c })
  | resumeOther (hp : s.ptableLock = none) (hpc : ∀ ch c, (s.proc i).pc ≠ .asleep ch c) :
      PStep s i .schedule (s.setProc i { s.proc i with state := .running })
  | yield (hp : s.ptableLock = none) (hpc : (s.proc i).pc = .user) :
      PStep s i .yield (s.setProc i { s.proc i with state := .runnable })
  | pipewrite {m : Int} (hpc : (s.proc i).pc = .user) :
      PStep s i (.pipewrite m) (s.goto i (.acquire (.writeFor m 0 false)))
  | piperead {m : Int} (hpc : (s.proc i).pc = .user) :
      PStep s i (.piperead m) (s.goto i (.acquire (.readWhile m)))
  | pipeclose {w : Bool} (hpc : (s.proc i).pc = .user) :
      PStep s i (.pipeclose w) (s.goto i (.acquire (.closeEnd w)))
  | kill {pid : Int} (hp : s.ptableLock = none) (hpc : (s.proc i).pc = .user) :
      PStep s i (.kill pid)
        (({ s with proc := (kill s.proc pid).1 }).returns i (kill s.proc pid).2)
  | acquire {b : UInt8} {c : PipeCode} (hpc : (s.proc i).pc = .acquire c) (hl : s.lock = none)
      (hf : s.freed = false) :
      PStep s i (.tick b) (({ s with lock := some i }).goto i (.hold c))
  | writeFail {b : UInt8} {m : Int} {k : Nat} {f : Bool}
      (hpc : (s.proc i).pc = .hold (.writeFor m k f)) (hk : (k : Int) < m) (hf : s.full)
      (hr : s.readopen = false ∨ (s.proc i).killed = true) :
      PStep s i (.tick b) (s.goto i (.hold (.ret (-1))))
  | writeFull {b : UInt8} {m : Int} {k : Nat} {f : Bool}
      (hpc : (s.proc i).pc = .hold (.writeFor m k f)) (hf : s.full)
      (hr : ¬ (s.readopen = false ∨ (s.proc i).killed = true)) :
      PStep s i (.tick b) (s.goto i (.wakeup .nread (.writeWait m k)))
  | writeStore {b : UInt8} {m : Int} {k : Nat} {f : Bool}
      (hpc : (s.proc i).pc = .hold (.writeFor m k f)) (hf : ¬ s.full) (hk : (k : Int) < m) :
      PStep s i (.tick b) ((s.store b).goto i (.hold (.writeFor m (k + 1) true)))
  | writeDone {b : UInt8} {m : Int} {k : Nat} {f : Bool}
      (hpc : (s.proc i).pc = .hold (.writeFor m k f)) (hk : ¬ (k : Int) < m) :
      PStep s i (.tick b) (s.goto i (.wakeup .nread (.ret m)))
  | writeWait {b : UInt8} {m : Int} {k : Nat} (hpc : (s.proc i).pc = .hold (.writeWait m k)) :
      PStep s i (.tick b) (s.goto i (.sleep .nwrite (.writeFor m k false)))
  | readFail {b : UInt8} {m : Int} (hpc : (s.proc i).pc = .hold (.readWhile m)) :
      PStep s i (.tick b) (s.goto i (.hold (.ret (-1))))
  | readEmpty {b : UInt8} {m : Int} (hpc : (s.proc i).pc = .hold (.readWhile m))
      (he : s.nread = s.nwrite) (hw : s.writeopen = true) :
      PStep s i (.tick b) (s.goto i (.sleep .nread (.readWhile m)))
  | readReady {b : UInt8} {m : Int} (hpc : (s.proc i).pc = .hold (.readWhile m)) :
      PStep s i (.tick b) (s.goto i (.hold (.readFor m 0)))
  | readTake {b : UInt8} {m : Int} {k : Nat} (hpc : (s.proc i).pc = .hold (.readFor m k))
      (hne : s.nread ≠ s.nwrite) :
      PStep s i (.tick b) (s.take.goto i (.hold (.readFor m (k + 1))))
  | readDone {b : UInt8} {m : Int} {k : Nat} (hpc : (s.proc i).pc = .hold (.readFor m k)) :
      PStep s i (.tick b) (s.goto i (.wakeup .nwrite (.ret k)))
  | closeWrite {b : UInt8} (hpc : (s.proc i).pc = .hold (.closeEnd true)) :
      PStep s i (.tick b)
        (({ s with writeopen := false }).goto i (.wakeup .nread .closeTest))
  | closeRead {b : UInt8} (hpc : (s.proc i).pc = .hold (.closeEnd false)) :
      PStep s i (.tick b)
        (({ s with readopen := false }).goto i (.wakeup .nwrite .closeTest))
  | closeTest {b : UInt8} (hpc : (s.proc i).pc = .hold .closeTest) :
      PStep s i (.tick b) (({ s with
        lock := none
        freed := s.freed || (!s.readopen && !s.writeopen) }).returns i 0)
  | ret {b : UInt8} {r : Int} (hpc : (s.proc i).pc = .hold (.ret r)) :
      PStep s i (.tick b) (({ s with lock := none }).returns i r)
  | wakeup {b : UInt8} {ch : PipeChan} {c : PipeCode} (hp : s.ptableLock = none)
      (hpc : (s.proc i).pc = .wakeup ch c) :
      PStep s i (.tick b) (({ s with proc := wakeup1 s.proc ch }).goto i (.hold c))
  | sleep {b : UInt8} {ch : PipeChan} {c : PipeCode} (hp : s.ptableLock = none)
      (hpc : (s.proc i).pc = .sleep ch c) :
      PStep s i (.tick b)
        (({ s with lock := none, ptableLock := some i }).goto i (.switch ch c))
  | switch {b : UInt8} {ch : PipeChan} {c : PipeCode} (hpc : (s.proc i).pc = .switch ch c) :
      PStep s i (.tick b) (({ s with ptableLock := none }).setProc i
        { s.proc i with state := .sleeping, chan := some ch, pc := .asleep ch c })

theorem region_pstep (s : Pipe n) {i : Fin n} (b : UInt8) {c : PipeCode}
    (hpc : (s.proc i).pc = .hold c) : PStep s i (.tick b) (s.region i b c) := by
  cases c with
  | writeFor m k f =>
    simp only [region]
    split_ifs with hk hf hr
    · exact .writeFail hpc hk hf hr
    · exact .writeFull hpc hf hr
    · exact .writeStore hpc hf hk
    · exact .writeDone hpc hk
  | writeWait m k => exact .writeWait hpc
  | readWhile m =>
    simp only [region]
    split_ifs with he hk
    · exact .readFail hpc
    · exact .readEmpty hpc he.1 he.2
    · exact .readReady hpc
  | readFor m k =>
    simp only [region]
    split_ifs with hk
    · exact .readTake hpc hk.2
    · exact .readDone hpc
  | closeEnd w =>
    cases w with
    | true => exact .closeWrite hpc
    | false => exact .closeRead hpc
  | closeTest => exact .closeTest hpc
  | ret r => exact .ret hpc

theorem exec_pstep {s t : Pipe n} {i : Fin n} {op : PipeOp}
    (h : s.exec i op (s.proc i).pc = some t) : PStep s i op t := by
  cases hpc : (s.proc i).pc <;> rw [hpc] at h <;> cases op <;>
    simp only [exec, reduceCtorEq, Option.ite_none_right_eq_some, Option.some.injEq] at h
  case hold.tick c b =>
    cases h
    exact region_pstep s b hpc
  case user.pipewrite m => exact h ▸ .pipewrite hpc
  case user.piperead m => exact h ▸ .piperead hpc
  case user.pipeclose w => exact h ▸ .pipeclose hpc
  case user.kill pid => exact h.2 ▸ .kill h.1 hpc
  case user.yield => exact h.2 ▸ .yield h.1 hpc
  case acquire.tick c b => exact h.2 ▸ .acquire hpc h.1.1 h.1.2
  case wakeup.tick ch c b => exact h.2 ▸ .wakeup h.1 hpc
  case sleep.tick ch c b => exact h.2 ▸ .sleep h.1 hpc
  case switch.tick ch c b => exact h ▸ .switch hpc

theorem step_pstep {s t : Pipe n} {e : Fin n × PipeOp} (h : s.step e = some t) :
    PStep s e.1 e.2 t := by
  obtain ⟨i, op⟩ := e
  unfold step at h
  split at h
  · rename_i hs hop
    cases hop
    split_ifs at h with hp
    cases h
    cases hpc : (s.proc i).pc with
    | asleep ch c => simpa [resume, hpc] using PStep.resumeAsleep hp hpc
    | _ => simpa [resume, hpc] using PStep.resumeOther (s := s) (i := i) hp (by simp [hpc])
  · exact exec_pstep h
  · cases h

@[simp] theorem wakeup1_pc (pt : Fin n → PipeProc) (ch : PipeChan) (j : Fin n) :
    (wakeup1 pt ch j).pc = (pt j).pc := by
  unfold wakeup1; split <;> rfl

@[simp] theorem wakeup1_eax (pt : Fin n → PipeProc) (ch : PipeChan) (j : Fin n) :
    (wakeup1 pt ch j).eax = (pt j).eax := by
  unfold wakeup1; split <;> rfl

@[simp] theorem wakeup1_chan (pt : Fin n → PipeProc) (ch : PipeChan) (j : Fin n) :
    (wakeup1 pt ch j).chan = (pt j).chan := by
  unfold wakeup1; split <;> rfl

theorem wakeup1_sleeping {pt : Fin n → PipeProc} {ch : PipeChan} {j : Fin n}
    (h : (wakeup1 pt ch j).state = .sleeping) :
    (pt j).state = .sleeping ∧ (pt j).chan ≠ some ch := by
  unfold wakeup1 at h
  split at h
  · cases h
  · rename_i hn
    exact ⟨h, fun hc => hn ⟨h, hc⟩⟩

theorem kill_frame (pt : Fin n → PipeProc) (pid : Int) (j : Fin n) :
    ((kill pt pid).1 j).pc = (pt j).pc ∧ ((kill pt pid).1 j).eax = (pt j).eax ∧
      ((kill pt pid).1 j).chan = (pt j).chan ∧
      (((kill pt pid).1 j).state = .sleeping → (pt j).state = .sleeping) := by
  unfold kill
  split
  · rename_i k hk
    by_cases hj : j = k
    · subst hj
      simp only [Function.update_self, killProc, true_and]
      intro h
      split at h
      · cases h
      · exact h
    · simp [hj]
  · simp

@[simp] theorem kill_pc (pt : Fin n → PipeProc) (pid : Int) (j : Fin n) :
    ((kill pt pid).1 j).pc = (pt j).pc := (kill_frame pt pid j).1

@[simp] theorem kill_chan (pt : Fin n → PipeProc) (pid : Int) (j : Fin n) :
    ((kill pt pid).1 j).chan = (pt j).chan := (kill_frame pt pid j).2.2.1

theorem pstep_other {s t : Pipe n} {i j : Fin n} {op : PipeOp} (h : PStep s i op t) (hj : j ≠ i) :
    (t.proc j).pc = (s.proc j).pc ∧ (t.proc j).eax = (s.proc j).eax ∧
      (t.proc j).chan = (s.proc j).chan ∧
      ((t.proc j).state = .sleeping → (s.proc j).state = .sleeping) := by
  cases h with
  | kill hp hpc => simpa [hj] using (kill_frame s.proc _ j).2
  | wakeup hp hpc => simpa [hj] using fun h => (wakeup1_sleeping h).1
  | _ => simp [hj]

-- A pipe as `pipealloc` leaves it, at any value of the counters.
structure Start (s : Pipe n) : Prop where
  empty : s.nread = s.nwrite
  readopen : s.readopen = true
  writeopen : s.writeopen = true
  lock : s.lock = none
  ptableLock : s.ptableLock = none
  user : ∀ i, (s.proc i).pc = .user
  chan : ∀ i, (s.proc i).chan = none
  freed : s.freed = false
  stored : s.stored = []
  taken : s.taken = []

def freshPipe (count : BitVec 32) : Pipe 3 where
  data _ := 0
  nread := count
  nwrite := count
  readopen := true
  writeopen := true
  lock := none
  ptableLock := none
  proc i := ⟨.running, none, false, i.val + 1, .user, 0⟩
  freed := false
  stored := []
  taken := []

theorem freshPipe_start (count : BitVec 32) : (freshPipe count).Start where
  empty := rfl
  readopen := rfl
  writeopen := rfl
  lock := rfl
  ptableLock := rfl
  user _ := rfl
  chan _ := rfl
  freed := rfl
  stored := rfl
  taken := rfl

end Pipe

end Xv6
