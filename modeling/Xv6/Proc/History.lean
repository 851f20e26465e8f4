import Xv6.Proc.Parents

namespace Xv6

variable {n : Nat}

-- What a run has done, most recent first: `forked` pairs a child's pid with its forker's, `ended`
-- a pid with the slot that became ZOMBIE, `waited` a caller's pid with the pid its wait returned.
structure Ledger (n : Nat) where
  forked : List (Int × Int)
  ended : List (Int × Fin n)
  waited : List (Int × Int)

namespace Ledger

def empty : Ledger n := ⟨[], [], []⟩

def last (l : Ledger n) (v : Int) : Option (Fin n) :=
  (l.ended.find? (fun x => decide (x.1 = v))).map Prod.snd

theorem last_cons (l : Ledger n) (v w : Int) (i : Fin n) :
    { l with ended := (w, i) :: l.ended }.last v = if w = v then some i else l.last v := by
  by_cases h : w = v <;> simp [last, h]

end Ledger

def Groups.record (g : Groups n) (i : Fin n) (l : Ledger n) : GroupOp n → Ledger n
  | .publishFork =>
    match g.pc i with
    | .forkPublish np => { l with forked := ((g.core np).pid, (g.core i).pid) :: l.forked }
    | _ => l
  | .exitThread | .newExit => { l with ended := ((g.core i).pid, i) :: l.ended }
  | .reap z => { l with waited := ((g.core i).pid, (g.core z).pid) :: l.waited }
  | _ => l

namespace Procs

def kfrees (s : Procs n) (i : Fin n) (op : ProcOp) (p : Fin n) : Bool :=
  match s.groupOp i op with
  | .reap z => decide (p = z)
  | .exitLast => decide ((s.ptable p).state = .zombie ∧ (s.ptable p).pid = (s.ptable i).pid ∧
      (s.ptable i).threadId ≠ (s.ptable p).threadId)
  | .discard => decide (op = .spawnCopy none ∧ (s.pc i).spawning = some p)
  | _ => false

def allocs (s : Procs n) (i : Fin n) (op : ProcOp) (p : Fin n) : Bool :=
  decide (s.groupOp i op = .spawn ∧ allocSlot s.ptable = some p)

def ends (s : Procs n) (i : Fin n) (op : ProcOp) (p : Fin n) : Bool :=
  decide (p = i ∧ (s.groupOp i op = .exitThread ∨ s.groupOp i op = .newExit))

end Procs

-- For each slot since it was last allocated: how often its kernel stack was passed to kfree, and
-- the pid of the thread that ended there.
structure History (n : Nat) where
  procs : Procs n
  ledger : Ledger n
  kfreed : Fin n → Nat
  left : Fin n → Option Int

namespace History

def step (h : History n) (e : Fin n × ProcOp) : Option (History n) :=
  (h.procs.step e).map fun procs =>
    { procs := procs
      ledger := h.procs.groups.record e.1 h.ledger (h.procs.groupOp e.1 e.2)
      kfreed := fun p =>
        if h.procs.allocs e.1 e.2 p then 0
        else if h.procs.kfrees e.1 e.2 p then h.kfreed p + 1 else h.kfreed p
      left := fun p =>
        if h.procs.allocs e.1 e.2 p then none
        else if h.procs.ends e.1 e.2 p then some (h.procs.ptable p).pid else h.left p }

abbrev run (h : History n) (es : List (Fin n × ProcOp)) : Option (History n) :=
  GuardedRun.run step h es

structure Boot (h : History n) : Prop where
  procs : h.procs.Boot
  ledger : h.ledger = .empty
  kfreed : h.kfreed = fun _ => 0
  left : h.left = fun _ => none

def userinit (initproc : Fin n) (kstack pgdir : Nat) : History n :=
  ⟨Procs.userinit initproc kstack pgdir, .empty, fun _ => 0, fun _ => none⟩

theorem userinit_boot (initproc : Fin n) (kstack : Nat) {pgdir : Nat} (h : pgdir ≠ 0) :
    (userinit initproc kstack pgdir).Boot :=
  ⟨Procs.userinit_boot initproc kstack h, rfl, rfl, rfl⟩

theorem step_procs {h t : History n} {e : Fin n × ProcOp} (hs : h.step e = some t) :
    Procs.PStep h.procs e.1 e.2 t.procs := by
  obtain ⟨procs, hp, rfl⟩ := Option.map_eq_some_iff.mp hs
  exact Procs.step_pstep hp

theorem step_ledger {h t : History n} {e : Fin n × ProcOp} (hs : h.step e = some t) :
    t.ledger = h.procs.groups.record e.1 h.ledger (h.procs.groupOp e.1 e.2) := by
  obtain ⟨procs, hp, rfl⟩ := Option.map_eq_some_iff.mp hs
  rfl

def failedFork (i : Fin n) : List (Fin n × ProcOp) := [(i, .spawn .fork), (i, .spawnInit none)]

def failedForks (i : Fin n) (m : Nat) : List (Fin n × ProcOp) :=
  (List.replicate m (failedFork i)).flatten

def burnt (h : History n) (i np : Fin n) (pid : Int) (births : Nat) : History n where
  procs :=
    { h.procs with
      ptable := Function.update h.procs.ptable np
        { h.procs.ptable np with kstack := 0, state := .unused, pid := pid }
      nextpid := int32 (pid + 1)
      pc := Function.update h.procs.pc i .user
      eax := Function.update h.procs.eax i (-1)
      births := Function.update h.procs.births np births }
  ledger := h.ledger
  kfreed := Function.update h.kfreed np 0
  left := Function.update h.left np none

structure Spawns (h : History n) (i np : Fin n) : Prop where
  running : (h.procs.ptable i).state = .running
  user : h.procs.pc i = .user
  slot : allocSlot h.procs.ptable = some np

theorem Spawns.ne {h : History n} {i np : Fin n} (hs : h.Spawns i np) : i ≠ np := by
  rintro rfl
  have := allocSlot_some hs.slot
  simp [hs.running] at this

theorem burnt_burnt (h : History n) (i np : Fin n) (v w : Int) (a b : Nat) :
    (h.burnt i np v a).burnt i np w b = h.burnt i np w b := by
  simp [burnt]

theorem Spawns.burnt {h : History n} {i np : Fin n} (hs : h.Spawns i np) (v : Int) (b : Nat) :
    (h.burnt i np v b).Spawns i np where
  running := by simp [History.burnt, hs.ne, hs.running]
  user := by simp [History.burnt]
  slot := by
    rw [← hs.slot]
    refine congrArg SlotScan.firstSlot (funext fun p => ?_)
    by_cases hp : p = np
    · subst hp
      simp [History.burnt, allocSlot_some hs.slot]
    · simp [History.burnt, hp]

theorem step_spawn {h : History n} {i np : Fin n} (hs : h.Spawns i np) :
    h.step (i, .spawn .fork) = some
      ⟨(h.procs.allocproc np).goto i (.spawnInit .fork np), h.ledger,
        Function.update h.kfreed np 0, Function.update h.left np none⟩ := by
  have hop : h.procs.groupOp i (.spawn .fork) = .spawn := if_neg (by simp [hs.slot])
  have hstep : h.procs.step (i, .spawn .fork) =
      some ((h.procs.allocproc np).goto i (.spawnInit .fork np)) := by
    simp [Procs.step, Procs.exec, hs.running, hs.user, hs.slot]
  rw [step, hstep, Option.map_some, hop, Option.some.injEq, History.mk.injEq]
  refine ⟨rfl, rfl, funext fun p => ?_, funext fun p => ?_⟩ <;>
    by_cases hp : p = np
  · subst hp; simp [Procs.allocs, hop, hs.slot]
  · simp [Procs.allocs, Procs.kfrees, hop, hs.slot, hp, Ne.symm hp]
  · subst hp; simp [Procs.allocs, hop, hs.slot]
  · simp [Procs.allocs, Procs.ends, hop, hs.slot, hp, Ne.symm hp]

theorem step_initFail {h : History n} {i np : Fin n} {k : Spawn}
    (hs : (h.procs.ptable i).state = .running) (hpc : h.procs.pc i = .spawnInit k np) :
    h.step (i, .spawnInit none) = some { h with procs := (h.procs.discard np).returns i (-1) } := by
  have hstep : h.procs.step (i, .spawnInit none) = some ((h.procs.discard np).returns i (-1)) := by
    simp [Procs.step, Procs.exec, hs, hpc]
  rw [step, hstep, Option.map_some, Option.some.injEq, History.mk.injEq]
  refine ⟨rfl, rfl, funext fun p => ?_, funext fun p => ?_⟩
  · simp [Procs.allocs, Procs.kfrees, Procs.groupOp]
  · simp [Procs.allocs, Procs.ends, Procs.groupOp]

theorem failedFork_run {h : History n} {i np : Fin n} (hs : h.Spawns i np) :
    h.run (failedFork i) = some (h.burnt i np h.procs.nextpid (h.procs.births np + 1)) := by
  refine (GuardedRun.run_cons step).mpr ⟨_, step_spawn hs, ?_⟩
  refine (GuardedRun.run_cons step).mpr ⟨_, @step_initFail n _ i np .fork ?_ ?_, ?_⟩
  · simp [Procs.allocproc, hs.ne, hs.running]
  · simp
  · simp [burnt, Procs.discard, Procs.allocproc]

theorem failedForks_run {h : History n} {i np : Fin n} (hs : h.Spawns i np)
    (hnext : int32 h.procs.nextpid = h.procs.nextpid) (m : Nat) :
    h.run (failedForks i (m + 1)) =
      some (h.burnt i np (int32 (h.procs.nextpid + m)) (h.procs.births np + m + 1)) := by
  induction m with
  | zero =>
    have hone : failedForks i 1 = failedFork i := by simp [failedForks]
    simp [hone, failedFork_run hs, hnext]
  | succ m ih =>
    have hmore : failedForks i (m + 2) = failedForks i (m + 1) ++ failedFork i := by
      rw [failedForks, List.replicate_succ', List.flatten_append]
      simp [failedForks]
    rw [run, hmore, GuardedRun.run_append]
    have hlast := failedFork_run (hs.burnt (int32 (h.procs.nextpid + m)) (h.procs.births np + m + 1))
    rw [burnt_burnt] at hlast
    refine ⟨_, ih, hlast.trans ?_⟩
    have hpid : (h.burnt i np (int32 (h.procs.nextpid + m)) (h.procs.births np + m + 1)).procs.nextpid
        = int32 (h.procs.nextpid + (m + 1 : Nat)) := by
      simp only [History.burnt, int32_add]
      congr 1
      push_cast
      ring
    have hbirths : (h.burnt i np (int32 (h.procs.nextpid + m))
        (h.procs.births np + m + 1)).procs.births np = h.procs.births np + m + 1 := by
      simp [History.burnt]
    rw [hpid, hbirths]
    rfl

def oneChild : History nproc :=
  ((userinit (0 : Fin nproc) 1 2).run ((0, .schedule) :: Procs.forkOps 0 1 3 4)).getD
    (userinit (0 : Fin nproc) 1 2)

theorem oneChild_spawns : oneChild.Spawns 0 2 := ⟨rfl, rfl, rfl⟩

theorem oneChild_burnt {v : Int} {k m : Nat} (hk : k = m + 1) (h : int32 (3 + m) = v) :
    (userinit (0 : Fin nproc) 1 2).run
      ((0, .schedule) :: Procs.forkOps 0 1 3 4 ++ failedForks 0 k) =
        some (oneChild.burnt 0 2 v k) := by
  have hnext : oneChild.procs.nextpid = 3 := rfl
  have hbirths : oneChild.procs.births 2 = 0 := rfl
  have hforks := failedForks_run oneChild_spawns (by rw [hnext]; rfl) m
  rw [hnext, hbirths, h, Nat.zero_add, ← hk] at hforks
  exact (GuardedRun.run_append step).mpr ⟨oneChild, rfl, hforks⟩

end History
end Xv6
