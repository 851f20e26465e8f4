import Xv6.Proc.Reaping
import Xv6.Vm.Copy

namespace Xv6

inductive KernelOp where
  | schedule
  | yield
  | spawn (k : Spawn)
  | spawnInit
  | spawnCopy
  | forkPublish
  | forkClear
  | createCount
  | createLoad
  | createPublish
  | exit
  | newExit
  | sbrk (n : Int)
  deriving DecidableEq, Repr

def KernelOp.plain : KernelOp → Option ProcOp
  | .schedule => some .schedule
  | .yield => some .yield
  | .spawn k => some (.spawn k)
  | .forkPublish => some .forkPublish
  | .forkClear => some .forkClear
  | .createCount => some .createCount
  | .createLoad => some .createLoad
  | .createPublish => some .createPublish
  | .newExit => some .newExit
  | .spawnInit | .spawnCopy | .exit | .sbrk _ => none

structure Kernel (n : Nat) where
  procs : Procs n
  vm : Vm

namespace Kernel

variable {n : Nat} (L : Layout)

def lift (s : Kernel n) (e : Fin n × ProcOp) (vm : Vm) : Option (Kernel n) :=
  (s.procs.step e).map fun procs => ⟨procs, vm⟩

def allocStack (s : Kernel n) (i : Fin n) : Option (Kernel n) :=
  match s.vm.kalloc with
  | (vm, kstack) => s.lift (i, .spawnInit kstack) vm

def copySpace (s : Kernel n) (i : Fin n) : Option (Kernel n) :=
  match (s.procs.ptable i).state, s.procs.pc i with
  | .running, .spawnCopy k np =>
    match s.vm.copyuvm L (s.procs.ptable i).pgdir (s.procs.ptable i).sz with
    | .ok (vm, some pgdir) =>
      some ⟨(s.procs.install np pgdir k).goto i (Procs.afterCopy np k), vm⟩
    | .ok (vm, none) =>
      match vm.kfree L (s.procs.ptable np).kstack with
      | .ok vm => s.lift (i, .spawnCopy none) vm
      | .error _ => none
    | .error _ => none
  | _, _ => none

def freeStacks (pt : Ptable n) : List (Fin n) → Vm → Except Panic Vm
  | [], vm => pure vm
  | p :: ps, vm => do
    let vm ← vm.kfree L (pt p).kstack
    freeStacks pt ps vm

def reapedSlots (pt : Ptable n) (proc : Fin n) : List (Fin n) :=
  (List.finRange n).filter fun p => decide ((pt p).state = .zombie ∧ (pt p).pid = (pt proc).pid ∧
    (pt proc).threadId ≠ (pt p).threadId)

def exitStacks (s : Kernel n) (i : Fin n) : Except Panic Vm :=
  let pt := wakeJoiners s.procs.ptable i
  if threadsCounter pt i = 1 then freeStacks L pt (reapedSlots pt i) s.vm else pure s.vm

def exit (s : Kernel n) (i : Fin n) : Option (Kernel n) :=
  match s.exitStacks L i with
  | .ok vm => s.lift (i, .exit) vm
  | .error _ => none

def resize (s : Kernel n) (i : Fin n) (vm : Vm) : Option Nat → Kernel n
  | some sz =>
    ⟨(s.procs.setSlot i { s.procs.ptable i with sz := sz }).returns i (s.procs.ptable i).sz, vm⟩
  | none => ⟨s.procs.returns i (-1), vm⟩

def sbrk (s : Kernel n) (i : Fin n) (k : Int) : Option (Kernel n) :=
  match (s.procs.ptable i).state, s.procs.pc i with
  | .running, .user =>
    match s.vm.growproc L (s.procs.ptable i).pgdir (s.procs.ptable i).sz k with
    | .ok (vm, sz) => some (s.resize i vm sz)
    | .error _ => none
  | _, _ => none

-- A panic stops the machine: there is no next state.
def step (s : Kernel n) (e : Fin n × KernelOp) : Option (Kernel n) :=
  match e.2, e.2.plain with
  | _, some op => s.lift (e.1, op) s.vm
  | .spawnInit, _ => s.allocStack e.1
  | .spawnCopy, _ => s.copySpace L e.1
  | .exit, _ => s.exit L e.1
  | .sbrk k, _ => s.sbrk L e.1 k
  | _, none => none

abbrev run (s : Kernel n) (es : List (Fin n × KernelOp)) : Option (Kernel n) :=
  GuardedRun.run (step L) s es

def userinit (initproc : Fin n) (initcode : List UInt8) (vm : Vm) : Except Panic (Kernel n) :=
  match vm.kalloc with
  | (_, none) => .error .trap
  | (vm, some kstack) => do
    let (vm, pgdir) ← vm.setupkvm L
    match pgdir with
    | none => .error .userinitMemory
    | some pgdir =>
      let vm ← vm.inituvm pgdir initcode
      pure ⟨Procs.userinit initproc kstack pgdir, vm⟩

inductive KStep (s : Kernel n) (i : Fin n) : KernelOp → Kernel n → Prop
  | plain {op : KernelOp} {p : ProcOp} {procs : Procs n} (hop : op.plain = some p)
      (h : Procs.PStep s.procs i p procs) : KStep s i op ⟨procs, s.vm⟩
  | stackFail {vm : Vm} {procs : Procs n} (hk : s.vm.kalloc = (vm, none))
      (h : Procs.PStep s.procs i (.spawnInit none) procs) : KStep s i .spawnInit ⟨procs, vm⟩
  | stack {vm : Vm} {kstack : Nat} {procs : Procs n} (hk : s.vm.kalloc = (vm, some kstack))
      (h : Procs.PStep s.procs i (.spawnInit (some kstack)) procs) :
      KStep s i .spawnInit ⟨procs, vm⟩
  | copyFail {k : Spawn} {np : Fin n} {vm vm' : Vm} {procs : Procs n}
      (hs : (s.procs.ptable i).state = .running) (hpc : s.procs.pc i = .spawnCopy k np)
      (hcopy : s.vm.copyuvm L (s.procs.ptable i).pgdir (s.procs.ptable i).sz = .ok (vm, none))
      (hfree : vm.kfree L (s.procs.ptable np).kstack = .ok vm')
      (h : Procs.PStep s.procs i (.spawnCopy none) procs) : KStep s i .spawnCopy ⟨procs, vm'⟩
  | copy {k : Spawn} {np : Fin n} {pgdir : Nat} {vm : Vm}
      (hs : (s.procs.ptable i).state = .running) (hpc : s.procs.pc i = .spawnCopy k np)
      (hcopy : s.vm.copyuvm L (s.procs.ptable i).pgdir (s.procs.ptable i).sz =
        .ok (vm, some pgdir)) :
      KStep s i .spawnCopy ⟨(s.procs.install np pgdir k).goto i (Procs.afterCopy np k), vm⟩
  | exit {vm : Vm} {procs : Procs n} (hstacks : s.exitStacks L i = .ok vm)
      (h : Procs.PStep s.procs i .exit procs) : KStep s i .exit ⟨procs, vm⟩
  | sbrk {k : Int} {vm : Vm} {sz : Option Nat} (hs : (s.procs.ptable i).state = .running)
      (hpc : s.procs.pc i = .user)
      (hgrow : s.vm.growproc L (s.procs.ptable i).pgdir (s.procs.ptable i).sz k = .ok (vm, sz)) :
      KStep s i (.sbrk k) (s.resize i vm sz)

theorem lift_pstep {s t : Kernel n} {i : Fin n} {op : ProcOp} {vm : Vm}
    (h : s.lift (i, op) vm = some t) :
    ∃ procs, Procs.PStep s.procs i op procs ∧ t = ⟨procs, vm⟩ := by
  unfold lift at h
  obtain ⟨procs, hstep, rfl⟩ := Option.map_eq_some_iff.mp h
  exact ⟨procs, Procs.step_pstep hstep, rfl⟩

theorem copySpace_ok {s : Kernel n} {i np : Fin n} {k : Spawn} {vm : Vm} {pgdir : Nat}
    (hs : (s.procs.ptable i).state = .running) (hpc : s.procs.pc i = .spawnCopy k np)
    (hcopy : s.vm.copyuvm L (s.procs.ptable i).pgdir (s.procs.ptable i).sz =
      .ok (vm, some pgdir)) : s.copySpace L i =
      some ⟨(s.procs.install np pgdir k).goto i (Procs.afterCopy np k), vm⟩ := by
  rw [copySpace, hs, hpc]
  dsimp only
  rw [hcopy]

theorem copySpace_kstep {s t : Kernel n} {i : Fin n} (h : s.copySpace L i = some t) :
    KStep L s i .spawnCopy t := by
  unfold copySpace at h
  split at h
  · rename_i k np hs hpc
    split at h
    · rename_i vm pgdir hcopy
      cases h
      exact .copy hs hpc hcopy
    · rename_i vm hcopy
      split at h
      · rename_i vm' hfree
        obtain ⟨procs, hstep, rfl⟩ := lift_pstep h
        exact .copyFail hs hpc hcopy hfree hstep
      · cases h
    · cases h
  · cases h

theorem step_kstep {s t : Kernel n} {e : Fin n × KernelOp} (h : s.step L e = some t) :
    KStep L s e.1 e.2 t := by
  obtain ⟨i, op⟩ := e
  unfold step at h
  split at h
  · rename_i p hop
    obtain ⟨procs, hstep, rfl⟩ := lift_pstep h
    exact .plain hop hstep
  · rename_i hop _
    dsimp only at hop
    subst hop
    dsimp only [allocStack] at h
    obtain ⟨procs, hstep, rfl⟩ := lift_pstep h
    cases hk : s.vm.kalloc with
    | mk vm r =>
      rw [hk] at hstep
      cases r with
      | none => exact .stackFail hk hstep
      | some kstack => exact .stack hk hstep
  · rename_i hop _
    dsimp only at hop
    subst hop
    exact copySpace_kstep L h
  · rename_i hop _
    dsimp only at hop
    subst hop
    unfold exit at h
    split at h
    · rename_i vm hstacks
      obtain ⟨procs, hstep, rfl⟩ := lift_pstep h
      exact .exit hstacks hstep
    · cases h
  · rename_i k hop _
    dsimp only at hop
    subst hop
    unfold sbrk at h
    split at h
    · rename_i hs hpc
      split at h
      · rename_i vm sz hgrow
        cases h
        exact .sbrk hs hpc hgrow
      · cases h
    · cases h
  · cases h

end Kernel
end Xv6
