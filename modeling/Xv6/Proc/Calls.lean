import Xv6.Exec.Safe
import Xv6.Proc.Books

namespace Xv6

-- What exec is given. A file has a 32-bit size and the strings lie in user memory.
structure Program where
  file : Option (List UInt8)
  path : List UInt8
  argv : List (List UInt8)
  sized : ∀ f ∈ file, f.length < 2 ^ 32
  short : ∀ arg ∈ argv, arg.length < kernbase

inductive Call where
  | schedule
  | yield
  | fork
  | exec (program : Program)
  | sbrk (n : Int)
  | exit
  | wait

namespace Calls

variable {n : Nat} (L : Layout)

def fork (s : Kernel n) (i : Fin n) : Option (Kernel n) :=
  match allocSlot s.procs.ptable with
  | none => some ⟨s.procs.returns i (-1), s.vm⟩
  | some np =>
    match s.vm.kalloc with
    | (vm, none) => some ⟨((s.procs.allocproc np).discard np).returns i (-1), vm⟩
    | (vm, some kstack) =>
      let procs := (s.procs.allocproc np).prepare np kstack .fork
      match vm.copyuvm L (s.procs.ptable i).pgdir (s.procs.ptable i).sz with
      | .error _ => none
      | .ok (vm, none) =>
        match vm.kfree L kstack with
        | .error _ => none
        | .ok vm => some ⟨(procs.discardCopy np).returns i (-1), vm⟩
      | .ok (vm, some pgdir) =>
        let procs := (procs.install np pgdir .fork).publishFork i np
        some ⟨(procs.setSlot np { procs.ptable np with sleepingThreads := fun _ => none }).returns i
          (procs.ptable np).pid, vm⟩

def exec (s : Kernel n) (i : Fin n) (program : Program) : Option (Kernel n) :=
  let p := s.procs.ptable i
  match Xv6.exec L s.vm ⟨p.pgdir, p.sz, 0, 0, []⟩ program.file program.path program.argv with
  | .error _ => none
  | .ok r =>
    if r.ret = 0 then some ⟨(s.procs.commit i r.proc.pgdir r.proc.sz).returns i 0, r.vm⟩
    else some ⟨s.procs.returns i r.ret, r.vm⟩

-- exit is kthread_exit, with New_exit for the last thread.
def exit (s : Kernel n) (i : Fin n) : Option (Kernel n) :=
  match s.exitStacks L i, s.procs.exitSection i with
  | .ok vm, some procs =>
    if threadsCounter (wakeJoiners s.procs.ptable i) i = 1 then
      (procs.newExitSection i).map fun procs => ⟨procs, vm⟩
    else some ⟨procs, vm⟩
  | _, _ => none

def wait (s : Kernel n) (i : Fin n) : Option (Kernel n) :=
  match zombieChild s.procs.ptable i with
  | none => some ⟨s.procs.waitSection i, s.vm⟩
  | some z =>
    match s.vm.kfree L (s.procs.ptable z).kstack with
    | .error _ => none
    | .ok vm =>
      match vm.freevm L (s.procs.ptable z).pgdir with
      | .error _ => none
      | .ok vm => some ⟨s.procs.waitSection i, vm⟩

def schedule (s : Kernel n) (i : Fin n) : Option (Kernel n) :=
  match s.procs.pc i with
  | .waitSleep => wait L ⟨s.procs.awake i, s.vm⟩ i
  | _ => some ⟨s.procs.setTable (setState s.procs.ptable i .running), s.vm⟩

-- Calls do not interleave; a panic stops the machine.
def step (s : Kernel n) (e : Fin n × Call) : Option (Kernel n) :=
  match (s.procs.ptable e.1).state, e.2 with
  | .runnable, .schedule => schedule L s e.1
  | .running, .yield => some ⟨s.procs.setTable (setState s.procs.ptable e.1 .runnable), s.vm⟩
  | .running, .fork => fork L s e.1
  | .running, .exec program => exec L s e.1 program
  | .running, .sbrk k => s.sbrk L e.1 k
  | .running, .exit => exit L s e.1
  | .running, .wait => wait L s e.1
  | _, _ => none

abbrev run (s : Kernel n) (es : List (Fin n × Call)) : Option (Kernel n) :=
  GuardedRun.run (step L) s es

def held (pt : Ptable n) (q : Fin n) : Option Holding :=
  if (pt q).state = .unused then none else some ⟨(pt q).kstack, (pt q).pgdir, (pt q).sz⟩

-- Every page that kalloc and kfree handle has exactly one use.
def Conserved (managed : Nat → Prop) (s : Kernel n) : Prop :=
  ∀ p, managed p → ∃! u, UsedFor s.vm (held s.procs.ptable) p u

def PagesFit (s : Kernel n) : Fin n × Call → Prop
  | (i, .fork) => allocSlot s.procs.ptable = none ∨ s.vm.freelist = [] ∨
      Vm.CopyFits (s.vm.freelist.length - 1) (s.procs.ptable i).sz
  | (_, .exec program) => SetupFits s.vm.freelist.length program.file ∧
      ExecFits Loading.Keeps s.vm.freelist.length program.file program.argv
  | (i, .sbrk k) => s.vm.GrowthFits (s.procs.ptable i).pgdir (s.procs.ptable i).sz k
  | _ => True

end Calls
end Xv6
