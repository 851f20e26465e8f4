import Xv6.File.Basic
import Xv6.Proc.Groups

namespace Xv6

inductive Goal where
  | open
  | chdir
  deriving DecidableEq, Repr

inductive Drop where
  | file (f : Fin nfile)
  | inode (j : Fin ninode)
  deriving DecidableEq

-- Where a slot stands in a system call on files: `drops` lists the references still to be given
-- back, first to last, before the call returns.
inductive FilePc where
  | idle
  | walk (g : Goal) (ip : Fin ninode)
  | walkNext (g : Goal) (ip next : Fin ninode)
  | openStore (f : Fin nfile) (ip : Fin ninode) (fd : Fin nofile)
  | chdirStore (ip : Fin ninode)
  | pipeNext (f : Fin nfile)
  | drops (ds : List Drop) (r : Int)
  | forkDup (k : Nat)
  | exitPut (fd : Fin nofile) (ip : Option (Fin ninode))
  | exitStore
  | exited
  deriving DecidableEq

inductive FileOp where
  | proc (op : ProcOp)
  | lookup (g : Goal) (root : Bool)
  | next (inum : Nat)
  | putParent
  | lookupFail
  | openAlloc
  | openStore
  | chdirPut
  | chdirStore
  | dup (fd : Fin nofile)
  | close (fd : Fin nofile)
  | pipe
  | pipeNext (mem : Bool)
  | drop
  | forkDup
  | exitClose
  | exitPut
  | exitCwd
  | exitStore
  deriving DecidableEq

-- History: `opened` counts how often a file was allocated, `since` is that count when a descriptor
-- was installed, `home` the inode number when a cwd was, `kills` the arguments of kill so far.
structure Files (n : Nat) where
  procs : Procs n
  ofile : Fin n → Ofile
  cwd : Fin n → Option (Fin ninode)
  ftable : Ftable
  icache : Icache
  fpc : Fin n → FilePc
  opened : Fin nfile → Nat
  since : Fin n → Fin nofile → Nat
  home : Fin n → Nat
  kills : List Int

namespace Files

variable {n : Nat}

@[simp] def goto (s : Files n) (i : Fin n) (x : FilePc) : Files n :=
  { s with fpc := Function.update s.fpc i x }

@[simp] def returns (s : Files n) (i : Fin n) (r : Int) : Files n :=
  { s with procs := s.procs.returns i r, fpc := Function.update s.fpc i .idle }

@[simp] def setIcache (s : Files n) (ic : Icache) : Files n := { s with icache := ic }

@[simp] def setFtable (s : Files n) (ft : Ftable) : Files n := { s with ftable := ft }

@[simp] def setCwd (s : Files n) (i : Fin n) (ip : Option (Fin ninode)) : Files n :=
  { s with cwd := Function.update s.cwd i ip }

@[simp] def setHome (s : Files n) (i : Fin n) (ip : Fin ninode) : Files n :=
  { s with home := Function.update s.home i (s.icache ip).inum }

def install (s : Files n) (p : Fin n) (fd : Fin nofile) (f : Fin nfile) : Files n :=
  { s with
    ofile := Function.update s.ofile p (Function.update (s.ofile p) fd (some f))
    since := Function.update s.since p (Function.update (s.since p) fd (s.opened f)) }

def clear (s : Files n) (p : Fin n) (fd : Fin nofile) : Files n :=
  { s with ofile := Function.update s.ofile p (Function.update (s.ofile p) fd none) }

def allocated (s : Files n) (f : Fin nfile) (ft : Ftable) : Files n :=
  { s with ftable := ft, opened := Function.update s.opened f (s.opened f + 1) }

def setType (ft : Ftable) (f : Fin nfile) (type : FileType) (ip : Option (Fin ninode)) : Ftable :=
  Function.update ft f { ft f with type := type, ip := ip }

def inherit (s : Files n) (i np : Fin n) : Files n :=
  { s with
    ofile := Function.update s.ofile np fun fd => (s.ofile i fd).or (s.ofile np fd)
    since := Function.update s.since np fun fd =>
      match s.ofile i fd with
      | some f => s.opened f
      | none => s.since np fd
    cwd := Function.update s.cwd np (s.cwd i)
    home := Function.update s.home np (s.home i) }

def openFd (s : Files n) (i : Fin n) : Option (Fin nofile × Fin nfile) :=
  match SlotScan.firstSlot (fun fd => decide (s.ofile i fd ≠ none)) with
  | some fd => (s.ofile i fd).map fun f => (fd, f)
  | none => none

def lookup (s : Files n) (i : Fin n) : Bool → Option (Fin ninode × Icache)
  | true => iget s.icache rootino
  | false => (s.cwd i).map fun ip => (ip, idup s.icache ip)

def openAlloc (s : Files n) (i : Fin n) (ip : Fin ninode) : Files n :=
  match filealloc s.ftable with
  | none => s.goto i (.drops [.inode ip] (-1))
  | some (f, ft) =>
    match fdalloc (s.ofile i) with
    | none => (s.allocated f ft).goto i (.drops [.file f, .inode ip] (-1))
    | some fd => ((s.allocated f ft).install i fd f).goto i (.openStore f ip fd)

def dup (s : Files n) (i : Fin n) (fd : Fin nofile) : Option (Files n) :=
  match s.ofile i fd with
  | none => some (s.returns i (-1))
  | some f =>
    match fdalloc (s.ofile i) with
    | none => some (s.returns i (-1))
    | some fd' => (filedup s.ftable f).map fun ft => ((s.setFtable ft).install i fd' f).returns i fd'

def close (s : Files n) (i : Fin n) (fd : Fin nofile) : Files n :=
  match s.ofile i fd with
  | none => s.returns i (-1)
  | some f => (s.clear i fd).goto i (.drops [.file f] 0)

def pipe (s : Files n) (i : Fin n) : Files n :=
  match filealloc s.ftable with
  | none => s.returns i (-1)
  | some (f, ft) => (s.allocated f ft).goto i (.pipeNext f)

def pipeFds (s : Files n) (i : Fin n) (f0 f1 : Fin nfile) : Files n :=
  match fdalloc (s.ofile i) with
  | none => s.goto i (.drops [.file f0, .file f1] (-1))
  | some fd0 =>
    match fdalloc ((s.install i fd0 f0).ofile i) with
    | none => ((s.install i fd0 f0).clear i fd0).goto i (.drops [.file f0, .file f1] (-1))
    | some fd1 => ((s.install i fd0 f0).install i fd1 f1).returns i 0

def pipeNext (s : Files n) (i : Fin n) (f0 : Fin nfile) (mem : Bool) : Files n :=
  match filealloc s.ftable with
  | none => s.goto i (.drops [.file f0] (-1))
  | some (f1, ft) =>
    if mem then
      (s.allocated f1 (setType (setType ft f0 .pipe (ft f0).ip) f1 .pipe (ft f1).ip)).pipeFds i f0 f1
    else (s.allocated f1 ft).goto i (.drops [.file f0, .file f1] (-1))

def drop (s : Files n) (i : Fin n) : List Drop → Int → Option (Files n)
  | [], r => some (s.returns i r)
  | .inode j :: ds, r => some ((s.setIcache (iput s.icache j)).goto i (.drops ds r))
  | .file f :: ds, r =>
    (fileclose s.ftable f).map fun x =>
      (s.setFtable x.1).goto i (.drops (x.2.toList.map .inode ++ ds) r)

def forkDup (s : Files n) (i np : Fin n) (k : Nat) : Option (Files n) :=
  if hk : k < nofile then
    match s.ofile i ⟨k, hk⟩ with
    | none => some (s.goto i (.forkDup (k + 1)))
    | some f =>
      (filedup s.ftable f).map fun ft =>
        ((s.setFtable ft).install np ⟨k, hk⟩ f).goto i (.forkDup (k + 1))
  else none

def exitClose (s : Files n) (i : Fin n) : Option (Files n) :=
  match s.openFd i with
  | none => none
  | some (fd, f) =>
    (fileclose s.ftable f).map fun x =>
      if (s.ftable f).ref - 1 > 0 then (s.setFtable x.1).clear i fd
      else (s.setFtable x.1).goto i (.exitPut fd x.2)

def exitPut (s : Files n) (i : Fin n) (fd : Fin nofile) : Option (Fin ninode) → Files n
  | none => (s.clear i fd).goto i .idle
  | some ip => ((s.setIcache (iput s.icache ip)).clear i fd).goto i .idle

def exitCwd (s : Files n) (i : Fin n) : Option (Files n) :=
  if s.openFd i = none then
    (s.cwd i).map fun ip => (s.setIcache (iput s.icache ip)).goto i .exitStore
  else none

def exec (s : Files n) (i : Fin n) : FileOp → ProcPc n → FilePc → Option (Files n)
  | .lookup g root, .user, .idle =>
    (s.lookup i root).map fun x => (s.setIcache x.2).goto i (.walk g x.1)
  | .next inum, .user, .walk g ip =>
    (iget s.icache inum).map fun x => (s.setIcache x.2).goto i (.walkNext g ip x.1)
  | .putParent, .user, .walkNext g ip next =>
    some ((s.setIcache (iput s.icache ip)).goto i (.walk g next))
  | .lookupFail, .user, .walk _ ip => some ((s.setIcache (iput s.icache ip)).returns i (-1))
  | .openAlloc, .user, .walk .open ip => some (s.openAlloc i ip)
  | .openStore, .user, .openStore f ip fd =>
    some ((s.setFtable (setType s.ftable f .inode (some ip))).returns i fd)
  | .chdirPut, .user, .walk .chdir ip =>
    (s.cwd i).map fun old => (s.setIcache (iput s.icache old)).goto i (.chdirStore ip)
  | .chdirStore, .user, .chdirStore ip =>
    some (((s.setCwd i (some ip)).setHome i ip).returns i 0)
  | .dup fd, .user, .idle => s.dup i fd
  | .close fd, .user, .idle => some (s.close i fd)
  | .pipe, .user, .idle => some (s.pipe i)
  | .pipeNext mem, .user, .pipeNext f => some (s.pipeNext i f mem)
  | .drop, .user, .drops ds r => s.drop i ds r
  | .forkDup, .forkPublish np, .idle => s.forkDup i np 0
  | .forkDup, .forkPublish np, .forkDup k => s.forkDup i np k
  | .exitClose, .newExit, .idle => s.exitClose i
  | .exitPut, .newExit, .exitPut fd ip => some (s.exitPut i fd ip)
  | .exitCwd, .newExit, .idle => s.exitCwd i
  | .exitStore, .newExit, .exitStore => some ((s.setCwd i none).goto i .exited)
  | _, _, _ => none

def setProcs (s : Files n) (procs : Procs n) : Files n := { s with procs := procs }

-- The file part of a ptable operation; a slot in the middle of a call on files is only switched.
def procEffect (s : Files n) (i : Fin n) : ProcOp → ProcPc n → FilePc → Option (Files n)
  | .schedule, _, _ => some s
  | .yield, _, _ => some s
  | .forkPublish, .forkPublish np, .forkDup k =>
    if k = nofile then
      (s.cwd i).map fun ip =>
        (((s.setIcache (idup s.icache ip)).setCwd np (some ip)).setHome np ip).goto i .idle
    else none
  | .forkPublish, _, _ => none
  | .createPublish, .createPublish np _, .idle => some (s.inherit i np)
  | .newExit, _, .exited => some (s.goto i .idle)
  | .newExit, _, _ => none
  | .kill pid, _, .idle => some { s with kills := pid :: s.kills }
  | _, _, .idle => some s
  | _, _, _ => none

def step (s : Files n) (e : Fin n × FileOp) : Option (Files n) :=
  match e.2 with
  | .proc op =>
    (s.procs.step (e.1, op)).bind fun procs =>
      (s.procEffect e.1 op (s.procs.pc e.1) (s.fpc e.1)).map fun t => t.setProcs procs
  | op =>
    if (s.procs.ptable e.1).state = .running then s.exec e.1 op (s.procs.pc e.1) (s.fpc e.1)
    else none

abbrev run (s : Files n) (es : List (Fin n × FileOp)) : Option (Files n) :=
  GuardedRun.run step s es

structure Boot (s : Files n) : Prop where
  procs : s.procs.Boot
  ofile : s.ofile = fun _ _ => none
  cwd : s.cwd = Function.update (fun _ => none) s.procs.initproc (some 0)
  ftable : s.ftable = fun _ => ⟨.none, 0, none⟩
  icache : s.icache = Function.update (fun _ => ⟨0, 0⟩) 0 ⟨rootino, 1⟩
  fpc : s.fpc = fun _ => .idle
  home : s.home s.procs.initproc = rootino
  kills : s.kills = []

def userinit (initproc : Fin n) (kstack pgdir : Nat) : Files n where
  procs := Procs.userinit initproc kstack pgdir
  ofile := fun _ _ => none
  cwd := Function.update (fun _ => none) initproc (some 0)
  ftable := fun _ => ⟨.none, 0, none⟩
  icache := Function.update (fun _ => ⟨0, 0⟩) 0 ⟨rootino, 1⟩
  fpc := fun _ => .idle
  opened := fun _ => 0
  since := fun _ _ => 0
  home := fun _ => rootino
  kills := []

theorem userinit_boot (initproc : Fin n) (kstack : Nat) {pgdir : Nat} (h : pgdir ≠ 0) :
    (userinit initproc kstack pgdir).Boot :=
  ⟨Procs.userinit_boot initproc kstack h, rfl, rfl, rfl, rfl, rfl, rfl, rfl⟩

inductive FStep (s : Files n) (i : Fin n) : FileOp → Files n → Prop
  | proc {op : ProcOp} {t : Files n} {procs : Procs n} (hp : Procs.PStep s.procs i op procs)
      (he : s.procEffect i op (s.procs.pc i) (s.fpc i) = some t) :
      FStep s i (.proc op) (t.setProcs procs)
  | lookup {g : Goal} {root : Bool} {ip : Fin ninode} {ic : Icache}
      (hpc : s.procs.pc i = .user) (hf : s.fpc i = .idle) (hl : s.lookup i root = some (ip, ic)) :
      FStep s i (.lookup g root) ((s.setIcache ic).goto i (.walk g ip))
  | next {g : Goal} {inum : Nat} {ip next : Fin ninode} {ic : Icache}
      (hpc : s.procs.pc i = .user) (hf : s.fpc i = .walk g ip)
      (hl : iget s.icache inum = some (next, ic)) :
      FStep s i (.next inum) ((s.setIcache ic).goto i (.walkNext g ip next))
  | putParent {g : Goal} {ip next : Fin ninode} (hpc : s.procs.pc i = .user)
      (hf : s.fpc i = .walkNext g ip next) :
      FStep s i .putParent ((s.setIcache (iput s.icache ip)).goto i (.walk g next))
  | lookupFail {g : Goal} {ip : Fin ninode} (hpc : s.procs.pc i = .user)
      (hf : s.fpc i = .walk g ip) :
      FStep s i .lookupFail ((s.setIcache (iput s.icache ip)).returns i (-1))
  | openFull {ip : Fin ninode} (hpc : s.procs.pc i = .user) (hf : s.fpc i = .walk .open ip) :
      FStep s i .openAlloc (s.goto i (.drops [.inode ip] (-1)))
  | openNoFd {ip : Fin ninode} {f : Fin nfile} {ft : Ftable} (hpc : s.procs.pc i = .user)
      (hf : s.fpc i = .walk .open ip) (ha : filealloc s.ftable = some (f, ft)) :
      FStep s i .openAlloc ((s.allocated f ft).goto i (.drops [.file f, .inode ip] (-1)))
  | openAlloc {ip : Fin ninode} {f : Fin nfile} {ft : Ftable} {fd : Fin nofile}
      (hpc : s.procs.pc i = .user) (hf : s.fpc i = .walk .open ip)
      (ha : filealloc s.ftable = some (f, ft)) (hfd : fdalloc (s.ofile i) = some fd) :
      FStep s i .openAlloc (((s.allocated f ft).install i fd f).goto i (.openStore f ip fd))
  | openStore {f : Fin nfile} {ip : Fin ninode} {fd : Fin nofile} (hpc : s.procs.pc i = .user)
      (hf : s.fpc i = .openStore f ip fd) :
      FStep s i .openStore ((s.setFtable (setType s.ftable f .inode (some ip))).returns i fd)
  | chdirPut {ip old : Fin ninode} (hpc : s.procs.pc i = .user) (hf : s.fpc i = .walk .chdir ip)
      (hold : s.cwd i = some old) :
      FStep s i .chdirPut ((s.setIcache (iput s.icache old)).goto i (.chdirStore ip))
  | chdirStore {ip : Fin ninode} (hpc : s.procs.pc i = .user) (hf : s.fpc i = .chdirStore ip) :
      FStep s i .chdirStore (((s.setCwd i (some ip)).setHome i ip).returns i 0)
  | refused {op : FileOp} (hpc : s.procs.pc i = .user) (hf : s.fpc i = .idle)
      (hop : ∀ op', op ≠ .proc op') :
      FStep s i op (s.returns i (-1))
  | dup {fd fd' : Fin nofile} {f : Fin nfile} {ft : Ftable} (hpc : s.procs.pc i = .user)
      (hf : s.fpc i = .idle) (hfd : s.ofile i fd = some f) (hfd' : fdalloc (s.ofile i) = some fd')
      (hd : filedup s.ftable f = some ft) :
      FStep s i (.dup fd) (((s.setFtable ft).install i fd' f).returns i fd')
  | close {fd : Fin nofile} {f : Fin nfile} (hpc : s.procs.pc i = .user) (hf : s.fpc i = .idle)
      (hfd : s.ofile i fd = some f) :
      FStep s i (.close fd) ((s.clear i fd).goto i (.drops [.file f] 0))
  | pipe {f : Fin nfile} {ft : Ftable} (hpc : s.procs.pc i = .user) (hf : s.fpc i = .idle)
      (ha : filealloc s.ftable = some (f, ft)) :
      FStep s i .pipe ((s.allocated f ft).goto i (.pipeNext f))
  | pipeFull {mem : Bool} {f : Fin nfile} (hpc : s.procs.pc i = .user)
      (hf : s.fpc i = .pipeNext f) :
      FStep s i (.pipeNext mem) (s.goto i (.drops [.file f] (-1)))
  | pipeFail {mem : Bool} {f f1 : Fin nfile} {ft ft' : Ftable} (hpc : s.procs.pc i = .user)
      (hf : s.fpc i = .pipeNext f) (ha : filealloc s.ftable = some (f1, ft))
      (hft : ft' = ft ∨ ft' = setType (setType ft f .pipe (ft f).ip) f1 .pipe (ft f1).ip) :
      FStep s i (.pipeNext mem) ((s.allocated f1 ft').goto i (.drops [.file f, .file f1] (-1)))
  | pipeUndo {mem : Bool} {f f1 : Fin nfile} {ft ft' : Ftable} {fd0 : Fin nofile}
      (hpc : s.procs.pc i = .user) (hf : s.fpc i = .pipeNext f)
      (ha : filealloc s.ftable = some (f1, ft))
      (hft : ft' = setType (setType ft f .pipe (ft f).ip) f1 .pipe (ft f1).ip)
      (h0 : fdalloc (s.ofile i) = some fd0) :
      FStep s i (.pipeNext mem)
        ((((s.allocated f1 ft').install i fd0 f).clear i fd0).goto i
          (.drops [.file f, .file f1] (-1)))
  | pipeNext {mem : Bool} {f f1 : Fin nfile} {ft ft' : Ftable} {fd0 fd1 : Fin nofile}
      (hpc : s.procs.pc i = .user) (hf : s.fpc i = .pipeNext f)
      (ha : filealloc s.ftable = some (f1, ft))
      (hft : ft' = setType (setType ft f .pipe (ft f).ip) f1 .pipe (ft f1).ip)
      (h0 : fdalloc (s.ofile i) = some fd0)
      (h1 : fdalloc (((s.allocated f1 ft').install i fd0 f).ofile i) = some fd1) :
      FStep s i (.pipeNext mem)
        ((((s.allocated f1 ft').install i fd0 f).install i fd1 f1).returns i 0)
  | dropped {r : Int} (hpc : s.procs.pc i = .user) (hf : s.fpc i = .drops [] r) :
      FStep s i .drop (s.returns i r)
  | dropInode {j : Fin ninode} {ds : List Drop} {r : Int} (hpc : s.procs.pc i = .user)
      (hf : s.fpc i = .drops (.inode j :: ds) r) :
      FStep s i .drop ((s.setIcache (iput s.icache j)).goto i (.drops ds r))
  | dropFile {f : Fin nfile} {ds : List Drop} {r : Int} {ft : Ftable} {ip : Option (Fin ninode)}
      (hpc : s.procs.pc i = .user) (hf : s.fpc i = .drops (.file f :: ds) r)
      (hc : fileclose s.ftable f = some (ft, ip)) :
      FStep s i .drop ((s.setFtable ft).goto i (.drops (ip.toList.map .inode ++ ds) r))
  | forkSkip {np : Fin n} {k : Nat} {hk : k < nofile} (hpc : s.procs.pc i = .forkPublish np)
      (hf : s.fpc i = .forkDup k ∨ s.fpc i = .idle ∧ k = 0) (hfd : s.ofile i ⟨k, hk⟩ = none) :
      FStep s i .forkDup (s.goto i (.forkDup (k + 1)))
  | forkDup {np : Fin n} {k : Nat} {hk : k < nofile} {f : Fin nfile} {ft : Ftable}
      (hpc : s.procs.pc i = .forkPublish np)
      (hf : s.fpc i = .forkDup k ∨ s.fpc i = .idle ∧ k = 0) (hfd : s.ofile i ⟨k, hk⟩ = some f)
      (hd : filedup s.ftable f = some ft) :
      FStep s i .forkDup (((s.setFtable ft).install np ⟨k, hk⟩ f).goto i (.forkDup (k + 1)))
  | exitClose {fd : Fin nofile} {f : Fin nfile} {ft : Ftable} {ip : Option (Fin ninode)}
      (hpc : s.procs.pc i = .newExit) (hf : s.fpc i = .idle) (ho : s.openFd i = some (fd, f))
      (hc : fileclose s.ftable f = some (ft, ip)) (hr : (s.ftable f).ref - 1 > 0) :
      FStep s i .exitClose ((s.setFtable ft).clear i fd)
  | exitCloseLast {fd : Fin nofile} {f : Fin nfile} {ft : Ftable} {ip : Option (Fin ninode)}
      (hpc : s.procs.pc i = .newExit) (hf : s.fpc i = .idle) (ho : s.openFd i = some (fd, f))
      (hc : fileclose s.ftable f = some (ft, ip)) (hr : ¬ (s.ftable f).ref - 1 > 0) :
      FStep s i .exitClose ((s.setFtable ft).goto i (.exitPut fd ip))
  | exitPut {fd : Fin nofile} {ip : Option (Fin ninode)} (hpc : s.procs.pc i = .newExit)
      (hf : s.fpc i = .exitPut fd ip) : FStep s i .exitPut (s.exitPut i fd ip)
  | exitCwd {ip : Fin ninode} (hpc : s.procs.pc i = .newExit) (hf : s.fpc i = .idle)
      (ho : s.openFd i = none) (hc : s.cwd i = some ip) :
      FStep s i .exitCwd ((s.setIcache (iput s.icache ip)).goto i .exitStore)
  | exitStore (hpc : s.procs.pc i = .newExit) (hf : s.fpc i = .exitStore) :
      FStep s i .exitStore ((s.setCwd i none).goto i .exited)

theorem openFd_some {s : Files n} {i : Fin n} {fd : Fin nofile} {f : Fin nfile}
    (h : s.openFd i = some (fd, f)) : s.ofile i fd = some f := by
  unfold openFd at h
  split at h
  · obtain ⟨g, hg, he⟩ := Option.map_eq_some_iff.mp h
    cases he
    exact hg
  · cases h

theorem openFd_none {s : Files n} {i : Fin n} (h : s.openFd i = none) (fd : Fin nofile) :
    s.ofile i fd = none := by
  unfold openFd at h
  split at h
  · rename_i fd' hfd
    have := of_decide_eq_true (SlotScan.firstSlot_some hfd)
    exact absurd (Option.map_eq_none_iff.mp h) this
  · rename_i hnone
    simpa using SlotScan.firstSlot_none.mp hnone fd

theorem lookup_takes {s : Files n} {i : Fin n} {root : Bool} {ip : Fin ninode} {ic : Icache}
    (h : s.lookup i root = some (ip, ic)) :
    Takes s.icache ip ic ∨ s.cwd i = some ip ∧ ic = idup s.icache ip := by
  cases root with
  | true => exact Or.inl (iget_takes h)
  | false =>
    obtain ⟨j, hj, he⟩ := Option.map_eq_some_iff.mp h
    cases he
    exact Or.inr ⟨hj, rfl⟩

theorem openAlloc_fstep {s : Files n} {i : Fin n} {ip : Fin ninode} (hpc : s.procs.pc i = .user)
    (hf : s.fpc i = .walk .open ip) : FStep s i .openAlloc (s.openAlloc i ip) := by
  unfold Files.openAlloc
  split
  · exact .openFull hpc hf
  · rename_i f ft ha
    split
    · exact .openNoFd hpc hf ha
    · rename_i fd hfd
      exact .openAlloc hpc hf ha hfd

theorem dup_fstep {s t : Files n} {i : Fin n} {fd : Fin nofile} (hpc : s.procs.pc i = .user)
    (hf : s.fpc i = .idle) (h : s.dup i fd = some t) : FStep s i (.dup fd) t := by
  unfold Files.dup at h
  split at h
  · cases h
    exact .refused hpc hf (by simp)
  · rename_i f hfd
    split at h
    · cases h
      exact .refused hpc hf (by simp)
    · rename_i fd' hfd'
      obtain ⟨ft, hd, rfl⟩ := Option.map_eq_some_iff.mp h
      exact .dup hpc hf hfd hfd' hd

theorem pipeNext_fstep {s : Files n} {i : Fin n} {f : Fin nfile} {mem : Bool}
    (hpc : s.procs.pc i = .user) (hf : s.fpc i = .pipeNext f) :
    FStep s i (.pipeNext mem) (s.pipeNext i f mem) := by
  unfold Files.pipeNext
  split
  · exact .pipeFull hpc hf
  · rename_i f1 ft ha
    split
    · unfold pipeFds
      split
      · exact .pipeFail hpc hf ha (Or.inr rfl)
      · rename_i fd0 h0
        split
        · exact .pipeUndo hpc hf ha rfl h0
        · rename_i fd1 h1
          exact .pipeNext hpc hf ha rfl h0 h1
    · exact .pipeFail hpc hf ha (Or.inl rfl)

theorem drop_fstep {s t : Files n} {i : Fin n} {ds : List Drop} {r : Int}
    (hpc : s.procs.pc i = .user) (hf : s.fpc i = .drops ds r) (h : s.drop i ds r = some t) :
    FStep s i .drop t := by
  cases ds with
  | nil =>
    cases h
    exact .dropped hpc hf
  | cons d ds =>
    cases d with
    | inode j =>
      cases h
      exact .dropInode hpc hf
    | file f =>
      obtain ⟨⟨ft, ip⟩, hc, rfl⟩ := Option.map_eq_some_iff.mp h
      exact .dropFile hpc hf hc

theorem forkDup_fstep {s t : Files n} {i np : Fin n} {k : Nat}
    (hpc : s.procs.pc i = .forkPublish np) (hf : s.fpc i = .forkDup k ∨ s.fpc i = .idle ∧ k = 0)
    (h : s.forkDup i np k = some t) : FStep s i .forkDup t := by
  unfold Files.forkDup at h
  split at h
  · rename_i hk
    split at h
    · rename_i hfd
      cases h
      exact .forkSkip hpc hf hfd
    · rename_i f hfd
      obtain ⟨ft, hd, rfl⟩ := Option.map_eq_some_iff.mp h
      exact .forkDup hpc hf hfd hd
  · cases h

theorem exitClose_fstep {s t : Files n} {i : Fin n} (hpc : s.procs.pc i = .newExit)
    (hf : s.fpc i = .idle) (h : s.exitClose i = some t) : FStep s i .exitClose t := by
  unfold Files.exitClose at h
  split at h
  · cases h
  · rename_i fd f ho
    obtain ⟨⟨ft, ip⟩, hc, rfl⟩ := Option.map_eq_some_iff.mp h
    split
    · rename_i hr
      exact .exitClose hpc hf ho hc hr
    · rename_i hr
      exact .exitCloseLast hpc hf ho hc hr

theorem exitCwd_fstep {s t : Files n} {i : Fin n} (hpc : s.procs.pc i = .newExit)
    (hf : s.fpc i = .idle) (h : s.exitCwd i = some t) : FStep s i .exitCwd t := by
  unfold Files.exitCwd at h
  split at h
  · rename_i ho
    obtain ⟨ip, hc, rfl⟩ := Option.map_eq_some_iff.mp h
    exact .exitCwd hpc hf ho hc
  · cases h

theorem exec_fstep {s t : Files n} {i : Fin n} {op : FileOp}
    (h : s.exec i op (s.procs.pc i) (s.fpc i) = some t) : FStep s i op t := by
  generalize hpc : s.procs.pc i = pc at h
  generalize hf : s.fpc i = fpc at h
  unfold Files.exec at h
  split at h
  · obtain ⟨⟨ip, ic⟩, hl, rfl⟩ := Option.map_eq_some_iff.mp h
    exact .lookup hpc hf hl
  · obtain ⟨⟨next, ic⟩, hl, rfl⟩ := Option.map_eq_some_iff.mp h
    exact .next hpc hf hl
  · cases h
    exact .putParent hpc hf
  · cases h
    exact .lookupFail hpc hf
  · cases h
    exact openAlloc_fstep hpc hf
  · cases h
    exact .openStore hpc hf
  · obtain ⟨old, hold, rfl⟩ := Option.map_eq_some_iff.mp h
    exact .chdirPut hpc hf hold
  · cases h
    exact .chdirStore hpc hf
  · exact dup_fstep hpc hf h
  · cases h
    unfold Files.close
    split
    · exact .refused hpc hf (by simp)
    · rename_i f hfd
      exact .close hpc hf hfd
  · cases h
    unfold Files.pipe
    split
    · exact .refused hpc hf (by simp)
    · rename_i f ft ha
      exact .pipe hpc hf ha
  · cases h
    exact pipeNext_fstep hpc hf
  · exact drop_fstep hpc hf h
  · exact forkDup_fstep hpc (Or.inr ⟨hf, rfl⟩) h
  · exact forkDup_fstep hpc (Or.inl hf) h
  · exact exitClose_fstep hpc hf h
  · cases h
    exact .exitPut hpc hf
  · exact exitCwd_fstep hpc hf h
  · cases h
    exact .exitStore hpc hf
  · cases h

theorem step_fstep {s t : Files n} {e : Fin n × FileOp} (h : s.step e = some t) :
    FStep s e.1 e.2 t := by
  obtain ⟨i, op⟩ := e
  cases op with
  | proc op =>
    obtain ⟨procs, hp, h⟩ := Option.bind_eq_some_iff.mp h
    obtain ⟨t, he, rfl⟩ := Option.map_eq_some_iff.mp h
    exact .proc (Procs.step_pstep hp) he
  | _ =>
    simp only [step] at h
    split at h
    · exact exec_fstep h
    · cases h

theorem step_running {s t : Files n} {i : Fin n} {op : FileOp} (h : s.step (i, op) = some t)
    (hop : ∀ op', op ≠ .proc op') : (s.procs.ptable i).state = .running := by
  cases op with
  | proc op => exact absurd rfl (hop op)
  | _ =>
    simp only [step] at h
    split at h
    · rename_i hs
      exact hs
    · cases h

end Files
end Xv6
