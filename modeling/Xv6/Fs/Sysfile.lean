import Xv6.Lib.Threads
import Xv6.Fs.Basic

namespace Xv6
namespace Fs

open SlotScan Threads

-- The operations the calls of sysfile.c, file.c and proc.c are made of; each runs undisturbed,
-- under the lock of the inode it works on or the spinlock of the table it changes.
inductive Op where
  | beginTrans
  | commitTrans
  | iget (inum : Nat)
  | idupCwd
  | ilock (s : Islot)
  | iunlock (s : Islot)
  | iput (s : Islot)
  | dinode (s : Islot)
  | inum (s : Islot)
  | dirlookup (s : Islot) (name : List Nat)
  | emptyDirent (s : Islot)
  | isdirempty (s : Islot)
  | readi (s : Islot) (off n : Nat)
  | writei (s : Islot) (off : Nat) (src : List Nat)
  | ialloc (type : FileType)
  | initInode (s : Islot) (major minor : Int)
  | addLink (s : Islot) (d : Int)
  | fdopen (s : Islot) (readable writable : Bool)
  | file (f : Fin nfile)
  | fdget (fd : Fin nofile)
  | advance (f : Fin nfile) (n : Nat)
  | fdclose (fd : Fin nofile)
  | iputCwd
  | setCwd (s : Islot)
  | allocproc (c : Nat)
  | filedup (c : Nat) (fd : Fin nofile)
  | dupCwd (c : Nat)
  | publish (c : Nat)
  | notInit
  | zombie
  | panic (m : Panic)

@[reducible] def Op.Res : Op → Type
  | .iget _ | .ialloc _ => Islot
  | .idupCwd => Islot
  | .dinode _ => Dinode
  | .inum _ | .emptyDirent _ => Nat
  | .dirlookup _ _ => Option (Islot × Nat)
  | .isdirempty _ => Bool
  | .readi _ _ _ => Option (List Nat)
  | .writei _ _ _ => Option Nat
  | .fdopen _ _ _ => Option (Fin nofile)
  | .file _ => File
  | .fdget _ => Option (Fin nfile)
  | .fdclose _ => Option Islot
  | .allocproc _ => Bool
  | _ => Unit

abbrev FsProg := Prog Op Op.Res

def setFile (f : Fin nfile) (x : File) : M Unit :=
  modify fun fs => { fs with file := Function.update fs.file f x }

def setProc (p : Nat) (x : Proc) : M Unit :=
  modify fun fs => { fs with proc := Function.update fs.proc p x }

def beginTrans : M Unit := do
  let fs ← get
  if fs.busy = none then set { fs with busy := some fs.cur } else throw .blocked

def commitTrans : M Unit := modify fun fs => { fs with busy := none, lh := [] }

-- filealloc and fdalloc, and the fields of the file, which nobody else can see yet; the file goes
-- back if there is no free descriptor.
def fdopen (s : Islot) (readable writable : Bool) : M (Option (Fin nofile)) := do
  let fs ← get
  match firstSlot fun f => decide ((fs.file f).ref = 0) with
  | none => pure none
  | some f =>
    match firstSlot fun fd => ((fs.proc fs.cur).ofile fd).isNone with
    | none => pure none
    | some fd =>
      setFile f ⟨1, some s, readable, writable, 0⟩
      setProc fs.cur { fs.proc fs.cur with
        ofile := Function.update (fs.proc fs.cur).ofile fd (some f) }
      pure (some fd)

def fdclose (fd : Fin nofile) : M (Option Islot) := do
  let fs ← get
  match (fs.proc fs.cur).ofile fd with
  | none => pure none
  | some f =>
    setProc fs.cur { fs.proc fs.cur with
      ofile := Function.update (fs.proc fs.cur).ofile fd none }
    if (fs.file f).ref < 1 then panic .fileclose
    else if 1 < (fs.file f).ref then
      setFile f { fs.file f with ref := (fs.file f).ref - 1 }
      pure none
    else
      setFile f { fs.file f with ref := 0, ip := none }
      pure (fs.file f).ip

def filedup (c : Nat) (fd : Fin nofile) : M Unit := do
  let fs ← get
  match (fs.proc fs.cur).ofile fd with
  | none => pure ()
  | some f =>
    if (fs.file f).ref < 1 then panic .filedup
    else
      setFile f { fs.file f with ref := (fs.file f).ref + 1 }
      setProc c { fs.proc c with ofile := Function.update (fs.proc c).ofile fd (some f) }

def cwd : M Islot := do
  let fs ← get
  match (fs.proc fs.cur).cwd with
  | none => panic .trap
  | some s => pure s

def allocproc (c : Nat) : M Bool := do
  let fs ← get
  if (fs.proc c).used then pure false
  else
    setProc c { fs.proc c with used := true }
    pure true

def initproc : Nat := 1

def Op.run : (o : Op) → M o.Res
  | .beginTrans => Fs.beginTrans
  | .commitTrans => Fs.commitTrans
  | .iget k => Fs.iget k
  | .idupCwd => do
    let s ← cwd
    idup s
    pure s
  | .ilock s => Fs.ilock s
  | .iunlock s => Fs.iunlock s
  | .iput s => Fs.iput s
  | .dinode s => do
    let fs ← get
    pure (fs.icache s).din
  | .inum s => do
    let fs ← get
    pure (fs.icache s).inum
  | .dirlookup s name => Fs.dirlookup s name
  | .emptyDirent s => Fs.emptyDirent s
  | .isdirempty s => Fs.isdirempty s
  | .readi s off n => Fs.readi s off n
  | .writei s off src => Fs.writei s off src
  | .ialloc type => Fs.ialloc type
  | .initInode s major minor => do
    setDin s fun d =>
      { d with major := major.bmod (2 ^ 16), minor := minor.bmod (2 ^ 16), nlink := 1 }
    iupdate s
  | .addLink s k => do
    setDin s fun d => { d with nlink := (d.nlink + k).bmod (2 ^ 16) }
    iupdate s
  | .fdopen s readable writable => Fs.fdopen s readable writable
  | .file f => do
    let fs ← get
    pure (fs.file f)
  | .fdget fd => do
    let fs ← get
    pure ((fs.proc fs.cur).ofile fd)
  | .advance f n => do
    let fs ← get
    Fs.setFile f { fs.file f with off := ((fs.file f).off + n) % 2 ^ 32 }
  | .fdclose fd => Fs.fdclose fd
  | .iputCwd => do
    let s ← cwd
    Fs.iput s
  | .setCwd s => do
    let fs ← get
    setProc fs.cur { fs.proc fs.cur with cwd := some s }
  | .allocproc c => Fs.allocproc c
  | .filedup c fd => Fs.filedup c fd
  | .dupCwd c => do
    let s ← cwd
    idup s
    let fs ← get
    setProc c { fs.proc c with cwd := some s }
  | .publish c => do
    let fs ← get
    setProc c { fs.proc c with running := true }
  | .notInit => do
    let fs ← get
    if fs.cur = initproc then Fs.panic .initExiting else pure ()
  | .zombie => do
    let fs ← get
    setProc fs.cur { fs.proc fs.cur with cwd := none, running := false }
  | .panic m => Fs.panic m

def act (o : Op) : FsProg o.Res := Prog.call o

def alone {A : Type} (m : FsProg A) : M A := m.eval Op.run

section Alone

variable {A B : Type} {fs fs' : Fs}

theorem alone_bind {m : FsProg A} {f : A → FsProg B} {a : A} (h : alone m fs = .ok (a, fs')) :
    alone (m >>= f) fs = alone (f a) fs' := by
  rw [alone, Prog.eval_bind]
  exact StateExcept.bind_ok h

theorem alone_act {o : Op} {f : o.Res → FsProg B} {r : o.Res} (h : o.run fs = .ok (r, fs')) :
    alone (act o >>= f) fs = alone (f r) fs' :=
  alone_bind (by rw [alone, act, Prog.eval_call]; exact h)

theorem alone_error {o : Op} {f : o.Res → FsProg B} {e : Stop} (h : o.run fs = .error e) :
    alone (act o >>= f) fs = .error e := by
  rw [alone, Prog.eval_bind, act, Prog.eval_call]
  exact StateExcept.bind_error h

end Alone

def iunlockput (s : Islot) : FsProg Unit := do
  act (.iunlock s)
  act (.iput s)

def slash : Nat := 47

def skipelem (path : List Nat) : Option (List Nat × List Nat) :=
  match path.dropWhile (· = slash) with
  | [] => none
  | c :: cs => some (((c :: cs).takeWhile (· ≠ slash)).take dirsiz,
      ((c :: cs).dropWhile (· ≠ slash)).dropWhile (· = slash))

-- A path is shorter after each element, so its length is fuel enough. The name the parent mode
-- leaves is that of the last skipelem.
def namexLoop (parent : Bool) : Nat → List Nat → Islot → FsProg (Option (Islot × List Nat))
  | 0, _, ip => pure (some (ip, []))
  | fuel + 1, path, ip =>
    match skipelem path with
    | none =>
      if parent then do
        act (.iput ip)
        pure none
      else pure (some (ip, []))
    | some (name, rest) => do
      act (.ilock ip)
      let d ← act (.dinode ip)
      if d.type ≠ .dir then
        iunlockput ip
        pure none
      else if parent ∧ rest = [] then
        act (.iunlock ip)
        pure (some (ip, name))
      else
        let r ← act (.dirlookup ip name)
        iunlockput ip
        match r with
        | none => pure none
        | some (next, _) => namexLoop parent fuel rest next

-- A path ends at its first NUL.
def namex (path : List Nat) (parent : Bool) : FsProg (Option (Islot × List Nat)) := do
  let path := path.takeWhile (· ≠ 0)
  let ip ← if path.head? = some slash then act (.iget rootino) else act .idupCwd
  namexLoop parent (path.length + 1) path ip

def namei (path : List Nat) : FsProg (Option Islot) := do
  let r ← namex path false
  pure (r.map Prod.fst)

def nameiparent (path : List Nat) : FsProg (Option (Islot × List Nat)) := namex path true

def dot : List Nat := [46]

def dotdot : List Nat := [46, 46]

def dirlink (dp : Islot) (name : List Nat) (inum : Nat) : FsProg Int := do
  let r ← act (.dirlookup dp name)
  match r with
  | some (ip, _) =>
    act (.iput ip)
    pure (-1)
  | none =>
    let off ← act (.emptyDirent dp)
    let n ← act (.writei dp off (Dirent.encode ⟨inum, strncpy dirsiz name⟩))
    if n = some direntSize then pure 0
    else
      act (.panic .dirlink)
      pure (-1)

def createDots (dp ip : Islot) : FsProg Unit := do
  act (.addLink dp 1)
  let inum ← act (.inum ip)
  let a ← dirlink ip dot inum
  if a < 0 then act (.panic .createDots)
  else
    let parent ← act (.inum dp)
    let b ← dirlink ip dotdot parent
    if b < 0 then act (.panic .createDots) else pure ()

def createNode (dp : Islot) (name : List Nat) (type : FileType) (major minor : Int) :
    FsProg Islot := do
  let ip ← act (.ialloc type)
  act (.ilock ip)
  act (.initInode ip major minor)
  if type = .dir then createDots dp ip else pure ()
  let inum ← act (.inum ip)
  let c ← dirlink dp name inum
  if c < 0 then act (.panic .createDirlink) else pure ()
  iunlockput dp
  pure ip

def create (path : List Nat) (type : FileType) (major minor : Int) : FsProg (Option Islot) := do
  let r ← nameiparent path
  match r with
  | none => pure none
  | some (dp, name) =>
    act (.ilock dp)
    let r ← act (.dirlookup dp name)
    match r with
    | some (ip, _) =>
      iunlockput dp
      act (.ilock ip)
      let d ← act (.dinode ip)
      if type = .file ∧ d.type = .file then pure (some ip)
      else
        iunlockput ip
        pure none
    | none =>
      let ip ← createNode dp name type major minor
      pure (some ip)

def rdonly : Nat := 0x000

def wronly : Nat := 0x001

def rdwr : Nat := 0x002

def creat : Nat := 0x200

def openFile (ip : Islot) (omode : Nat) : FsProg Int := do
  let r ← act (.fdopen ip (omode &&& wronly = 0) (omode &&& wronly ≠ 0 ∨ omode &&& rdwr ≠ 0))
  match r with
  | none =>
    iunlockput ip
    pure (-1)
  | some fd =>
    act (.iunlock ip)
    pure fd

-- In all calls argstr has failed where a path is missing.
def sysOpen (path : Option (List Nat)) (omode : Nat) : FsProg Int := do
  match path with
  | none => pure (-1)
  | some path =>
    if omode &&& creat ≠ 0 then
      act .beginTrans
      let r ← create path .file 0 0
      act .commitTrans
      match r with
      | none => pure (-1)
      | some ip => openFile ip omode
    else
      let r ← namei path
      match r with
      | none => pure (-1)
      | some ip =>
        act (.ilock ip)
        let d ← act (.dinode ip)
        if d.type = .dir ∧ omode ≠ rdonly then
          iunlockput ip
          pure (-1)
        else openFile ip omode

def sysCreate (path : Option (List Nat)) (type : FileType) (major minor : Int) : FsProg Int := do
  act .beginTrans
  match path with
  | none =>
    act .commitTrans
    pure (-1)
  | some path =>
    let r ← create path type major minor
    match r with
    | none =>
      act .commitTrans
      pure (-1)
    | some ip =>
      iunlockput ip
      act .commitTrans
      pure 0

def sysMkdir (path : Option (List Nat)) : FsProg Int := sysCreate path .dir 0 0

def sysMknod (path : Option (List Nat)) (major minor : Int) : FsProg Int :=
  sysCreate path .dev major minor

def linkBad (ip : Islot) : FsProg Int := do
  act (.ilock ip)
  act (.addLink ip (-1))
  iunlockput ip
  act .commitTrans
  pure (-1)

def sysLink (old new : Option (List Nat)) : FsProg Int := do
  match old, new with
  | some old, some new =>
    let r ← namei old
    match r with
    | none => pure (-1)
    | some ip =>
      act .beginTrans
      act (.ilock ip)
      let d ← act (.dinode ip)
      if d.type = .dir then
        iunlockput ip
        act .commitTrans
        pure (-1)
      else
        act (.addLink ip 1)
        act (.iunlock ip)
        let r ← nameiparent new
        match r with
        | none => linkBad ip
        | some (dp, name) =>
          act (.ilock dp)
          let inum ← act (.inum ip)
          let a ← dirlink dp name inum
          iunlockput dp
          if a < 0 then linkBad ip
          else
            act (.iput ip)
            act .commitTrans
            pure 0
  | _, _ => pure (-1)

def unlinkBad (dp : Islot) : FsProg Int := do
  iunlockput dp
  act .commitTrans
  pure (-1)

def eraseEntry (dp : Islot) (off : Nat) : FsProg Unit := do
  let n ← act (.writei dp off (List.replicate direntSize 0))
  if n = some direntSize then pure () else act (.panic .unlinkWritei)

def unlinkEntry (dp ip : Islot) (off : Nat) (type : FileType) : FsProg Int := do
  eraseEntry dp off
  if type = .dir then act (.addLink dp (-1)) else pure ()
  iunlockput dp
  act (.addLink ip (-1))
  iunlockput ip
  act .commitTrans
  pure 0

def sysUnlink (path : Option (List Nat)) : FsProg Int := do
  match path with
  | none => pure (-1)
  | some path =>
    let r ← nameiparent path
    match r with
    | none => pure (-1)
    | some (dp, name) =>
      act .beginTrans
      act (.ilock dp)
      if namecmp name dot = 0 ∨ namecmp name dotdot = 0 then unlinkBad dp
      else
        let r ← act (.dirlookup dp name)
        match r with
        | none => unlinkBad dp
        | some (ip, off) =>
          act (.ilock ip)
          let d ← act (.dinode ip)
          if d.nlink < 1 then
            act (.panic .unlinkNlink)
            pure (-1)
          else
            let empty ← if d.type = .dir then act (.isdirempty ip) else pure true
            if empty then unlinkEntry dp ip off d.type
            else
              iunlockput ip
              unlinkBad dp

def sysChdir (path : Option (List Nat)) : FsProg Int := do
  match path with
  | none => pure (-1)
  | some path =>
    let r ← namei path
    match r with
    | none => pure (-1)
    | some ip =>
      act (.ilock ip)
      let d ← act (.dinode ip)
      if d.type ≠ .dir then
        iunlockput ip
        pure (-1)
      else
        act (.iunlock ip)
        act .iputCwd
        act (.setCwd ip)
        pure 0

-- exec reads the headers and the segments of the file: the parts the file itself names. What it
-- makes of them is the matter of exec.c.
def execRead (path : List Nat) (parts : List (Nat × Nat)) : FsProg Unit := do
  let r ← namei path
  match r with
  | none => pure ()
  | some ip =>
    act (.ilock ip)
    readParts ip parts
    iunlockput ip
where
  readParts (ip : Islot) : List (Nat × Nat) → FsProg Unit
    | [] => pure ()
    | (off, n) :: rest => do
      let _ ← act (.readi ip off n)
      readParts ip rest

def fileread (f : Fin nfile) (n : Nat) : FsProg (Option (List Nat)) := do
  let x ← act (.file f)
  if x.readable then
    match x.ip with
    | none =>
      act (.panic .fileread)
      pure none
    | some ip =>
      act (.ilock ip)
      let x ← act (.file f)
      let r ← act (.readi ip x.off n)
      match r with
      | none => pure ()
      | some l => act (.advance f l.length)
      act (.iunlock ip)
      pure r
  else pure none

def maxChunk : Nat := (logsize - 1 - 1 - 2) / 2 * 512

def writeChunks (f : Fin nfile) (ip : Islot) : Nat → List Nat → FsProg Nat
  | 0, _ => pure 0
  | fuel + 1, src =>
    if src = [] then pure 0
    else do
      act .beginTrans
      act (.ilock ip)
      let x ← act (.file f)
      let r ← act (.writei ip x.off (src.take maxChunk))
      match r with
      | none =>
        act (.iunlock ip)
        act .commitTrans
        pure 0
      | some n =>
        act (.advance f n)
        act (.iunlock ip)
        act .commitTrans
        if n = (src.take maxChunk).length then
          let i ← writeChunks f ip fuel (src.drop maxChunk)
          pure (n + i)
        else
          act (.panic .shortFilewrite)
          pure 0

def filewrite (f : Fin nfile) (src : List Nat) : FsProg Int := do
  let x ← act (.file f)
  if x.writable then
    match x.ip with
    | none =>
      act (.panic .filewrite)
      pure (-1)
    | some ip =>
      let i ← writeChunks f ip src.length src
      pure (if i = src.length then i else -1)
  else pure (-1)

def sysRead (fd : Fin nofile) (n : Nat) : FsProg (Option (List Nat)) := do
  let r ← act (.fdget fd)
  match r with
  | none => pure none
  | some f => fileread f n

def sysWrite (fd : Fin nofile) (src : List Nat) : FsProg Int := do
  let r ← act (.fdget fd)
  match r with
  | none => pure (-1)
  | some f => filewrite f src

def sysClose (fd : Fin nofile) : FsProg Unit := do
  let r ← act (.fdclose fd)
  match r with
  | none => pure ()
  | some ip =>
    act .beginTrans
    act (.iput ip)
    act .commitTrans

end Fs
end Xv6
