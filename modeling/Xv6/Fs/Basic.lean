import Xv6.Lib.Bytes
import Xv6.Lib.SlotScan
import Xv6.Lib.StateExcept
import Xv6.Log.System

namespace Xv6
namespace Fs

open Bytes SlotScan

abbrev bsize : Nat := 512

abbrev ndirect : Nat := 12

abbrev nindirect : Nat := 128

abbrev maxfile : Nat := ndirect + nindirect

abbrev ipb : Nat := 8

abbrev bpb : Nat := 4096

abbrev dirsiz : Nat := 14

abbrev rootino : Nat := 1

abbrev console : Int := 1

inductive FileType where
  | free
  | dir
  | file
  | dev
  deriving DecidableEq

structure Superblock where
  size : Nat
  ninodes : Nat
  nlog : Nat

def iblock (inum : Nat) : Nat := inum / ipb + 2

namespace Superblock

variable (sb : Superblock)

def bblock (b : Nat) : Nat := b / bpb + sb.ninodes / ipb + 3

def dataStart : Nat := sb.ninodes / ipb + 3 + (sb.size / bpb + 1)

def logStart : Nat := sb.size - sb.nlog

end Superblock

-- Only the first NDIRECT + 1 entries of `addrs` are used.
structure Dinode where
  type : FileType
  major : Int
  minor : Int
  nlink : Int
  size : Nat
  addrs : Nat → Nat

abbrev Islot := Fin ninode

structure Inode where
  inum : Nat
  ref : Int
  busy : Bool
  valid : Bool
  din : Dinode

-- A file without an inode is FD_NONE.
structure File where
  ref : Int
  ip : Option Islot
  readable : Bool
  writable : Bool
  off : Nat

structure Proc where
  used : Bool
  running : Bool
  cwd : Option Islot
  ofile : Fin nofile → Option (Fin nfile)

inductive Panic where
  | tooBigTransaction
  | writeOutsideTrans
  | outOfBlocks
  | freeingFreeBlock
  | iallocNoInodes
  | igetNoInodes
  | ilock
  | ilockNoType
  | iunlock
  | iputBusy
  | bmapOutOfRange
  | dirlookupNotDir
  | dirlinkRead
  | dirlink
  | isdirempty
  | unlinkNlink
  | unlinkWritei
  | createDots
  | createDirlink
  | shortFilewrite
  | filedup
  | fileclose
  | fileread
  | filewrite
  | initExiting
  | trap
  deriving DecidableEq

-- A call that has to sleep is blocked; it is tried again later.
inductive Stop where
  | blocked
  | panic (m : Panic)
  deriving DecidableEq

-- The inodes, the free map and the data blocks of the disk, as the buffer cache shows them.
structure Volume where
  dinode : Nat → Dinode
  bitmap : Nat → Bool
  data : Nat → Nat → Nat

end Fs

open Fs in
-- `cur` is the running process and `busy` the one whose transaction is open.
structure Fs where
  sb : Superblock
  disk : Volume
  icache : Islot → Inode
  file : Fin nfile → File
  proc : Nat → Proc
  busy : Option Nat
  lh : List Nat
  cur : Nat

namespace Fs

open Bytes SlotScan

abbrev M := StateT Fs (Except Stop)

def panic {A : Type} (m : Panic) : M A := throw (.panic m)

def setDisk (disk : Volume) : M Unit := modify fun fs => { fs with disk := disk }

def logWrite (s : Nat) : M Unit := do
  let fs ← get
  if fs.lh.length ≥ logsize ∨ fs.lh.length + 1 ≥ fs.sb.nlog then panic .tooBigTransaction
  else if fs.busy = none then panic .writeOutsideTrans
  else set { fs with lh := recorded fs.lh s }

def setBlock (b : Nat) (bytes : Nat → Nat) : M Unit := do
  let fs ← get
  setDisk { fs.disk with data := Function.update fs.disk.data b bytes }
  logWrite b

def bzero (b : Nat) : M Unit := setBlock b fun _ => 0

def firstFree (bitmap : Nat → Bool) (size : Nat) : Option Nat :=
  (List.range size).find? fun b => !bitmap b

def balloc : M Nat := do
  let fs ← get
  match firstFree fs.disk.bitmap fs.sb.size with
  | none => panic .outOfBlocks
  | some b =>
    setDisk { fs.disk with bitmap := Function.update fs.disk.bitmap b true }
    logWrite (fs.sb.bblock b)
    bzero b
    pure b

def bfree (b : Nat) : M Unit := do
  let fs ← get
  if fs.disk.bitmap b = false then panic .freeingFreeBlock
  else
    setDisk { fs.disk with bitmap := Function.update fs.disk.bitmap b false }
    logWrite (fs.sb.bblock b)

def setInode (s : Islot) (ip : Inode) : M Unit :=
  modify fun fs => { fs with icache := Function.update fs.icache s ip }

def setDin (s : Islot) (f : Dinode → Dinode) : M Unit := do
  let fs ← get
  setInode s { fs.icache s with din := f (fs.icache s).din }

def setAddr (s : Islot) (i b : Nat) : M Unit :=
  setDin s fun d => { d with addrs := Function.update d.addrs i b }

def iupdate (s : Islot) : M Unit := do
  let fs ← get
  let ip := fs.icache s
  setDisk { fs.disk with dinode := Function.update fs.disk.dinode ip.inum ip.din }
  logWrite (iblock ip.inum)

def iget (inum : Nat) : M Islot := do
  let fs ← get
  match firstSlot fun s => decide (0 < (fs.icache s).ref ∧ (fs.icache s).inum = inum) with
  | some s =>
    setInode s { fs.icache s with ref := (fs.icache s).ref + 1 }
    pure s
  | none =>
    match firstSlot fun s => decide ((fs.icache s).ref = 0) with
    | some s =>
      setInode s ⟨inum, 1, false, false, (fs.icache s).din⟩
      pure s
    | none => panic .igetNoInodes

def idup (s : Islot) : M Unit := do
  let fs ← get
  setInode s { fs.icache s with ref := (fs.icache s).ref + 1 }

def ialloc (type : FileType) : M Islot := do
  let fs ← get
  match (List.range fs.sb.ninodes).find? fun k =>
      decide (1 ≤ k ∧ (fs.disk.dinode k).type = .free) with
  | none => panic .iallocNoInodes
  | some inum =>
    setDisk { fs.disk with
      dinode := Function.update fs.disk.dinode inum ⟨type, 0, 0, 0, 0, fun _ => 0⟩ }
    logWrite (iblock inum)
    iget inum

def ilock (s : Islot) : M Unit := do
  let fs ← get
  let ip := fs.icache s
  if ip.ref < 1 then panic .ilock
  else if ip.busy then throw .blocked
  else if ip.valid then setInode s { ip with busy := true }
  else if (fs.disk.dinode ip.inum).type = .free then panic .ilockNoType
  else setInode s { ip with busy := true, valid := true, din := fs.disk.dinode ip.inum }

def iunlock (s : Islot) : M Unit := do
  let fs ← get
  let ip := fs.icache s
  if ip.busy = false ∨ ip.ref < 1 then panic .iunlock
  else setInode s { ip with busy := false }

def word (b : Nat → Nat) (j : Nat) : Nat := ofBytes (slice b (4 * j) 4)

def setWord (b : Nat → Nat) (j v : Nat) : Nat → Nat := patch b (4 * j) (toBytes 4 v)

def itrunc (s : Islot) : M Unit := do
  forM (List.range ndirect) fun i => do
    let fs ← get
    let b := (fs.icache s).din.addrs i
    if b = 0 then pure ()
    else
      bfree b
      setAddr s i 0
  let fs ← get
  let ind := (fs.icache s).din.addrs ndirect
  if ind = 0 then pure ()
  else
    forM (List.range nindirect) fun j => do
      let fs ← get
      let b := word (fs.disk.data ind) j
      if b = 0 then pure () else bfree b
    bfree ind
    setAddr s ndirect 0
  setDin s fun d => { d with size := 0 }
  iupdate s

def Inode.last (ip : Inode) : Bool := decide (ip.ref = 1) && ip.valid && decide (ip.din.nlink = 0)

def iput (s : Islot) : M Unit := do
  let fs ← get
  if (fs.icache s).last then
    if (fs.icache s).busy then panic .iputBusy
    else
      setInode s { fs.icache s with busy := true }
      itrunc s
      setDin s fun d => { d with type := .free }
      iupdate s
      let fs ← get
      setInode s { fs.icache s with busy := false, valid := false }
  else pure ()
  let fs ← get
  setInode s { fs.icache s with ref := (fs.icache s).ref - 1 }

def mapAddr (s : Islot) (i : Nat) : M Nat := do
  let fs ← get
  let addr := (fs.icache s).din.addrs i
  if addr = 0 then
    let b ← balloc
    setAddr s i b
    pure b
  else pure addr

def bmap (s : Islot) (bn : Nat) : M Nat := do
  if bn < ndirect then mapAddr s bn
  else if bn - ndirect < nindirect then
    let ind ← mapAddr s ndirect
    let fs ← get
    let addr := word (fs.disk.data ind) (bn - ndirect)
    if addr = 0 then
      let b ← balloc
      let fs ← get
      setBlock ind (setWord (fs.disk.data ind) (bn - ndirect) b)
      pure b
    else pure addr
  else panic .bmapOutOfRange

def chunk (off n : Nat) : Nat := min n (bsize - off % bsize)

def readLoop (s : Islot) : Nat → Nat → Nat → M (List Nat)
  | 0, _, _ => pure []
  | fuel + 1, off, n =>
    if n = 0 then pure []
    else do
      let b ← bmap s (off / bsize)
      let fs ← get
      let rest ← readLoop s fuel (off + chunk off n) (n - chunk off n)
      pure (slice (fs.disk.data b) (off % bsize) (chunk off n) ++ rest)

-- What a device gives is up to its driver, outside the file system.
def readi (s : Islot) (off n : Nat) : M (Option (List Nat)) := do
  let fs ← get
  let d := (fs.icache s).din
  if d.type = .dev then pure none
  else if off > d.size ∨ (off + n) % 2 ^ 32 < off then pure none
  else
    let n := if off + n > d.size then d.size - off else n
    let l ← readLoop s n off n
    pure (some l)

def writeLoop (s : Islot) : Nat → Nat → List Nat → M Unit
  | 0, _, _ => pure ()
  | fuel + 1, off, src =>
    if src = [] then pure ()
    else do
      let b ← bmap s (off / bsize)
      let m := chunk off src.length
      let fs ← get
      setBlock b (patch (fs.disk.data b) (off % bsize) (src.take m))
      writeLoop s fuel (off + m) (src.drop m)

def writei (s : Islot) (off : Nat) (src : List Nat) : M (Option Nat) := do
  let fs ← get
  let d := (fs.icache s).din
  let n := src.length
  if d.type = .dev then pure (if d.major = console then some n else none)
  else if off > d.size ∨ (off + n) % 2 ^ 32 < off then pure none
  else if off + n > maxfile * bsize then pure none
  else
    writeLoop s n off src
    if 0 < n ∧ d.size < off + n then
      setDin s fun d => { d with size := off + n }
      iupdate s
    else pure ()
    pure (some n)

-- Strings are lists of bytes, with zeros behind them.
def strncmp : Nat → List Nat → List Nat → Int
  | 0, _, _ => 0
  | n + 1, p, q =>
    if p.headD 0 ≠ 0 ∧ p.headD 0 = q.headD 0 then strncmp n p.tail q.tail
    else p.headD 0 - q.headD 0

def strncpy : Nat → List Nat → List Nat
  | 0, _ => []
  | n + 1, t =>
    if t.headD 0 = 0 then List.replicate (n + 1) 0 else t.headD 0 :: strncpy n t.tail

def namecmp (s t : List Nat) : Int := strncmp dirsiz s t

structure Dirent where
  inum : Nat
  name : List Nat
  deriving DecidableEq

def direntSize : Nat := 16

def Dirent.encode (de : Dirent) : List Nat := toBytes 2 de.inum ++ de.name

def Dirent.decode (l : List Nat) : Dirent := ⟨ofBytes (l.take 2), l.drop 2⟩

def scanDirents (s : Islot) (e : Panic) (test : Dirent → Bool) :
    Nat → Nat → M (Nat × Option Dirent)
  | 0, off => pure (off, none)
  | fuel + 1, off => do
    let fs ← get
    if off < (fs.icache s).din.size then
      let r ← readi s off direntSize
      match r with
      | none => panic e
      | some l =>
        if l.length = direntSize then
          if test (.decode l) then pure (off, some (.decode l))
          else scanDirents s e test fuel (off + direntSize)
        else panic e
    else pure (off, none)

def dirlookup (s : Islot) (name : List Nat) : M (Option (Islot × Nat)) := do
  let fs ← get
  let d := (fs.icache s).din
  if d.type = .dir then
    let r ← scanDirents s .dirlinkRead
      (fun de => decide (de.inum ≠ 0 ∧ namecmp name de.name = 0)) d.size 0
    match r with
    | (_, none) => pure none
    | (off, some de) =>
      let ip ← iget de.inum
      pure (some (ip, off))
  else panic .dirlookupNotDir

def emptyDirent (s : Islot) : M Nat := do
  let fs ← get
  let r ← scanDirents s .dirlinkRead (fun de => decide (de.inum = 0)) (fs.icache s).din.size 0
  pure r.1

def isdirempty (s : Islot) : M Bool := do
  let fs ← get
  let r ← scanDirents s .isdirempty (fun de => decide (de.inum ≠ 0)) (fs.icache s).din.size
    (2 * direntSize)
  pure r.2.isNone

end Fs
end Xv6
