import Xv6.Fs.Content

namespace Xv6

-- The counters of mkfs and the file behind fsfd, with the number of sectors it has.
structure Mkfs where
  image : Nat → Nat → Nat
  sectors : Nat
  freeblock : Nat
  usedblocks : Nat
  freeinode : Nat

namespace Mkfs

open Bytes Fs

abbrev nblocks : Nat := 985

abbrev nlog : Nat := logsize

abbrev ninodes : Nat := 200

abbrev size : Nat := 1024

abbrev bitblocks : Nat := size / (bsize * 8) + 1

abbrev tDir : Nat := 1

abbrev tFile : Nat := 2

abbrev dinodeSize : Nat := 64

-- A failed assert, or a sector beyond the end of the image that rsect cannot read.
inductive Exit where
  | assertion
  | read
  deriving DecidableEq

-- The fields as numbers without a sign, as mkfs handles them.
structure Dinode where
  type : Nat
  major : Nat
  minor : Nat
  nlink : Nat
  size : Nat
  addrs : Nat → Nat

namespace Dinode

def encode (d : Dinode) : List Nat :=
  toBytes 2 d.type ++ (toBytes 2 d.major ++ (toBytes 2 d.minor ++ (toBytes 2 d.nlink ++
    (toBytes 4 d.size ++ words 4 d.addrs (ndirect + 1)))))

def decode (l : List Nat) : Dinode where
  type := ofBytes (l.take 2)
  major := ofBytes ((l.drop 2).take 2)
  minor := ofBytes ((l.drop 4).take 2)
  nlink := ofBytes ((l.drop 6).take 2)
  size := ofBytes ((l.drop 8).take 4)
  addrs i := if i ≤ ndirect then ofBytes ((l.drop (12 + 4 * i)).take 4) else 0

end Dinode

-- A file of the host: its name, and what each read of it returns until the last one.
structure Source where
  name : List Nat
  reads : List (List Nat)
  string : name ≠ [] ∧ 0 ∉ name
  sized : ∀ l ∈ reads, 0 < l.length ∧ l.length ≤ bsize

def Source.bytes (f : Source) : List Nat := f.reads.flatten

-- The name without the `_` that keeps the host from running the file.
def Source.target (f : Source) : List Nat :=
  if f.name.head? = some 95 then f.name.tail else f.name

abbrev M := StateT Mkfs (Except Exit)

def assert (p : Prop) [Decidable p] : M Unit := if p then pure () else throw .assertion

def wsect (sec : Nat) (buf : Nat → Nat) : M Unit := modify fun t =>
  { t with image := Function.update t.image sec buf, sectors := max t.sectors (sec + 1) }

def rsect (sec : Nat) : M (Nat → Nat) := do
  let t ← get
  if sec < t.sectors then pure (t.image sec) else throw .read

def winode (inum : Nat) (d : Dinode) : M Unit := do
  let buf ← rsect (iblock inum)
  wsect (iblock inum) (patch buf (inum % ipb * dinodeSize) d.encode)

def rinode (inum : Nat) : M Dinode := do
  let buf ← rsect (iblock inum)
  pure (.decode (slice buf (inum % ipb * dinodeSize) dinodeSize))

def ialloc (type : Nat) : M Nat := do
  let t ← get
  set { t with freeinode := t.freeinode + 1 }
  winode t.freeinode ⟨type, 0, 0, 1, 0, fun _ => 0⟩
  pure t.freeinode

def usedBits (used : Nat) : Nat → Nat :=
  (List.range used).foldl (fun buf i => Function.update buf (i / 8) (buf (i / 8) ||| 1 <<< (i % 8)))
    fun _ => 0

def balloc (used : Nat) : M Unit := do
  assert (used < bsize * 8)
  wsect (ninodes / ipb + 3) (usedBits used)

def takeBlock : M Nat := do
  let t ← get
  set { t with freeblock := t.freeblock + 1, usedblocks := t.usedblocks + 1 }
  pure t.freeblock

def takeAddr (din : Dinode) (i : Nat) : M Dinode :=
  if din.addrs i = 0 then do
    let b ← takeBlock
    pure { din with addrs := Function.update din.addrs i b }
  else pure din

def takeWord (ind i : Nat) : M Nat := do
  let indirect ← rsect ind
  if word indirect i = 0 then
    let b ← takeBlock
    wsect ind (setWord indirect i b)
    pure (word (setWord indirect i b) i)
  else pure (word indirect i)

def blockOf (din : Dinode) (fbn : Nat) : M (Dinode × Nat) :=
  if fbn < ndirect then do
    let din ← takeAddr din fbn
    pure (din, din.addrs fbn)
  else do
    let din ← takeAddr din ndirect
    let x ← takeWord (din.addrs ndirect) (fbn - ndirect)
    pure (din, x)

def appendRound (din : Dinode) (off : Nat) (part : List Nat) : M Dinode := do
  let (din, x) ← blockOf din (off / bsize)
  let buf ← rsect x
  wsect x (patch buf (off - off / bsize * bsize) part)
  pure din

def appendLoop : Nat → Dinode → Nat → List Nat → M (Dinode × Nat)
  | 0, din, off, _ => pure (din, off)
  | fuel + 1, din, off, p =>
    if p = [] then pure (din, off)
    else do
      assert (off / bsize < maxfile)
      let n := min p.length ((off / bsize + 1) * bsize - off)
      let din ← appendRound din off (p.take n)
      appendLoop fuel din (off + n) (p.drop n)

def iappend (inum : Nat) (p : List Nat) : M Unit := do
  let din ← rinode inum
  let (din, off) ← appendLoop p.length din din.size p
  winode inum { din with size := off }

def start : Mkfs :=
  ⟨fun _ _ => 0, 0, ninodes / ipb + 3 + bitblocks, ninodes / ipb + 3 + bitblocks, 1⟩

def superblock : List Nat :=
  toBytes 4 size ++ (toBytes 4 nblocks ++ (toBytes 4 ninodes ++ toBytes 4 nlog))

def entry (inum : Nat) (name : List Nat) : List Nat := Dirent.encode ⟨inum, strncpy dirsiz name⟩

@[irreducible] def makeRoot : M Unit := do
  let t ← get
  assert (nblocks + t.usedblocks + nlog = size)
  forM (List.range (nblocks + t.usedblocks + nlog)) fun i => wsect i fun _ => 0
  wsect 1 (patch (fun _ => 0) 0 superblock)
  let root ← ialloc tDir
  assert (root = rootino)
  iappend root (entry root [46])
  iappend root (entry root [46, 46])

def addFile (root : Nat) (f : Source) : M Unit := do
  assert (47 ∉ f.name)
  let inum ← ialloc tFile
  iappend root (entry inum f.target)
  forM f.reads fun l => iappend inum l

-- The end of main: the size of the root becomes a whole number of blocks.
def fixRoot (root : Nat) : M Unit := do
  let din ← rinode root
  winode root { din with size := (din.size / bsize + 1) * bsize }
  let t ← get
  balloc t.usedblocks

def main (files : List Source) : M Unit := do
  makeRoot
  forM files (addFile rootino)
  fixRoot rootino

def mkfs (files : List Source) : Except Exit Mkfs :=
  match main files start with
  | .ok (_, t) => .ok t
  | .error e => .error e

end Mkfs
end Xv6
