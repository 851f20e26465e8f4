import Xv6.Lib.Traced
import Xv6.Param

namespace Xv6.Syscall

abbrev Word := BitVec 32

def bytes (addr : Word) (n : Nat) : List Word := (List.range n).map fun k => addr + BitVec.ofNat 32 k

inductive InodeType where
  | regular
  | dev (major : Int)
  deriving DecidableEq, Repr

inductive FdType where
  | none
  | pipe
  | inode (type : InodeType)
  deriving DecidableEq, Repr

structure OpenFile where
  type : FdType
  readable : Bool
  writable : Bool
  deriving DecidableEq, Repr

-- The calling process: `mem` is the int at a user address.
structure Caller where
  sz : Word
  esp : Word
  mem : Word → Word
  ofile : Fin 16 → Option OpenFile

inductive ConsoleInput where
  | killed
  | eof
  | char (newline : Bool)
  deriving DecidableEq, Repr

-- What the call meets in the objects it shares with other processes: the offset and size of the
-- file at its k-th piece, whether the pipe stops it at its k-th byte, the k-th console input.
structure Shared where
  off : Nat → Word
  size : Nat → Word
  pipeEmpty : Nat → Bool
  pipeFails : Nat → Bool
  input : Nat → ConsoleInput

namespace Caller

open Traced

variable (p : Caller)

def fetchint (addr : Word) : Traced Word Word := do
  if addr ≥ p.sz ∨ addr + 4 > p.sz then fail
  else
    touch (bytes addr 4)
    pure (p.mem addr)

def argint (n : Word) : Traced Word Word := p.fetchint (p.esp + 4 + 4 * n)

def argptr (n size : Word) : Traced Word Word := do
  let i ← p.argint n
  if i ≥ p.sz ∨ i + size > p.sz then fail else pure i

def argfd (n : Word) : Traced Word OpenFile := do
  let fd ← p.argint n
  if h : fd.toNat < 16 then
    match p.ofile ⟨fd.toNat, h⟩ with
    | some f => pure f
    | none => fail
  else fail

end Caller

def byteLoop (stop : Nat → Bool) (addr : Word) : Nat → Nat → List Word
  | 0, _ => []
  | k + 1, i =>
    if stop i then [] else (addr + BitVec.ofNat 32 i) :: byteLoop stop addr k (i + 1)

def piperead (s : Shared) (addr n : Word) : List Word :=
  byteLoop s.pipeEmpty addr n.toInt.toNat 0

def pipewrite (s : Shared) (addr n : Word) : List Word :=
  byteLoop s.pipeFails addr n.toInt.toNat 0

def consoleread (s : Shared) : Nat → Nat → Word → List Word
  | 0, _, _ => []
  | n + 1, k, dst => match s.input k with
    | .killed | .eof => []
    | .char newline => dst :: if newline then [] else consoleread s n (k + 1) (dst + 1)

def consolewrite (buf : Word) (n : Nat) : List Word := bytes buf n

def minUint (a b : Word) : Word := if a < b then a else b

-- The copying loop that readi and writei share, for the user side of memmove.
def copyLoop : Nat → Word → Word → Word → Word → List Word
  | 0, _, _, _, _ => []
  | fuel + 1, n, tot, off, addr =>
    if tot < n then
      let m := minUint (n - tot) (512 - off % 512)
      bytes addr m.toNat ++ copyLoop fuel n (tot + m) (off + m) (addr + m)
    else []

def hasDriver (major : Int) : Bool := decide (0 ≤ major ∧ major < 10 ∧ major = 1)

def readi (s : Shared) (type : InodeType) (dst off n : Word) : List Word :=
  match type with
  | .dev major => if hasDriver major then consoleread s n.toInt.toNat 0 dst else []
  | .regular =>
    if off > s.size 0 ∨ off + n < off then []
    else
      let n := if off + n > s.size 0 then s.size 0 - off else n
      copyLoop n.toNat n 0 off dst

-- The second part says whether writei returns n (otherwise -1).
def writei (s : Shared) (k : Nat) (type : InodeType) (src off n : Word) : List Word × Bool :=
  match type with
  | .dev major =>
    if hasDriver major then (consolewrite src n.toInt.toNat, true) else ([], false)
  | .regular =>
    if off > s.size k ∨ off + n < off then ([], false)
    else if off + n > 140 * 512 then ([], false)
    else (copyLoop n.toNat n 0 off src, true)

def fileread (s : Shared) (f : OpenFile) (addr n : Word) : List Word :=
  if f.readable = false then []
  else match f.type with
    | .pipe => piperead s addr n
    | .inode type => readi s type addr (s.off 0) n
    | .none => []

-- max is ((LOGSIZE-1-1-2) / 2) * 512.
def chunk (n i : Word) : Word := if (n - i).toInt > 1536 then 1536 else n - i

def filewriteLoop (s : Shared) (type : InodeType) (addr n : Word) : Nat → Nat → Word → List Word
  | 0, _, _ => []
  | fuel + 1, k, i =>
    if i.toInt < n.toInt then
      let n1 := chunk n i
      let r := writei s k type (addr + i) (s.off k) n1
      r.1 ++ if r.2 then filewriteLoop s type addr n fuel (k + 1) (i + n1) else []
    else []

def filewrite (s : Shared) (f : OpenFile) (addr n : Word) : List Word :=
  if f.writable = false then []
  else match f.type with
    | .pipe => pipewrite s addr n
    | .inode type => filewriteLoop s type addr n n.toNat 0 0
    | .none => []

namespace Caller

open Traced

variable (p : Caller) (s : Shared)

def sysRead : Traced Word Unit := do
  let f ← p.argfd 0
  let n ← p.argint 2
  let addr ← p.argptr 1 n
  touch (fileread s f addr n)

def sysWrite : Traced Word Unit := do
  let f ← p.argfd 0
  let n ← p.argint 2
  let addr ← p.argptr 1 n
  touch (filewrite s f addr n)

end Caller

end Xv6.Syscall
