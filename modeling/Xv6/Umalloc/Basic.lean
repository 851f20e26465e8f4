import Mathlib.Logic.Function.Basic
import Mathlib.Tactic

namespace Xv6.Umalloc

-- sizeof(Header).
abbrev unit : Nat := 8

def uint (n : Nat) : Nat := n % 2 ^ 32

structure Header where
  ptr : Nat
  size : Nat
  deriving DecidableEq, Repr

-- The headers by address, with the end of the memory that sbrk has given, what it gave, and
-- each request of morecore: the bytes it passes to sbrk and the units it means to record.
structure Heap where
  mem : Nat → Header
  freep : Nat
  brk : Nat
  regions : List (Nat × Nat)
  asked : List (Nat × Nat)

-- What sbrk answers when memory up to `brk` is in use: a region that is not, or nothing.
structure Sbrk where
  run : Nat → Nat → Option Nat
  fresh : ∀ brk n a, run brk n = some a → brk ≤ a ∧ a + n < 2 ^ 32

-- `p + n` for a pointer to headers.
def past (p n : Nat) : Nat := uint (p + unit * n)

namespace Heap

def ptr (h : Heap) (p : Nat) : Nat := (h.mem p).ptr

def size (h : Heap) (p : Nat) : Nat := (h.mem p).size

def setHeader (h : Heap) (p : Nat) (x : Header) : Heap :=
  { h with mem := Function.update h.mem p x }

def setPtr (h : Heap) (p q : Nat) : Heap := h.setHeader p { h.mem p with ptr := q }

def setSize (h : Heap) (p n : Nat) : Heap := h.setHeader p { h.mem p with size := n }

def search (h : Heap) (bp : Nat) : Nat → Nat → Option Nat
  | 0, _ => none
  | fuel + 1, p =>
    if p < bp ∧ bp < h.ptr p then some p
    else if h.ptr p ≤ p ∧ (p < bp ∨ bp < h.ptr p) then some p
    else h.search bp fuel (h.ptr p)

def joinNext (h : Heap) (p bp : Nat) : Heap :=
  let next := h.ptr p
  if past bp (h.size bp) = next then
    h.setHeader bp ⟨h.ptr next, uint (h.size bp + h.size next)⟩
  else h.setPtr bp next

def joinPrev (h : Heap) (p bp : Nat) : Heap :=
  if past p (h.size p) = bp then
    h.setHeader p ⟨h.ptr bp, uint (h.size p + h.size bp)⟩
  else h.setPtr p bp

def free (fuel : Nat) (h : Heap) (ap : Nat) : Option Heap := do
  let bp := uint (ap + 2 ^ 32 - unit)
  let p ← h.search bp fuel h.freep
  pure { (h.joinNext p bp).joinPrev p bp with freep := p }

def morecore (sbrk : Sbrk) (fuel : Nat) (h : Heap) (nu : Nat) : Option (Heap × Nat) :=
  let nu := if nu < 4096 then 4096 else nu
  let bytes := uint (nu * unit)
  let asked := h.asked ++ [(bytes, nu)]
  match sbrk.run h.brk bytes with
  | none => some ({ h with asked }, 0)
  | some p => do
    let h := { h with brk := p + bytes, regions := h.regions ++ [(p, bytes)], asked }
    let h ← (h.setSize p nu).free fuel (past p 1)
    pure (h, h.freep)

def carve (h : Heap) (nunits prevp p : Nat) : Heap × Nat :=
  if h.size p = nunits then
    ({ h.setPtr prevp (h.ptr p) with freep := prevp }, past p 1)
  else
    let rest := h.size p - nunits
    let q := past p rest
    ({ (h.setSize p rest).setSize q nunits with freep := prevp }, past q 1)

def mallocLoop (sbrk : Sbrk) (nunits : Nat) : Nat → Heap → Nat → Nat → Option (Heap × Nat)
  | 0, _, _, _ => none
  | fuel + 1, h, prevp, p =>
    if nunits ≤ h.size p then some (h.carve nunits prevp p)
    else if p = h.freep then
      match h.morecore sbrk fuel nunits with
      | none => none
      | some (h, 0) => some (h, 0)
      | some (h, p) => mallocLoop sbrk nunits fuel h p (h.ptr p)
    else mallocLoop sbrk nunits fuel h p (h.ptr p)

def malloc (base : Nat) (sbrk : Sbrk) (fuel : Nat) (h : Heap) (nbytes : Nat) :
    Option (Heap × Nat) :=
  let nunits := uint (uint (nbytes + unit - 1) / unit + 1)
  let h := if h.freep = 0 then { h.setHeader base ⟨base, 0⟩ with freep := base } else h
  mallocLoop sbrk nunits fuel h h.freep (h.ptr h.freep)

end Heap

end Xv6.Umalloc
