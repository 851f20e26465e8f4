import Mathlib.Tactic
import Xv6.Lib.TwoLevel
import Xv6.Param

namespace Xv6

@[simp] def pgsize : Nat := 4096

@[simp] def nptentries : Nat := 1024

@[simp] def npdentries : Nat := 1024

@[simp] def extmem : Nat := 0x100000

@[simp] def phystop : Nat := 0xE000000

@[simp] def devspace : Nat := 0xFE000000

@[simp] def kernbase : Nat := 0x80000000

@[simp] def kernlink : Nat := kernbase + extmem

def uint (x : Nat) : Nat := x % 2 ^ 32

def pdx (va : Nat) : Nat := va / 2 ^ 22 % 1024

def ptx (va : Nat) : Nat := va / 2 ^ 12 % 1024

def pgroundup (sz : Nat) : Nat := uint (sz + (pgsize - 1)) / pgsize * pgsize

def pgrounddown (a : Nat) : Nat := a / pgsize * pgsize

structure Perm where
  w : Bool
  u : Bool
  deriving DecidableEq, Repr

structure Pte where
  page : Nat
  perm : Perm
  deriving DecidableEq, Repr

inductive Panic where
  | remap
  | phystopTooHigh
  | kfree
  | freevmNoPgdir
  | copyuvmNoPte
  | copyuvmNotPresent
  | inituvmTooBig
  | userinitMemory
  | trap
  deriving DecidableEq, Repr

-- The linker's `data` and `end`, as physical page numbers.
structure Layout where
  data : Nat
  kend : Nat
  kernlink_lt : 256 < data
  data_lt : data < kend
  kend_le : kend ≤ 57344

def sampleLayout : Layout := ⟨300, 400, by decide, by decide, by decide⟩

-- Physical pages by number. `tables` is the view of pages as page directories and page tables.
structure Vm where
  freelist : List Nat
  tables : TwoLevel Nat Nat Nat Pte
  data : Nat → Nat → UInt8

namespace Vm

variable (L : Layout) (vm : Vm)

def zero (p : Nat) : Vm :=
  { vm with
    tables := vm.tables.fill p none none
    data := Function.update vm.data p fun _ => 0 }

def kalloc : Vm × Option Nat :=
  match vm.freelist with
  | [] => (vm, none)
  | r :: next => ({ vm with freelist := next }, some r)

def kfree (p : Nat) : Except Panic Vm :=
  if p < L.kend ∨ phystop ≤ p * pgsize then .error .kfree
  else .ok
    { freelist := p :: vm.freelist
      tables := vm.tables.fill p (some 0x1010) (some ⟨0x1010, false, false⟩)
      data := Function.update vm.data p fun _ => 1 }

def setPte (pgtab j : Nat) (e : Option Pte) : Vm := { vm with tables := vm.tables.put pgtab j e }

@[simp] theorem freelist_zero (p : Nat) : (vm.zero p).freelist = vm.freelist := rfl

@[simp] theorem freelist_setPte (pgtab j : Nat) (e : Option Pte) :
    (vm.setPte pgtab j e).freelist = vm.freelist := rfl

def walkpgdir (pgdir va : Nat) (alloc : Bool) : Vm × Option (Nat × Nat) :=
  match vm.tables.dir pgdir (pdx va) with
  | some pgtab => (vm, some (pgtab, ptx va))
  | none =>
    if alloc then
      match vm.kalloc with
      | (vm, none) => (vm, none)
      | (vm, some pgtab) =>
        let vm := vm.zero pgtab
        ({ vm with tables := vm.tables.link pgdir (pdx va) pgtab }, some (pgtab, ptx va))
    else (vm, none)

def mapPage (pgdir a pa : Nat) (perm : Perm) : Except Panic (Vm × Bool) :=
  match vm.walkpgdir pgdir a true with
  | (vm, none) => .ok (vm, false)
  | (vm, some (pgtab, j)) =>
    if (vm.tables.leaf pgtab j).isSome then .error .remap
    else .ok (vm.setPte pgtab j (some ⟨pa / pgsize, perm⟩), true)

def mapLoop (pgdir : Nat) (perm : Perm) : Nat → Vm → Nat → Nat → Except Panic (Vm × Int)
  | 0, vm, a, pa => do
    let (vm, mapped) ← vm.mapPage pgdir a pa perm
    if mapped then pure (vm, 0) else pure (vm, -1)
  | k + 1, vm, a, pa => do
    let (vm, mapped) ← vm.mapPage pgdir a pa perm
    if mapped then mapLoop pgdir perm k vm (uint (a + pgsize)) (uint (pa + pgsize))
    else pure (vm, -1)

def mappages (pgdir va size pa : Nat) (perm : Perm) : Except Panic (Vm × Int) :=
  let a := pgrounddown va
  let last := pgrounddown (uint (va + size + (2 ^ 32 - 1)))
  mapLoop pgdir perm (uint (last + (2 ^ 32 - a)) / pgsize) vm a pa

structure Kmap where
  virt : Nat
  physStart : Nat
  physEnd : Nat
  perm : Perm

def kmap : List Kmap :=
  [⟨kernbase, 0, extmem, true, false⟩,
    ⟨kernlink, extmem, L.data * pgsize, false, false⟩,
    ⟨kernbase + L.data * pgsize, L.data * pgsize, phystop, true, false⟩,
    ⟨devspace, devspace, 0, true, false⟩]

def mapKernel (pgdir : Nat) : List Kmap → Vm → Except Panic (Vm × Bool)
  | [], vm => pure (vm, true)
  | k :: ks, vm => do
    let (vm, r) ← vm.mappages pgdir k.virt (uint (k.physEnd + (2 ^ 32 - k.physStart))) k.physStart
      k.perm
    if r < 0 then pure (vm, false) else mapKernel pgdir ks vm

def setupkvm : Except Panic (Vm × Option Nat) :=
  match vm.kalloc with
  | (vm, none) => pure (vm, none)
  | (vm, some pgdir) =>
    if devspace < kernbase + phystop then .error .phystopTooHigh
    else do
      let (vm, mapped) ← mapKernel pgdir (kmap L) (vm.zero pgdir)
      pure (vm, if mapped then some pgdir else none)

-- `mem` is not checked: a kernel write through a null pointer ends in the trap handler's panic.
def inituvm (pgdir : Nat) (init : List UInt8) : Except Panic Vm :=
  if pgsize ≤ init.length then .error .inituvmTooBig
  else
    match vm.kalloc with
    | (_, none) => .error .trap
    | (vm, some mem) => do
      let (vm, _) ← (vm.zero mem).mappages pgdir 0 pgsize (mem * pgsize) ⟨true, true⟩
      pure { vm with data := Function.update vm.data mem fun k => init.getD k 0 }

def deallocLoop (pgdir oldsz : Nat) : Nat → Vm → Nat → Except Panic Vm
  | 0, vm, _ => pure vm
  | fuel + 1, vm, a =>
    if a < oldsz then
      match vm.walkpgdir pgdir a false with
      | (vm, none) => deallocLoop pgdir oldsz fuel vm (uint (a + (nptentries - 1) * pgsize + pgsize))
      | (vm, some (pgtab, j)) =>
        match vm.tables.leaf pgtab j with
        | none => deallocLoop pgdir oldsz fuel vm (uint (a + pgsize))
        | some e =>
          if e.page = 0 then .error .kfree
          else do
            let vm ← vm.kfree L e.page
            deallocLoop pgdir oldsz fuel (vm.setPte pgtab j none) (uint (a + pgsize))
    else pure vm

def deallocuvm (pgdir oldsz newsz : Nat) : Except Panic (Vm × Nat) :=
  if oldsz ≤ newsz then pure (vm, oldsz)
  else do
    let vm ← deallocLoop L pgdir oldsz (oldsz / pgsize + 1) vm (pgroundup newsz)
    pure (vm, newsz)

def allocLoop (pgdir oldsz newsz : Nat) : Nat → Vm → Nat → Except Panic (Vm × Nat)
  | 0, vm, _ => pure (vm, newsz)
  | k + 1, vm, a =>
    match vm.kalloc with
    | (vm, none) => do
      let (vm, _) ← vm.deallocuvm L pgdir newsz oldsz
      pure (vm, 0)
    | (vm, some mem) => do
      let (vm, _) ← (vm.zero mem).mappages pgdir a pgsize (mem * pgsize) ⟨true, true⟩
      allocLoop pgdir oldsz newsz k vm (uint (a + pgsize))

def allocuvm (pgdir oldsz newsz : Nat) : Except Panic (Vm × Nat) :=
  if kernbase ≤ newsz then pure (vm, 0)
  else if newsz < oldsz then pure (vm, oldsz)
  else
    let a := pgroundup oldsz
    allocLoop L pgdir oldsz newsz ((newsz - a + (pgsize - 1)) / pgsize) vm a

def freeTables (pgdir : Nat) : Nat → Vm → Nat → Except Panic Vm
  | 0, vm, _ => pure vm
  | k + 1, vm, i =>
    match vm.tables.dir pgdir i with
    | some pgtab => do
      let vm ← vm.kfree L pgtab
      freeTables pgdir k vm (i + 1)
    | none => freeTables pgdir k vm (i + 1)

def freevm (pgdir : Nat) : Except Panic Vm :=
  if pgdir = 0 then .error .freevmNoPgdir
  else do
    let (vm, _) ← vm.deallocuvm L pgdir kernbase 0
    let vm ← freeTables L pgdir npdentries vm 0
    vm.kfree L pgdir

def copyLoop (pgdir d : Nat) : Nat → Vm → Nat → Except Panic (Vm × Bool)
  | 0, vm, _ => pure (vm, true)
  | k + 1, vm, i =>
    match vm.walkpgdir pgdir i false with
    | (_, none) => .error .copyuvmNoPte
    | (vm, some (pgtab, j)) =>
      match vm.tables.leaf pgtab j with
      | none => .error .copyuvmNotPresent
      | some e =>
        match vm.kalloc with
        | (vm, none) => pure (vm, false)
        | (vm, some mem) => do
          let vm := { vm with data := Function.update vm.data mem (vm.data e.page) }
          let (vm, r) ← vm.mappages d i pgsize (mem * pgsize) ⟨true, true⟩
          if r < 0 then pure (vm, false) else copyLoop pgdir d k vm (uint (i + pgsize))

def copyuvm (pgdir sz : Nat) : Except Panic (Vm × Option Nat) := do
  let (vm, r) ← vm.setupkvm L
  match r with
  | none => pure (vm, none)
  | some d =>
    let (vm, copied) ← copyLoop pgdir d ((sz + (pgsize - 1)) / pgsize) vm 0
    if copied then pure (vm, some d)
    else
      let vm ← vm.freevm L d
      pure (vm, none)

def addInt (sz : Nat) (n : Int) : Nat := ((sz + n) % 2 ^ 32).toNat

def growproc (pgdir sz : Nat) (n : Int) : Except Panic (Vm × Option Nat) :=
  if 0 < n then do
    let (vm, sz) ← vm.allocuvm L pgdir sz (addInt sz n)
    if sz = 0 then pure (vm, none) else pure (vm, some sz)
  else if n < 0 then do
    let (vm, sz) ← vm.deallocuvm L pgdir sz (addInt sz n)
    if sz = 0 then pure (vm, none) else pure (vm, some sz)
  else pure (vm, some sz)

end Vm
end Xv6
