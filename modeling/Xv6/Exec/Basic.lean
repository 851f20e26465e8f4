import Xv6.Vm.Spaces

namespace Xv6

-- `nullPte` is uva2ka's read through the null pointer that walkpgdir returned. `wild` is a store of
-- file contents through an entry that is not a user page: what the kernel does next is not modelled.
inductive ExecFault where
  | panic (p : Panic)
  | loaduvmAlign
  | loaduvmAddress
  | clearpteu
  | nullPte
  | wild (va : Nat)
  deriving DecidableEq, Repr

def elfMagic : Nat := 0x464C457F

def elfProgLoad : Nat := 1

def maxarg : Nat := 32

def word (bs : List UInt8) (i size : Nat) : Nat :=
  ((bs.drop i).take size).foldr (fun b acc => b.toNat + 256 * acc) 0

structure Elfhdr where
  magic : Nat
  entry : Nat
  phoff : Nat
  phnum : Nat
  deriving DecidableEq, Repr

structure Proghdr where
  type : Nat
  off : Nat
  vaddr : Nat
  filesz : Nat
  memsz : Nat
  deriving DecidableEq, Repr

def Elfhdr.ofBytes (bs : List UInt8) : Elfhdr :=
  ⟨word bs 0 4, word bs 24 4, word bs 28 4, word bs 44 2⟩

def Proghdr.ofBytes (bs : List UInt8) : Proghdr :=
  ⟨word bs 0 4, word bs 4 4, word bs 8 4, word bs 16 4, word bs 20 4⟩

-- readi of a file with these contents; `none` is -1.
def readFile (file : List UInt8) (off n : Nat) : Option (List UInt8) :=
  if file.length < off ∨ uint (off + n) < off then none else some ((file.drop off).take n)

def readElfhdr (file : List UInt8) : Option Elfhdr :=
  match readFile file 0 52 with
  | some bs =>
    if bs.length < 52 then none
    else if (Elfhdr.ofBytes bs).magic ≠ elfMagic then none
    else some (Elfhdr.ofBytes bs)
  | none => none

def readProghdr (file : List UInt8) (off : Nat) : Option Proghdr :=
  match readFile file off 32 with
  | some bs => if bs.length ≠ 32 then none else some (Proghdr.ofBytes bs)
  | none => none

structure Store where
  ph : Proghdr
  va : Nat
  len : Nat
  page : Nat
  deriving DecidableEq, Repr

structure Image where
  pgdir : Nat
  sz : Nat
  eip : Nat
  esp : Nat
  name : List UInt8
  deriving DecidableEq, Repr

structure ExecResult where
  vm : Vm
  proc : Image
  ret : Int
  stores : List Store

namespace Vm

variable (L : Layout)

def store (vm : Vm) (page off : Nat) (bs : List UInt8) : Vm :=
  { vm with
    data := Function.update vm.data page fun k =>
      if off ≤ k ∧ k < off + bs.length then bs.getD (k - off) 0 else vm.data page k }

def loadLoop (pgdir : Nat) (file : List UInt8) (ph : Proghdr) :
    Nat → Vm → List Store → Nat → Except ExecFault (Vm × List Store × Bool)
  | 0, vm, stores, _ => .ok (vm, stores, true)
  | fuel + 1, vm, stores, i =>
    if i < ph.filesz then
      let va := uint (ph.vaddr + i)
      match vm.walkpgdir pgdir va false with
      | (_, none) => .error .loaduvmAddress
      | (_, some (pgtab, j)) =>
        let n := if ph.filesz - i < pgsize then ph.filesz - i else pgsize
        match readFile file (uint (ph.off + i)) n with
        | none | some [] => .ok (vm, stores, false)
        | some (b :: bs) =>
          match vm.tables.leaf pgtab j with
          | some ⟨page, ⟨_, true⟩⟩ =>
            let stores := stores ++ [⟨ph, va, bs.length + 1, page⟩]
            if bs.length + 1 ≠ n then .ok (vm.store page 0 (b :: bs), stores, false)
            else loadLoop pgdir file ph fuel (vm.store page 0 (b :: bs)) stores (uint (i + pgsize))
          | _ => .error (.wild va)
    else .ok (vm, stores, true)

def loaduvm (vm : Vm) (pgdir : Nat) (file : List UInt8) (ph : Proghdr) (stores : List Store) :
    Except ExecFault (Vm × List Store × Bool) :=
  if ph.vaddr % pgsize ≠ 0 then .error .loaduvmAlign
  else loadLoop pgdir file ph (ph.filesz / pgsize + 1) vm stores 0

def clearpteu (vm : Vm) (pgdir uva : Nat) : Except ExecFault Vm :=
  match vm.walkpgdir pgdir uva false with
  | (_, none) => .error .clearpteu
  | (vm, some (pgtab, j)) =>
    .ok (vm.setPte pgtab j ((vm.tables.leaf pgtab j).map fun e => ⟨e.page, e.perm.w, false⟩))

def copyoutLoop (pgdir : Nat) : Nat → Vm → Nat → List UInt8 → Except ExecFault (Vm × Bool)
  | 0, vm, _, _ => .ok (vm, true)
  | _ + 1, vm, _, [] => .ok (vm, true)
  | fuel + 1, vm, va, b :: bs =>
    let va0 := pgrounddown va
    match vm.walkpgdir pgdir va0 false with
    | (_, none) => .error .nullPte
    | (vm, some (pgtab, j)) =>
      match vm.tables.leaf pgtab j with
      | some ⟨page, ⟨_, true⟩⟩ =>
        let n := min (pgsize - (va - va0)) (b :: bs).length
        copyoutLoop pgdir fuel (vm.store page (va - va0) ((b :: bs).take n)) (uint (va0 + pgsize))
          ((b :: bs).drop n)
      | _ => .ok (vm, false)

def copyout (vm : Vm) (pgdir va : Nat) (bs : List UInt8) : Except ExecFault (Vm × Bool) :=
  copyoutLoop pgdir bs.length vm va bs

def lift {A : Type} : Except Panic A → Except ExecFault A
  | .ok a => .ok a
  | .error p => .error (.panic p)

-- `none` is the jump to bad.
def loadSegments (pgdir : Nat) (file : List UInt8) :
    Nat → Vm → List Store → Nat → Nat → Except ExecFault (Vm × List Store × Option Nat)
  | 0, vm, stores, _, sz => .ok (vm, stores, some sz)
  | k + 1, vm, stores, off, sz =>
    match readProghdr file off with
    | none => .ok (vm, stores, none)
    | some ph =>
      if ph.type ≠ elfProgLoad then loadSegments pgdir file k vm stores (uint (off + 32)) sz
      else if ph.memsz < ph.filesz then .ok (vm, stores, none)
      else do
        let (vm, sz) ← lift (vm.allocuvm L pgdir sz (uint (ph.vaddr + ph.memsz)))
        if sz = 0 then .ok (vm, stores, none)
        else do
          let (vm, stores, loaded) ← vm.loaduvm pgdir file ph stores
          if loaded then loadSegments pgdir file k vm stores (uint (off + 32)) sz
          else .ok (vm, stores, none)

def makeStack (vm : Vm) (pgdir sz : Nat) : Except ExecFault (Vm × Option Nat) := do
  let sz := pgroundup sz
  let (vm, sz) ← lift (vm.allocuvm L pgdir sz (uint (sz + 2 * pgsize)))
  if sz = 0 then .ok (vm, none)
  else do
    let vm ← vm.clearpteu pgdir (uint (sz + (2 ^ 32 - 2 * pgsize)))
    .ok (vm, some sz)

def pushString (sp len : Nat) : Nat := uint (sp + (2 ^ 32 - uint (len + 1))) / 4 * 4

def pushArgs (pgdir : Nat) : List (List UInt8) → Vm → List Nat → Nat →
    Except ExecFault (Vm × Option (List Nat × Nat))
  | [], vm, ustack, sp => .ok (vm, some (ustack, sp))
  | arg :: argv, vm, ustack, sp =>
    if maxarg ≤ ustack.length then .ok (vm, none)
    else do
      let sp := pushString sp arg.length
      let (vm, copied) ← vm.copyout pgdir sp (arg ++ [0])
      if copied then pushArgs pgdir argv vm (ustack ++ [sp]) sp else .ok (vm, none)

def wordBytes (x : Nat) : List UInt8 :=
  [.ofNat x, .ofNat (x / 256), .ofNat (x / 256 ^ 2), .ofNat (x / 256 ^ 3)]

def pushFrame (vm : Vm) (pgdir : Nat) (args : List Nat) (sp : Nat) :
    Except ExecFault (Vm × Option Nat) := do
  let argc := args.length
  let ustack := [0xffffffff, argc, uint (sp + (2 ^ 32 - (argc + 1) * 4))] ++ args ++ [0]
  let sp := uint (sp + (2 ^ 32 - (3 + argc + 1) * 4))
  let (vm, copied) ← vm.copyout pgdir sp (ustack.flatMap wordBytes)
  .ok (vm, if copied then some sp else none)

def buildImage (vm : Vm) (pgdir : Nat) (file : List UInt8) (elf : Elfhdr)
    (argv : List (List UInt8)) : Except ExecFault (Vm × List Store × Option (Nat × Nat)) := do
  let (vm, stores, sz) ← loadSegments L pgdir file elf.phnum vm [] elf.phoff 0
  match sz with
  | none => .ok (vm, stores, none)
  | some sz => do
    let (vm, sz) ← vm.makeStack L pgdir sz
    match sz with
    | none => .ok (vm, stores, none)
    | some sz => do
      let (vm, args) ← pushArgs pgdir argv vm [] sz
      match args with
      | none => .ok (vm, stores, none)
      | some (args, sp) => do
        let (vm, sp) ← vm.pushFrame pgdir args sp
        .ok (vm, stores, sp.map fun sp => (sz, sp))

end Vm

def programName (path : List UInt8) : List UInt8 :=
  ((path.reverse.takeWhile fun b => b ≠ 47).reverse).take 15

-- `file` is what namei finds, with its contents.
def exec (L : Layout) (vm : Vm) (proc : Image) (file : Option (List UInt8)) (path : List UInt8)
    (argv : List (List UInt8)) : Except ExecFault ExecResult :=
  match file.bind fun file => (readElfhdr file).map fun elf => (file, elf) with
  | none => .ok ⟨vm, proc, -1, []⟩
  | some (file, elf) => do
    let (vm, pgdir) ← Vm.lift (vm.setupkvm L)
    match pgdir with
    | none => .ok ⟨vm, proc, -1, []⟩
    | some pgdir => do
      let (vm, stores, image) ← vm.buildImage L pgdir file elf argv
      match image with
      | none => do
        let vm ← Vm.lift (vm.freevm L pgdir)
        .ok ⟨vm, proc, -1, stores⟩
      | some (sz, sp) => do
        let vm ← Vm.lift (vm.freevm L proc.pgdir)
        .ok ⟨vm, ⟨pgdir, sz, elf.entry, sp, programName path⟩, 0, stores⟩

end Xv6
