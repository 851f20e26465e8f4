import Xv6.Lib.GuardedRun
import Xv6.Vm.Uvm

namespace Xv6.PathStrings

open Vm

structure UserMem where
  byte : Nat → UInt8
  mapped : Nat → Bool

namespace UserMem

def has (m : UserMem) (a : Nat) : Bool := m.mapped (a / pgsize)

def store (m : UserMem) (a : Nat) (b : UInt8) : UserMem :=
  { m with byte := Function.update m.byte a b }

def unmap (m : UserMem) (lo hi : Nat) (missed : List Nat) : UserMem :=
  { m with mapped := fun v => if lo ≤ v ∧ v < hi ∧ v ∉ missed then false else m.mapped v }

def mapZero (m : UserMem) (lo hi : Nat) (missed : List Nat) : UserMem where
  byte := fun a => if lo * pgsize ≤ a ∧ a < hi * pgsize then 0 else m.byte a
  mapped := fun v => if lo ≤ v ∧ v < hi then decide (v ∉ missed) else m.mapped v

-- `avail` is the number of pages that kalloc can still give; `missed` are the pages whose mappages
-- fails for want of a page table, which allocuvm does not notice, and those that deallocuvm jumps
-- over after an absent page table. A page that is mapped already is the panic remap.
def allocuvm (m : UserMem) (oldsz newsz avail : Nat) (missed : List Nat) : Option (UserMem × Nat) :=
  if kernbase ≤ newsz then some (m, 0)
  else if newsz < oldsz then some (m, oldsz)
  else if ∃ j < min avail (pages newsz - pages oldsz), m.mapped (pages oldsz + j) = true then none
  else if avail < pages newsz - pages oldsz then
    some ((m.mapZero (pages oldsz) (pages newsz) []).unmap (pages oldsz) (pages newsz) missed, 0)
  else some (m.mapZero (pages oldsz) (pages newsz) missed, newsz)

def deallocuvm (m : UserMem) (oldsz newsz : Nat) (missed : List Nat) : UserMem × Nat :=
  if oldsz ≤ newsz then (m, oldsz) else (m.unmap (pages newsz) (pages oldsz) missed, newsz)

def growproc (m : UserMem) (sz : Nat) (n : Int) (avail : Nat) (missed : List Nat) :
    Option (UserMem × Nat) :=
  if 0 < n then do
    let (m, r) ← m.allocuvm sz (addInt sz n) avail missed
    pure (m, if r = 0 then sz else r)
  else if n < 0 then
    let (m, r) := m.deallocuvm sz (addInt sz n) missed
    some (m, if r = 0 then sz else r)
  else some (m, sz)

end UserMem

inductive Action where
  | argstr (i : Fin 2)
  | namex (i : Fin 2) (parent : Bool)
  | saveName (i : Fin 2)
  deriving DecidableEq, Repr

inductive PathCall where
  | open (create : Bool)
  | link
  | unlink
  | mkdir
  | mknod
  | chdir
  | exec
  deriving DecidableEq, Repr

def PathCall.actions : PathCall → List Action
  | .open create => [.argstr 0, .namex 0 create]
  | .link => [.argstr 0, .argstr 1, .namex 0 false, .namex 1 true]
  | .unlink | .mkdir | .mknod => [.argstr 0, .namex 0 true]
  | .chdir => [.argstr 0, .namex 0 false]
  | .exec => [.argstr 0, .namex 0 false, .saveName 0]

-- Where the kernel is in a checked string: `first` to `peek` in namex and its skipelem, the rest
-- in the loop of exec that looks for the last element and in its safestrcpy.
inductive Walk where
  | first (parent : Bool)
  | skip (parent : Bool) (path : Nat)
  | atEnd (parent : Bool) (path : Nat)
  | slash (parent : Bool) (s path : Nat)
  | zero (parent : Bool) (s path : Nat)
  | copy (parent : Bool) (s path k : Nat)
  | tail (parent : Bool) (path : Nat)
  | body (parent : Bool) (path : Nat)
  | peek (path : Nat)
  | scan (s last : Nat)
  | scanSlash (s last : Nat)
  | save (t n : Nat)
  deriving DecidableEq, Repr

def dirsiz : Nat := 14

namespace Walk

def read (addr : Nat) : Walk → Option Nat
  | first _ => some addr
  | skip _ path | atEnd _ path | slash _ _ path | zero _ _ path | tail _ path | peek path =>
    some path
  | copy _ s path k => if k < min (path - s) dirsiz then some (s + k) else none
  | body _ _ => none
  | scan s _ | scanSlash s _ => some s
  | save t n => if 1 < n then some t else none

def next (addr : Nat) (b : UInt8) : Walk → Option Walk
  | first parent => some (skip parent addr)
  | skip parent path => if b = 47 then some (skip parent (path + 1)) else some (atEnd parent path)
  | atEnd parent path => if b = 0 then none else some (slash parent path path)
  | slash parent s path =>
    if b = 47 then some (copy parent s path 0) else some (zero parent s path)
  | zero parent s path =>
    if b = 0 then some (copy parent s path 0) else some (slash parent s (path + 1))
  | copy parent s path k =>
    if k < min (path - s) dirsiz then some (copy parent s path (k + 1)) else some (tail parent path)
  | tail parent path => if b = 47 then some (tail parent (path + 1)) else some (body parent path)
  | body parent path => if parent then some (peek path) else some (skip parent path)
  | peek path => if b = 0 then none else some (skip true path)
  | scan s last => if b = 0 then some (save last 16) else some (scanSlash s last)
  | scanSlash s last => some (scan (s + 1) (if b = 47 then s + 1 else last))
  | save t n => if 1 < n ∧ b ≠ 0 then some (save (t + 1) (n - 1)) else none

end Walk

inductive Pc where
  | user
  | next (todo : List Action)
  | fetch (i : Fin 2) (s : Nat) (todo : List Action)
  | walk (i : Fin 2) (w : Walk) (todo : List Action)
  deriving DecidableEq, Repr

-- One thread of the process makes path calls; every thread has its own copy of sz.
-- `nul` is where argstr found the end of each argument it has checked.
structure State (T : Type) where
  mem : UserMem
  sz : T → Nat
  arg : Fin 2 → Nat
  nul : Fin 2 → Option Nat
  pc : Pc

inductive Event (T : Type) where
  | call (p : PathCall) (arg : Fin 2 → Nat)
  | kernel
  | fail
  | write (t : T) (a : Nat) (b : UInt8)
  | sbrk (t : T) (n : Int) (avail : Nat) (missed : List Nat)

variable {T : Type} (c : T)

namespace State

def leave (s : State T) : State T := { s with nul := fun _ => none, pc := .user }

def fetchstr (s : State T) (i : Fin 2) (p : Nat) (todo : List Action) : Option (State T) :=
  if s.sz c ≤ p then some s.leave
  else if s.mem.has p = false then none
  else if s.mem.byte p = 0 then
    some { s with nul := Function.update s.nul i (some p), pc := .next todo }
  else some { s with pc := .fetch i (p + 1) todo }

def advance (s : State T) (i : Fin 2) (w : Walk) (todo : List Action) (b : UInt8) : State T :=
  match w.next (s.arg i) b with
  | some w => { s with pc := .walk i w todo }
  | none => { s with pc := .next todo }

-- A read of memory that is not mapped is a page fault in the kernel, which is a panic.
def use (s : State T) (i : Fin 2) (w : Walk) (todo : List Action) : Option (State T) :=
  match w.read (s.arg i) with
  | some a => if s.mem.has a then some (s.advance i w todo (s.mem.byte a)) else none
  | none => some (s.advance i w todo 0)

def kernel (s : State T) : Option (State T) :=
  match s.pc with
  | .user => none
  | .next [] => some s.leave
  | .next (.argstr i :: todo) => some { s with pc := .fetch i (s.arg i) todo }
  | .next (.namex i parent :: todo) => some { s with pc := .walk i (.first parent) todo }
  | .next (.saveName i :: todo) =>
    some { s with pc := .walk i (.scan (s.arg i) (s.arg i)) todo }
  | .fetch i p todo => s.fetchstr c i p todo
  | .walk i w todo => s.use i w todo

def mayFail (s : State T) : Bool :=
  match s.pc with
  | .next _ | .walk _ (.body _ _) _ => true
  | _ => false

def Runs (s : State T) (t : T) : Prop := t = c → s.pc = .user

instance [DecidableEq T] (s : State T) (t : T) : Decidable (s.Runs c t) :=
  inferInstanceAs (Decidable (t = c → s.pc = .user))

end State

def step [DecidableEq T] (s : State T) : Event T → Option (State T)
  | .call p arg =>
    if s.pc = .user then some { s with arg := arg, pc := .next p.actions } else none
  | .kernel => s.kernel c
  | .fail => if s.mayFail then some s.leave else none
  | .write t a b =>
    if s.Runs c t ∧ s.mem.has a = true then some { s with mem := s.mem.store a b } else none
  | .sbrk t n avail missed =>
    if s.Runs c t then do
      let (m, sz) ← s.mem.growproc (s.sz t) n avail missed
      pure { s with mem := m, sz := Function.update s.sz t sz }
    else none

def Start (s : State T) : Prop := s.pc = .user ∧ ∀ i, s.nul i = none

def Terminated (s : State T) (i : Fin 2) : Prop :=
  ∃ e < s.sz c, s.arg i ≤ e ∧ s.mem.byte e = 0 ∧ ∀ a, s.arg i ≤ a → a ≤ e → s.mem.has a = true

-- At each step that uses a checked string, the string still ends inside the process and the byte
-- read lies inside the process.
def StringsValid (s : State T) : Event T → Prop
  | .kernel => match s.pc with
    | .walk i w _ => Terminated c s i ∧
        ∀ a, w.read (s.arg i) = some a → a < s.sz c ∧ s.mem.has a = true
    | _ => True
  | _ => True

def held (s : State T) (i : Fin 2) : Option Nat :=
  match s.nul i, s.pc with
  | some e, _ => some (e + 1)
  | none, .fetch j p _ => if i = j then some p else none
  | none, _ => none

-- No thread overwrites the NUL of a checked string, and no thread moves its size to or from a
-- point below the end of what has been checked.
def Undisturbed (s : State T) : Event T → Prop
  | .write _ a b => ∀ i, s.nul i = some a → b = 0
  | .sbrk t n _ _ => ∀ i, ∀ e ∈ held s i,
      e ≤ pages (s.sz t) * pgsize ∧ e ≤ pages (addInt (s.sz t) n) * pgsize
  | _ => True

instance (s : State T) (e : Event T) : Decidable (Undisturbed s e) :=
  match e with
  | .write _ a b => inferInstanceAs (Decidable (∀ i, s.nul i = some a → b = 0))
  | .sbrk t n _ _ => inferInstanceAs (Decidable (∀ i, ∀ e ∈ held s i,
      e ≤ pages (s.sz t) * pgsize ∧ e ≤ pages (addInt (s.sz t) n) * pgsize))
  | .call _ _ | .kernel | .fail => isTrue trivial

def Ready : (Fin 2 → Bool) → List Action → Prop
  | _, [] => True
  | checked, .argstr i :: todo => checked i = false ∧ Ready (Function.update checked i true) todo
  | checked, .namex i _ :: todo => checked i = true ∧ Ready checked todo
  | checked, .saveName i :: todo => checked i = true ∧ Ready checked todo

theorem PathCall.actions_ready (p : PathCall) : Ready (fun _ => false) p.actions := by
  cases p <;> simp [PathCall.actions, Ready]

namespace Walk

def Within (addr e : Nat) : Walk → Prop
  | .first _ => True
  | .skip _ path | .atEnd _ path | .tail _ path | .body _ path | .peek path =>
    addr ≤ path ∧ path ≤ e
  | .slash _ s path | .zero _ s path | .copy _ s path _ => addr ≤ s ∧ s ≤ path ∧ path ≤ e
  | .scan s last => addr ≤ last ∧ last ≤ s ∧ s ≤ e
  | .scanSlash s last => addr ≤ last ∧ last ≤ s ∧ s < e
  | .save t _ => addr ≤ t ∧ t ≤ e

theorem read_within {addr e a : Nat} {w : Walk} (haddr : addr ≤ e) (hw : w.Within addr e)
    (h : w.read addr = some a) : addr ≤ a ∧ a ≤ e := by
  cases w <;> simp only [read, Within, Option.some.injEq] at h hw
  all_goals grind

theorem next_within {addr e : Nat} {w w₁ : Walk} {b : UInt8} (haddr : addr ≤ e)
    (hw : w.Within addr e) (hb : w.read addr = some e → b = 0) (h : w.next addr b = some w₁) :
    w₁.Within addr e := by
  cases w <;> simp only [read, next, Within, Option.some.injEq] at h hw hb
  all_goals grind [Within]

end Walk

namespace UserMem

theorem unmap_keeps (m : UserMem) {lo a : Nat} (hi : Nat) (missed : List Nat)
    (h : a < lo * pgsize) :
    (m.unmap lo hi missed).byte a = m.byte a ∧ (m.unmap lo hi missed).has a = m.has a := by
  refine ⟨rfl, ?_⟩
  have hlt : a / pgsize < lo := (Nat.div_lt_iff_lt_mul (by decide)).mpr h
  exact if_neg fun hin => Nat.not_lt.mpr hin.1 hlt

theorem mapZero_keeps (m : UserMem) {lo a : Nat} (hi : Nat) (missed : List Nat)
    (h : a < lo * pgsize) :
    (m.mapZero lo hi missed).byte a = m.byte a ∧ (m.mapZero lo hi missed).has a = m.has a := by
  have hlt : a / pgsize < lo := (Nat.div_lt_iff_lt_mul (by decide)).mpr h
  constructor
  · simp only [mapZero, if_neg (show ¬ (lo * pgsize ≤ a ∧ a < hi * pgsize) by omega)]
  · simp only [has, mapZero, if_neg (show ¬ (lo ≤ a / pgsize ∧ a / pgsize < hi) by omega)]

theorem allocuvm_keeps {m m' : UserMem} {oldsz newsz avail r a : Nat} {missed : List Nat}
    (h : m.allocuvm oldsz newsz avail missed = some (m', r)) (ha : a < pages oldsz * pgsize) :
    m'.byte a = m.byte a ∧ m'.has a = m.has a := by
  unfold allocuvm at h
  split at h
  · cases h
    exact ⟨rfl, rfl⟩
  split at h
  · cases h
    exact ⟨rfl, rfl⟩
  split at h
  · cases h
  split at h
  · cases h
    have hzero := m.mapZero_keeps (pages newsz) [] ha
    have hunmap := (m.mapZero (pages oldsz) (pages newsz) []).unmap_keeps (pages newsz)
      missed ha
    exact ⟨hunmap.1.trans hzero.1, hunmap.2.trans hzero.2⟩
  · cases h
    exact m.mapZero_keeps _ missed ha

theorem deallocuvm_keeps (m : UserMem) {oldsz newsz a : Nat} (missed : List Nat)
    (ha : a < pages newsz * pgsize) :
    (m.deallocuvm oldsz newsz missed).1.byte a = m.byte a ∧
      (m.deallocuvm oldsz newsz missed).1.has a = m.has a := by
  unfold deallocuvm
  split
  · exact ⟨rfl, rfl⟩
  · exact m.unmap_keeps _ missed ha

theorem growproc_keeps {m m' : UserMem} {sz avail r a : Nat} {n : Int} {missed : List Nat}
    (h : m.growproc sz n avail missed = some (m', r)) (ha : a < pages sz * pgsize)
    (hn : a < pages (addInt sz n) * pgsize) : m'.byte a = m.byte a ∧ m'.has a = m.has a := by
  unfold growproc at h
  split at h
  · cases halloc : m.allocuvm sz (addInt sz n) avail missed with
    | none =>
      rw [halloc] at h
      cases h
    | some q =>
      rw [halloc] at h
      cases h
      exact allocuvm_keeps halloc ha
  split at h
  · cases h
    exact m.deallocuvm_keeps missed hn
  · cases h
    exact ⟨rfl, rfl⟩

end UserMem

def checked (s : State T) (i : Fin 2) : Bool := (s.nul i).isSome

structure Checked (s : State T) (i : Fin 2) (e : Nat) : Prop where
  addr_le : s.arg i ≤ e
  lt_sz : e < s.sz c
  nul : s.mem.byte e = 0
  mapped : ∀ a, s.arg i ≤ a → a ≤ e → s.mem.has a = true

def PcOk (s : State T) : Prop :=
  match s.pc with
  | .user => ∀ i, s.nul i = none
  | .next todo => Ready (checked s) todo
  | .fetch i p todo => s.nul i = none ∧ Ready (Function.update (checked s) i true) todo ∧
      s.arg i ≤ p ∧ ∀ a, s.arg i ≤ a → a < p → s.mem.has a = true
  | .walk i w todo => Ready (checked s) todo ∧ ∃ e, s.nul i = some e ∧ w.Within (s.arg i) e

structure Inv (s : State T) : Prop where
  ends : ∀ i e, s.nul i = some e → Checked c s i e
  pc : PcOk s

variable {c}

theorem Start.inv {s : State T} (h : Start s) : Inv c s where
  ends := by
    intro i e he
    rw [h.2 i] at he
    cases he
  pc := by
    rw [PcOk, h.1]
    exact h.2

theorem leave_inv (s : State T) : Inv c s.leave := Start.inv ⟨rfl, fun _ => rfl⟩

theorem call_inv {s : State T} (h : Inv c s) (p : PathCall) (arg : Fin 2 → Nat)
    (hpc : s.pc = .user) : Inv c { s with arg := arg, pc := .next p.actions } := by
  have hnul : ∀ i, s.nul i = none := by
    have h := h.pc
    rwa [PcOk, hpc] at h
  constructor
  · intro i e he
    rw [show s.nul i = none from hnul i] at he
    cases he
  · have hchecked : checked s = fun _ => false := by
      funext i
      rw [checked, hnul i, Option.isSome_none]
    change Ready (checked s) p.actions
    rw [hchecked]
    exact p.actions_ready

theorem Inv.goto {s : State T} (h : Inv c s) {pc : Pc} (hpc : PcOk { s with pc := pc }) :
    Inv c { s with pc := pc } where
  ends := fun i e he =>
    let hc := h.ends i e he
    ⟨hc.addr_le, hc.lt_sz, hc.nul, hc.mapped⟩
  pc := hpc

theorem fetchstr_inv {s t : State T} {i : Fin 2} {p : Nat} {todo : List Action} (h : Inv c s)
    (hpc : s.pc = .fetch i p todo) (hs : s.fetchstr c i p todo = some t) : Inv c t := by
  have hok := h.pc
  rw [PcOk, hpc] at hok
  obtain ⟨hnone, hready, haddr, hmapped⟩ := hok
  unfold State.fetchstr at hs
  split at hs
  · cases hs
    exact leave_inv s
  rename_i hsz
  split at hs
  · cases hs
  rename_i hhas
  have hupto : ∀ a, s.arg i ≤ a → a ≤ p → s.mem.has a = true := by
    intro a ha hle
    rcases Nat.lt_or_eq_of_le hle with hlt | rfl
    · exact hmapped a ha hlt
    · simpa using hhas
  split at hs
  · rename_i hzero
    cases hs
    constructor
    · intro j e he
      by_cases hj : j = i
      · subst hj
        simp only [Function.update_self, Option.some.injEq] at he
        subst he
        exact ⟨haddr, Nat.lt_of_not_le hsz, hzero, hupto⟩
      · simp only [Function.update_of_ne hj] at he
        obtain ⟨h1, h2, h3, h4⟩ := h.ends j e he
        exact ⟨h1, h2, h3, h4⟩
    · have hchecked : checked { s with nul := Function.update s.nul i (some p), pc := .next todo } =
          Function.update (checked s) i true := by
        funext j
        by_cases hj : j = i
        · subst hj
          simp only [checked, Function.update_self, Option.isSome_some]
        · simp only [checked, Function.update_of_ne hj]
      rw [PcOk, hchecked]
      exact hready
  · cases hs
    exact h.goto ⟨hnone, hready, Nat.le_succ_of_le haddr, fun a ha hlt =>
      hupto a ha (Nat.le_of_lt_succ hlt)⟩

theorem advance_inv {s : State T} {i : Fin 2} {w : Walk} {todo : List Action} {b : UInt8}
    (h : Inv c s) (hpc : s.pc = .walk i w todo)
    (hb : ∀ a, w.read (s.arg i) = some a → b = s.mem.byte a) : Inv c (s.advance i w todo b) := by
  have hok := h.pc
  rw [PcOk, hpc] at hok
  obtain ⟨hready, e, he, hw⟩ := hok
  have hend := h.ends i e he
  unfold State.advance
  split
  · rename_i w₁ hnext
    have hzero : w.read (s.arg i) = some e → b = 0 := fun hr => (hb e hr).trans hend.nul
    exact h.goto ⟨hready, e, he, Walk.next_within hend.addr_le hw hzero hnext⟩
  · exact h.goto hready

theorem use_inv {s t : State T} {i : Fin 2} {w : Walk} {todo : List Action} (h : Inv c s)
    (hpc : s.pc = .walk i w todo) (hs : s.use i w todo = some t) : Inv c t := by
  unfold State.use at hs
  split at hs
  · rename_i a ha
    split at hs
    · cases hs
      refine advance_inv h hpc fun a' ha' => ?_
      rw [ha] at ha'
      cases ha'
      rfl
    · cases hs
  · rename_i hnone
    cases hs
    refine advance_inv h hpc fun a ha => ?_
    rw [hnone] at ha
    cases ha

theorem kernel_inv {s t : State T} (h : Inv c s) (hs : s.kernel c = some t) : Inv c t := by
  have hok := h.pc
  unfold State.kernel at hs
  split at hs
  · cases hs
  · cases hs
    exact leave_inv s
  · rename_i i todo hpc
    rw [PcOk, hpc] at hok
    cases hs
    exact h.goto ⟨by simpa [checked] using hok.1, hok.2, le_rfl, fun a ha hlt =>
      absurd ha (Nat.not_le_of_lt hlt)⟩
  · rename_i i parent todo hpc
    rw [PcOk, hpc] at hok
    cases hs
    obtain ⟨e, he⟩ := Option.isSome_iff_exists.mp hok.1
    exact h.goto ⟨hok.2, e, he, trivial⟩
  · rename_i i todo hpc
    rw [PcOk, hpc] at hok
    cases hs
    obtain ⟨e, he⟩ := Option.isSome_iff_exists.mp hok.1
    exact h.goto ⟨hok.2, e, he, le_rfl, le_rfl, (h.ends i e he).addr_le⟩
  · rename_i i p todo hpc
    exact fetchstr_inv h hpc hs
  · rename_i i w todo hpc
    exact use_inv h hpc hs

theorem Inv.interfere {s : State T} (h : Inv c s) {m : UserMem} {sz : T → Nat}
    (hsz : s.pc ≠ .user → sz c = s.sz c) (hnul : ∀ i e, s.nul i = some e → m.byte e = 0)
    (hheld : ∀ i e, held s i = some e → ∀ a < e, s.mem.has a = true → m.has a = true) :
    Inv c { s with mem := m, sz := sz } := by
  have hok := h.pc
  constructor
  · intro i e he
    have hc := h.ends i e he
    have hbusy : s.pc ≠ .user := by
      intro hpc
      rw [PcOk, hpc] at hok
      exact absurd he (by rw [show s.nul i = none from hok i]; simp)
    refine ⟨hc.addr_le, ?_, hnul i e he, fun a ha hle => ?_⟩
    · change e < sz c
      rw [hsz hbusy]
      exact hc.lt_sz
    · refine hheld i (e + 1) ?_ a (by omega) (hc.mapped a ha hle)
      rw [held, show s.nul i = some e from he]
  · unfold PcOk at hok ⊢
    cases hpc : s.pc with
    | user =>
      simp only [hpc] at hok
      exact hok
    | next todo =>
      simp only [hpc] at hok
      exact hok
    | walk i w todo =>
      simp only [hpc] at hok
      exact hok
    | fetch i p todo =>
      simp only [hpc] at hok
      obtain ⟨hnone, hready, haddr, hmapped⟩ := hok
      refine ⟨hnone, hready, haddr, fun a ha hlt => ?_⟩
      refine hheld i p ?_ a hlt (hmapped a ha hlt)
      simp only [held, hnone, hpc, if_pos]

theorem write_inv {s : State T} (h : Inv c s) {a : Nat} {b : UInt8}
    (hu : ∀ i, s.nul i = some a → b = 0) : Inv c { s with mem := s.mem.store a b } := by
  refine h.interfere (fun _ => rfl) (fun i e he => ?_) fun _ _ _ _ _ ha => ha
  by_cases hea : e = a
  · subst hea
    exact (Function.update_self e b s.mem.byte).trans (hu i he)
  · exact (Function.update_of_ne hea b s.mem.byte).trans (h.ends i e he).nul

theorem sbrk_inv [DecidableEq T] {s : State T} {u : T} {n : Int} {avail r : Nat}
    {missed : List Nat} {m : UserMem} (h : Inv c s) (hruns : s.Runs c u)
    (hu : ∀ i, ∀ e ∈ held s i,
      e ≤ pages (s.sz u) * pgsize ∧ e ≤ pages (addInt (s.sz u) n) * pgsize)
    (hg : s.mem.growproc (s.sz u) n avail missed = some (m, r)) :
    Inv c { s with mem := m, sz := Function.update s.sz u r } := by
  have hkeep : ∀ i e, held s i = some e → ∀ a < e, m.byte a = s.mem.byte a ∧
      m.has a = s.mem.has a := by
    intro i e he a ha
    obtain ⟨hold, hnew⟩ := hu i e he
    exact UserMem.growproc_keeps hg (by omega) (by omega)
  refine h.interfere (fun hpc => ?_) (fun i e he => ?_) fun i e he a ha hhas => ?_
  · have hne : c ≠ u := fun hcu => hpc (hruns hcu.symm)
    rw [Function.update_of_ne hne]
  · have hheld : held s i = some (e + 1) := by
      rw [held, show s.nul i = some e from he]
    rw [(hkeep i (e + 1) hheld e (by omega)).1]
    exact (h.ends i e he).nul
  · rw [(hkeep i e he a ha).2]
    exact hhas

theorem step_inv [DecidableEq T] {s t : State T} {e : Event T} (h : Inv c s) (hu : Undisturbed s e)
    (hs : step c s e = some t) : Inv c t := by
  cases e with
  | call p arg =>
    rw [step] at hs
    split at hs
    · rename_i hpc
      cases hs
      exact call_inv h p arg hpc
    · cases hs
  | kernel => exact kernel_inv h hs
  | fail =>
    rw [step] at hs
    split at hs
    · cases hs
      exact leave_inv s
    · cases hs
  | write u a b =>
    rw [step] at hs
    split at hs
    · cases hs
      exact write_inv h hu
    · cases hs
  | sbrk u n avail missed =>
    rw [step] at hs
    split at hs
    · rename_i hruns
      cases hg : s.mem.growproc (s.sz u) n avail missed with
      | none =>
        rw [hg] at hs
        cases hs
      | some q =>
        rw [hg] at hs
        cases hs
        exact sbrk_inv h hruns hu hg
    · cases hs

theorem Inv.valid {s : State T} (h : Inv c s) (e : Event T) : StringsValid c s e := by
  unfold StringsValid
  split
  · split
    · rename_i i w todo hpc
      have hok := h.pc
      rw [PcOk, hpc] at hok
      obtain ⟨_, e, he, hw⟩ := hok
      have hc := h.ends i e he
      refine ⟨⟨e, hc.lt_sz, hc.addr_le, hc.nul, hc.mapped⟩, fun a ha => ?_⟩
      obtain ⟨hlow, hhigh⟩ := Walk.read_within hc.addr_le hw ha
      exact ⟨hhigh.trans_lt hc.lt_sz, hc.mapped a hlow hhigh⟩
    · trivial
  · trivial

theorem checked_strings_stay_valid [DecidableEq T] (c : T) {s : State T} {es : List (Event T)}
    (hs : Start s) (hu : GuardedRun.along (step c) Undisturbed s es) :
    GuardedRun.along (step c) (StringsValid c) s es :=
  GuardedRun.along_of_invariant (fun _ _ _ h hu hs => step_inv h hu hs)
    (fun _ e h _ => h.valid e) hs.inv hu

def shared : State Bool where
  mem := ⟨fun a => if a = 4094 then 97 else 0, fun v => decide (v = 0)⟩
  sz := fun _ => 4096
  arg := fun _ => 0
  nul := fun _ => none
  pc := .user

def chdirCall : Event Bool := .call .chdir fun _ => 4094

def undisturbed : List (Event Bool) :=
  [chdirCall] ++ List.replicate 4 .kernel ++ [.write true 4093 98, .sbrk true 4096 1 []] ++
    List.replicate 14 .kernel

theorem checked_strings_stay_valid_chdir :
    (∃ t, GuardedRun.run (step false) shared undisturbed = some t ∧ t.pc = .user) ∧
      GuardedRun.along (step false) (StringsValid false) shared undisturbed := by
  refine ⟨GuardedRun.exists_of_any (by decide +kernel), ?_⟩
  refine checked_strings_stay_valid false ⟨rfl, fun _ => rfl⟩ ?_
  exact GuardedRun.along_of_checks (by decide +kernel)

-- The other thread puts a letter over the NUL once argstr has found it.
def overwritten : List (Event Bool) :=
  [chdirCall] ++ List.replicate 4 .kernel ++ [.write true 4095 98] ++ List.replicate 7 .kernel

theorem overwritten_nul_escapes :
    ¬ ∀ (c : Bool) (s : State Bool) (es : List (Event Bool)), Start s →
      GuardedRun.along (step c) (StringsValid c) s es := by
  intro h
  have hrun : ∃ t, GuardedRun.run (step false) shared overwritten = some t ∧
      t.pc = .walk 0 (.slash false 4094 4096) [] ∧ t.sz false = 4096 :=
    GuardedRun.exists_of_any (by decide +kernel)
  obtain ⟨t, ht, hpc, hsz⟩ := hrun
  have halong := h false shared (overwritten ++ [.kernel]) ⟨rfl, fun _ => rfl⟩
  have hvalid := GuardedRun.along_at halong ht
  rw [StringsValid, hpc] at hvalid
  have hlt := (hvalid.2 4096 rfl).1
  rw [hsz] at hlt
  exact absurd hlt (by decide)

end Xv6.PathStrings
