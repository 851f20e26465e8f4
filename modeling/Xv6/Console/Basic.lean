import Xv6.Lib.GuardedRun
import Xv6.Lib.RingBuffer
import Xv6.Param

namespace Xv6

abbrev inputBuf : BitVec 32 := 128

def ctrl (c : Char) : UInt8 := c.toUInt8 - '@'.toUInt8

def newline : UInt8 := 10

def carriageReturn : UInt8 := 13

def delete : UInt8 := 0x7f

structure Input where
  buf : Int → UInt8
  r : BitVec 32
  w : BitVec 32
  e : BitVec 32

inductive ReadEnd where
  | done (n : Nat)
  | eof
  | killed
  | asleep (n : Nat)
  deriving DecidableEq, Repr

namespace Input

def byteAt (s : Input) (i : BitVec 32) : UInt8 := s.buf (i.toNat % 128)

def killLoop : Nat → Input → Input
  | 0, s => s
  | k + 1, s => if s.e ≠ s.w ∧ s.byteAt (s.e - 1) ≠ newline then killLoop k { s with e := s.e - 1 } else s

def backspace (s : Input) : Input := if s.e ≠ s.w then { s with e := s.e - 1 } else s

def put (s : Input) (c : UInt8) : Input :=
  { s with buf := Function.update s.buf (s.e.toNat % 128) c, e := s.e + 1 }

def store (s : Input) (c : UInt8) : Input :=
  if c = newline ∨ c = ctrl 'D' ∨ (s.put c).e = s.r + inputBuf then
    { s.put c with w := (s.put c).e }
  else s.put c

def accepts (s : Input) (c : UInt8) : Prop := c ≠ 0 ∧ s.e - s.r < inputBuf

instance (s : Input) (c : UInt8) : Decidable (s.accepts c) := inferInstanceAs (Decidable (_ ∧ _))

def translate (c : UInt8) : UInt8 := if c = carriageReturn then newline else c

def consoleintr (s : Input) (c : UInt8) : Input :=
  if c = ctrl 'P' then s
  else if c = ctrl 'U' then killLoop (s.e - s.w).toNat s
  else if c = ctrl 'H' ∨ c = delete then s.backspace
  else if s.accepts c then s.store (translate c)
  else s

-- consoleread under `input.lock`, from its loop on, with n bytes still to be read: the bytes it
-- stores, and how it gives up the lock.
def readLoop (killed : Bool) (target : Nat) : Nat → Input → List UInt8 × Input × ReadEnd
  | 0, s => ([], s, .done 0)
  | n + 1, s =>
    if s.r = s.w then ([], s, if killed then .killed else .asleep (n + 1))
    else if s.byteAt s.r = ctrl 'D' then
      if n + 1 < target then ([], s, .done (n + 1)) else ([], { s with r := s.r + 1 }, .eof)
    else if s.byteAt s.r = newline then ([s.byteAt s.r], { s with r := s.r + 1 }, .done n)
    else
      let (bytes, t, how) := readLoop killed target n { s with r := s.r + 1 }
      (s.byteAt s.r :: bytes, t, how)

end Input

inductive ReadPc where
  | user
  | asleep (target n : Nat)
  deriving DecidableEq, Repr

inductive ConsoleEvent (P : Type) where
  | intr (c : UInt8)
  | read (p : P) (n : Int)
  | tick (p : P)
  | kill (p : P)

structure Edited where
  committed : List UInt8
  line : List UInt8

namespace Edited

def store (s : Edited) (unread : Nat) (c : UInt8) : Edited :=
  if c = newline ∨ c = ctrl 'D' ∨ unread + s.line.length + 1 = 128 then
    ⟨s.committed ++ (s.line ++ [c]), []⟩
  else ⟨s.committed, s.line ++ [c]⟩

-- The editing rules, for a character that arrives when `unread` committed bytes are unread.
def key (s : Edited) (unread : Nat) (c : UInt8) : Edited :=
  if c = ctrl 'P' then s
  else if c = ctrl 'U' then ⟨s.committed, []⟩
  else if c = ctrl 'H' ∨ c = delete then ⟨s.committed, s.line.dropLast⟩
  else if c ≠ 0 ∧ unread + s.line.length < 128 then s.store unread (Input.translate c)
  else s

end Edited

-- `edited` and `consumed` are history: what the editing rules make of the characters so far, and
-- what the reads took.
structure Console (P : Type) where
  input : Input
  pc : P → ReadPc
  killed : P → Bool
  eax : P → Int
  edited : Edited
  consumed : List UInt8

namespace Console

variable {P : Type} [DecidableEq P]

def returns (s : Console P) (p : P) (k : Int) : Console P :=
  { s with pc := Function.update s.pc p .user, eax := Function.update s.eax p k }

def readSection (s : Console P) (p : P) (target n : Nat) : Console P :=
  match s.input.readLoop (s.killed p) target n with
  | (bytes, input, .done k) =>
    { s with input := input, consumed := s.consumed ++ bytes }.returns p (target - k)
  | (bytes, input, .eof) =>
    { s with input := input, consumed := s.consumed ++ bytes ++ [ctrl 'D'] }.returns p 0
  | (bytes, input, .killed) =>
    { s with input := input, consumed := s.consumed ++ bytes }.returns p (-1)
  | (bytes, input, .asleep k) =>
    { s with input := input, consumed := s.consumed ++ bytes
             pc := Function.update s.pc p (.asleep target k) }

def step (s : Console P) : ConsoleEvent P → Option (Console P)
  | .intr c => some { s with
      input := s.input.consoleintr c
      edited := s.edited.key (s.edited.committed.length - s.consumed.length) c }
  | .read p n =>
    match s.pc p with
    | .user => some (s.readSection p n.toNat n.toNat)
    | .asleep _ _ => none
  | .tick p =>
    match s.pc p with
    | .user => none
    | .asleep target n => some (s.readSection p target n)
  | .kill p => some { s with killed := Function.update s.killed p true }

abbrev run (s : Console P) (es : List (ConsoleEvent P)) : Option (Console P) :=
  GuardedRun.run step s es

end Console

end Xv6
