import Mathlib.Tactic

namespace Xv6

abbrev nproc : Nat := 64

abbrev nofile : Nat := 16

abbrev nfile : Nat := 100

abbrev ninode : Nat := 50

abbrev nbuf : Nat := 10

-- Numerals denote the slots of a table, the arguments of a call and the processes of a run.
instance : NeZero nproc := ⟨by decide⟩

instance : NeZero nofile := ⟨by decide⟩

instance : NeZero ninode := ⟨by decide⟩

instance neZeroTwo : NeZero 2 := ⟨by decide⟩

instance neZeroThree : NeZero 3 := ⟨by decide⟩

instance neZeroTen : NeZero 10 := ⟨by decide⟩

end Xv6
