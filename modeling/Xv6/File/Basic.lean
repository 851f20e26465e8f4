import Xv6.Proc.Table

namespace Xv6

open SlotScan

def rootino : Nat := 1

inductive FileType where
  | none
  | pipe
  | inode
  deriving DecidableEq, Repr

structure File where
  type : FileType
  ref : Int
  ip : Option (Fin ninode)

structure Inode where
  inum : Nat
  ref : Int

abbrev Ftable := Fin nfile → File
abbrev Icache := Fin ninode → Inode
abbrev Ofile := Fin nofile → Option (Fin nfile)

def filealloc (ft : Ftable) : Option (Fin nfile × Ftable) :=
  (firstSlot (fun f => decide ((ft f).ref = 0))).map fun f =>
    (f, Function.update ft f { ft f with ref := 1 })

def filedup (ft : Ftable) (f : Fin nfile) : Option Ftable :=
  if (ft f).ref < 1 then none
  else some (Function.update ft f { ft f with ref := int32 ((ft f).ref + 1) })

-- The inode, if any, whose iput follows outside the lock.
def fileclose (ft : Ftable) (f : Fin nfile) : Option (Ftable × Option (Fin ninode)) :=
  if (ft f).ref < 1 then none
  else if (ft f).ref - 1 > 0 then
    some (Function.update ft f { ft f with ref := (ft f).ref - 1 }, none)
  else
    some (Function.update ft f { ft f with ref := 0, type := .none },
      if (ft f).type = .inode then (ft f).ip else none)

def fdalloc (o : Ofile) : Option (Fin nofile) := firstSlot (fun fd => decide (o fd = none))

def iget (ic : Icache) (inum : Nat) : Option (Fin ninode × Icache) :=
  match firstSlot (fun j => decide ((ic j).ref > 0 ∧ (ic j).inum = inum)) with
  | some j => some (j, Function.update ic j { ic j with ref := int32 ((ic j).ref + 1) })
  | none =>
    (firstSlot (fun j => decide ((ic j).ref = 0))).map fun j =>
      (j, Function.update ic j ⟨inum, 1⟩)

def idup (ic : Icache) (j : Fin ninode) : Icache :=
  Function.update ic j { ic j with ref := int32 ((ic j).ref + 1) }

def iput (ic : Icache) (j : Fin ninode) : Icache :=
  Function.update ic j { ic j with ref := int32 ((ic j).ref - 1) }

theorem int32_pred {x : Int} (h0 : 1 ≤ x) (h1 : x < 2 ^ 31) : int32 (x - 1) = x - 1 := by
  simp only [int32, Int.bmod]
  norm_num
  omega

theorem filealloc_some {ft ft' : Ftable} {f : Fin nfile} (h : filealloc ft = some (f, ft')) :
    (ft f).ref = 0 ∧ ft' = Function.update ft f { ft f with ref := 1 } := by
  obtain ⟨g, hg, he⟩ := Option.map_eq_some_iff.mp h
  cases he
  exact ⟨of_decide_eq_true (firstSlot_some hg), rfl⟩

theorem filedup_some {ft ft' : Ftable} {f : Fin nfile} (h : filedup ft f = some ft') :
    1 ≤ (ft f).ref ∧ ft' = Function.update ft f { ft f with ref := int32 ((ft f).ref + 1) } := by
  unfold filedup at h
  split at h <;> cases h
  exact ⟨by omega, rfl⟩

theorem fileclose_some {ft ft' : Ftable} {f : Fin nfile} {ip : Option (Fin ninode)}
    (h : fileclose ft f = some (ft', ip)) :
    1 < (ft f).ref ∧ ft' = Function.update ft f { ft f with ref := (ft f).ref - 1 } ∧ ip = none ∨
      (ft f).ref = 1 ∧ ft' = Function.update ft f { ft f with ref := 0, type := .none } ∧
        ip = if (ft f).type = .inode then (ft f).ip else none := by
  unfold fileclose at h
  split at h
  · cases h
  · split at h <;> cases h
    · exact Or.inl ⟨by omega, rfl, rfl⟩
    · exact Or.inr ⟨by omega, rfl, rfl⟩

theorem fdalloc_some {o : Ofile} {fd : Fin nofile} (h : fdalloc o = some fd) : o fd = none :=
  of_decide_eq_true (firstSlot_some h)

def Takes (ic : Icache) (j : Fin ninode) (ic' : Icache) : Prop :=
  0 < (ic j).ref ∧ ic' = idup ic j ∨ (ic j).ref = 0 ∧ ∃ inum, ic' = Function.update ic j ⟨inum, 1⟩

theorem iget_takes {ic ic' : Icache} {j : Fin ninode} {inum : Nat}
    (h : iget ic inum = some (j, ic')) : Takes ic j ic' := by
  unfold iget at h
  split at h
  · rename_i k hk
    cases h
    exact Or.inl ⟨(of_decide_eq_true (firstSlot_some hk)).1, rfl⟩
  · obtain ⟨k, hk, he⟩ := Option.map_eq_some_iff.mp h
    cases he
    exact Or.inr ⟨of_decide_eq_true (firstSlot_some hk), inum, rfl⟩

end Xv6
