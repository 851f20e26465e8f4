import Xv6.Proc.Basic

namespace Xv6

open SlotScan

variable {n : Nat}

def int32 (x : Int) : Int := x.bmod (2 ^ 32)

theorem int32_succ {x : Int} (h0 : 0 ≤ x) (h1 : x < 2 ^ 31 - 1) : int32 (x + 1) = x + 1 := by
  simp only [int32, Int.bmod]
  norm_num
  omega

theorem int32_add (x y : Int) : int32 (int32 x + y) = int32 (x + y) := by
  simp [int32]

namespace Proc

def live (p : Proc n) : Prop := p.state ≠ .unused ∧ p.state ≠ .zombie

def active (p : Proc n) : Prop := p.live ∧ p.state ≠ .embryo

instance (p : Proc n) : Decidable p.live := by unfold live; infer_instance

instance (p : Proc n) : Decidable p.active := by unfold active; infer_instance

def reaped (p : Proc n) : Proc n :=
  { p with kstack := 0, state := .unused, pid := 0, parent := none, killed := false }

end Proc

def allocSlot (pt : Ptable n) : Option (Fin n) :=
  firstSlot (fun p => decide ((pt p).state = .unused))

def wakeup1 (pt : Ptable n) (chan : Option (Fin n)) : Ptable n := fun p =>
  if (pt p).state = .sleeping ∧ (pt p).chan = chan then { pt p with state := .runnable } else pt p

def wakeJoiners (pt : Ptable n) (proc : Fin n) : Ptable n := fun p =>
  if (pt p).state = .sleeping ∧
      ∃ i, (pt proc).sleepingThreads i ≠ none ∧ (pt p).chan = (pt proc).sleepingThreads i then
    { pt p with state := .runnable }
  else pt p

def threadsCounter (pt : Ptable n) (proc : Fin n) : Nat :=
  (List.finRange n).countP (fun p => decide ((pt p).pid = (pt proc).pid ∧ (pt p).live))

def reapSiblings (pt : Ptable n) (proc : Fin n) : Ptable n := fun p =>
  if (pt p).state = .zombie ∧ (pt p).pid = (pt proc).pid ∧
      (pt proc).threadId ≠ (pt p).threadId then (pt p).reaped
  else pt p

def abandonChildren (pt : Ptable n) (proc initproc : Fin n) : Ptable n :=
  let pt' : Ptable n := fun p =>
    if (pt p).parent = some proc then { pt p with parent := some initproc } else pt p
  if ∃ p, (pt p).parent = some proc ∧ (pt p).state = .zombie then wakeup1 pt' (some initproc)
  else pt'

def newExitTable (pt : Ptable n) (proc initproc : Fin n) : Ptable n :=
  setState (abandonChildren (wakeup1 pt (pt proc).parent) proc initproc) proc .zombie

def zombieChild (pt : Ptable n) (proc : Fin n) : Option (Fin n) :=
  firstSlot (fun p => decide ((pt p).parent = some proc ∧ (pt p).state = .zombie))

def joinTarget (pt : Ptable n) (threadId : Int) : Option (Fin n) :=
  firstSlot (fun p => decide ((pt p).threadId = threadId ∧ (pt p).state ≠ .zombie))

def freeIndex (p : Proc n) : Option (Fin 64) :=
  firstSlot (fun i => decide (p.sleepingThreads i = none))

def setSleeping (pt : Ptable n) (p : Fin n) (i : Fin 64) (v : Option (Fin n)) : Ptable n :=
  Function.update pt p
    { pt p with sleepingThreads := Function.update (pt p).sleepingThreads i v }

-- `sleepingThreads` is the last field of a slot: index 64 is the `sz` of the next slot.
def clearSleeping (pt : Ptable n) (p : Fin n) : Option (Fin 64) → Ptable n
  | some i => setSleeping pt p i none
  | none =>
    if h : p.val + 1 < n then
      Function.update pt ⟨p.val + 1, h⟩ { pt ⟨p.val + 1, h⟩ with sz := 0 }
    else pt

def killSlot (pt : Ptable n) (pid : Int) : Option (Fin n) :=
  firstSlot (fun p => decide ((pt p).pid = pid))

def killTable (pt : Ptable n) (p : Fin n) : Ptable n :=
  Function.update pt p
    { pt p with
      killed := true
      state := if (pt p).state = .sleeping then .runnable else (pt p).state }

theorem threadsCounter_eq_one {pt : Ptable n} {proc : Fin n} (hp : (pt proc).live) :
    threadsCounter pt proc = 1 ↔ ∀ q, q ≠ proc → (pt q).pid = (pt proc).pid → ¬ (pt q).live := by
  have hmem : ∀ q, q ∈ (List.finRange n).filter
      (fun p => decide ((pt p).pid = (pt proc).pid ∧ (pt p).live)) ↔
      (pt q).pid = (pt proc).pid ∧ (pt q).live := by
    intro q
    simp
  have hnodup := (List.nodup_finRange n).filter
    (fun p => decide ((pt p).pid = (pt proc).pid ∧ (pt p).live))
  rw [threadsCounter, List.countP_eq_length_filter, List.length_eq_one_iff]
  constructor
  · rintro ⟨a, ha⟩ q hq hpid hlive
    rw [ha] at hmem
    have h1 := List.mem_singleton.mp ((hmem proc).mpr ⟨rfl, hp⟩)
    have h2 := List.mem_singleton.mp ((hmem q).mpr ⟨hpid, hlive⟩)
    exact hq (h2.trans h1.symm)
  · intro h
    refine ⟨proc, List.perm_singleton.mp ?_⟩
    refine (List.perm_ext_iff_of_nodup hnodup (List.nodup_singleton proc)).mpr ?_
    intro q
    rw [hmem, List.mem_singleton]
    constructor
    · rintro ⟨hpid, hlive⟩
      by_contra hq
      exact h q hq hpid hlive
    · rintro rfl
      exact ⟨rfl, hp⟩

theorem zombieChild_some {pt : Ptable n} {i z : Fin n} (h : zombieChild pt i = some z) :
    (pt z).parent = some i ∧ (pt z).state = .zombie := of_decide_eq_true (firstSlot_some h)

theorem allocSlot_some {pt : Ptable n} {np : Fin n} (h : allocSlot pt = some np) :
    (pt np).state = .unused := of_decide_eq_true (firstSlot_some h)

theorem joinTarget_some {pt : Ptable n} {p : Fin n} {threadId : Int}
    (h : joinTarget pt threadId = some p) :
    (pt p).threadId = threadId ∧ (pt p).state ≠ .zombie := of_decide_eq_true (firstSlot_some h)

theorem freeIndex_some {p : Proc n} {i : Fin 64} (h : freeIndex p = some i) :
    p.sleepingThreads i = none := of_decide_eq_true (firstSlot_some h)

theorem killSlot_some {pt : Ptable n} {pid : Int} {p : Fin n} (h : killSlot pt pid = some p) :
    (pt p).pid = pid := of_decide_eq_true (firstSlot_some h)

theorem killSlot_none {pt : Ptable n} {pid : Int} :
    killSlot pt pid = none ↔ ∀ p, (pt p).pid ≠ pid := by
  simp [killSlot, firstSlot_none]

end Xv6
