import Xv6.Lib.RingBuffer
import Xv6.Pipe.Basic

namespace Xv6
namespace Pipe

open RingBuffer

variable {n : Nat}

def buffered (s : Pipe n) : List UInt8 :=
  entries 512 s.data s.nread.toNat (s.nwrite - s.nread).toNat

structure Fifo (s : Pipe n) : Prop where
  count : (s.nwrite - s.nread).toNat ≤ pipesize.toNat
  stream : s.taken ++ s.buffered = s.stored

structure SameStream (s t : Pipe n) : Prop where
  data : t.data = s.data
  nread : t.nread = s.nread
  nwrite : t.nwrite = s.nwrite
  stored : t.stored = s.stored
  taken : t.taken = s.taken

theorem pstep_stream {s t : Pipe n} {i : Fin n} {op : PipeOp} (h : PStep s i op t) :
    SameStream s t ∨ (¬ s.full ∧ ∃ b, SameStream (s.store b) t) ∨
      (s.nread ≠ s.nwrite ∧ SameStream s.take t) := by
  cases h with
  | @writeStore b m k f hpc hf => exact Or.inr (Or.inl ⟨hf, b, rfl, rfl, rfl, rfl, rfl⟩)
  | readTake hpc hne => exact Or.inr (Or.inr ⟨hne, rfl, rfl, rfl, rfl, rfl⟩)
  | _ => exact Or.inl ⟨rfl, rfl, rfl, rfl, rfl⟩

theorem SameStream.fifo {s t : Pipe n} (h : SameStream s t) (hs : s.Fifo) : t.Fifo := by
  refine ⟨?_, ?_⟩
  · rw [h.nwrite, h.nread]
    exact hs.count
  · rw [buffered, h.data, h.nread, h.nwrite, h.stored, h.taken]
    exact hs.stream

theorem count_store {r w : BitVec 32} (hc : (w - r).toNat ≤ 512) (hf : w ≠ r + 512) :
    (w - r).toNat < 512 ∧ (w + 1 - r).toNat = (w - r).toNat + 1 ∧
      (w.toNat : Int) % 512 = (r.toNat + (w - r).toNat) % 512 := by
  have hne : (w - r).toNat ≠ 512 := by
    intro h
    apply hf
    bv_omega
  bv_omega

theorem count_take {r w : BitVec 32} (hne : r ≠ w) :
    0 < (w - r).toNat ∧ ((w - (r + 1)).toNat : Int) = (w - r).toNat - 1 ∧
      ((r + 1).toNat : Int) % 512 = (r.toNat + 1) % 512 := by
  bv_omega

-- The slot written is the one after the last buffered byte because 512 divides 2 ^ 32.
theorem store_fifo {s : Pipe n} (hs : s.Fifo) (hf : ¬ s.full) (b : UInt8) : (s.store b).Fifo := by
  obtain ⟨hlt, hcount, hslot⟩ := count_store hs.count hf
  have hbuf : (s.store b).buffered = s.buffered ++ [b] := by
    simp only [buffered, store, hcount, Nat.cast_add, Nat.cast_one, hslot]
    exact entries_enqueue s.data b (Int.natCast_nonneg _) (by omega)
  refine ⟨?_, ?_⟩
  · simp only [store, hcount]
    exact hlt
  · rw [hbuf]
    simp only [store, ← hs.stream, List.append_assoc]

theorem take_fifo {s : Pipe n} (hs : s.Fifo) (hne : s.nread ≠ s.nwrite) : s.take.Fifo := by
  obtain ⟨hpos, hcount, hstart⟩ := count_take hne
  have hbuf : s.buffered = s.data (s.nread.toNat % 512) :: s.take.buffered := by
    simp only [buffered, take, hcount]
    rw [entries_dequeue s.data (by omega)]
    congr 1
    apply entries_congr_start
    rw [hstart, Int.emod_emod_of_dvd _ (dvd_refl _)]
  refine ⟨?_, ?_⟩
  · have := hs.count
    simp only [take]
    omega
  · calc s.take.taken ++ s.take.buffered
        = s.taken ++ s.data (s.nread.toNat % 512) :: s.take.buffered := by simp
      _ = s.stored := by rw [← hbuf, hs.stream]

theorem fifo_step (s : Pipe n) (e : Fin n × PipeOp) (t : Pipe n) (hs : s.Fifo) (_ : True)
    (hst : s.step e = some t) : t.Fifo := by
  rcases pstep_stream (step_pstep hst) with h | ⟨hf, b, h⟩ | ⟨hne, h⟩
  · exact h.fifo hs
  · exact h.fifo (store_fifo hs hf b)
  · exact h.fifo (take_fifo hs hne)

theorem Start.fifo {s : Pipe n} (hs : s.Start) : s.Fifo := by
  refine ⟨?_, ?_⟩
  · simp [hs.empty]
  · simp [buffered, entries, hs.empty, hs.stored, hs.taken]

theorem pipe_fifo {s t : Pipe n} {es : List (Fin n × PipeOp)} (hs : s.Start)
    (hr : s.run es = some t) :
    (t.nwrite - t.nread).toNat ≤ pipesize.toNat ∧ t.taken ++ t.buffered = t.stored := by
  have hinv := GuardedRun.run_invariant fifo_step hs.fifo
    (GuardedRun.along_of_forall (fun _ _ _ => trivial) s) hr
  exact ⟨hinv.count, hinv.stream⟩

def wrapRun : List (Fin 3 × PipeOp) :=
  [(0, .pipewrite 3), (0, .tick 0), (0, .tick 7), (0, .tick 8), (0, .tick 9), (0, .tick 0),
    (0, .tick 0), (0, .tick 0), (1, .piperead 2), (1, .tick 0), (1, .tick 0), (1, .tick 0),
    (1, .tick 0)]

theorem pipe_fifo_wrap :
    ∃ t, (freshPipe 0xffffffff).run wrapRun = some t ∧ (t.nread = 1 ∧ t.taken = [7, 8] ∧ t.buffered = [9]) ∧
      (t.nwrite - t.nread).toNat ≤ pipesize.toNat ∧ t.taken ++ t.buffered = t.stored := by
  have hrun : ∃ t, (freshPipe 0xffffffff).run wrapRun = some t ∧
      (t.nread = 1 ∧ t.taken = [7, 8] ∧ t.buffered = [9]) :=
    GuardedRun.exists_of_any (by decide +kernel)
  obtain ⟨t, ht, hb⟩ := hrun
  exact ⟨t, ht, hb, pipe_fifo (freshPipe_start 0xffffffff) ht⟩

end Pipe

def PipeOp.silent : PipeOp → Bool
  | .tick _ | .schedule | .yield => true
  | _ => false

-- The call has moved `k` bytes so far.
def PipeCode.Told (k : Nat) : PipeCode → Prop
  | .writeFor m j _ | .writeWait m j => j = k ∧ (0 ≤ m → k ≤ m)
  | .readWhile _ => k = 0
  | .readFor _ j => j = k
  | .ret r => 0 ≤ r → r = k
  | .closeEnd _ | .closeTest => False

def PipeProc.Told (p : PipeProc) (k : Nat) : Prop :=
  match p.pc with
  | .user => 0 ≤ p.eax → p.eax = k
  | .acquire c | .hold c | .wakeup _ c | .sleep _ c | .switch _ c | .asleep _ c => c.Told k

namespace Pipe
variable {n : Nat} {s t : Pipe n} {i j : Fin n} {op : PipeOp} {k : Nat}

def moves (s t : Pipe n) : Nat :=
  t.stored.length - s.stored.length + (t.taken.length - s.taken.length)

def movedBy (i : Fin n) (s : Pipe n) : List (Fin n × PipeOp) → Nat
  | [] => 0
  | e :: es =>
    match s.step e with
    | some t => (if e.1 = i then moves s t else 0) + movedBy i t es
    | none => 0

theorem pstep_told (h : PStep s i op t) (hop : op.silent = true) (hk : (s.proc i).Told k) :
    (t.proc i).Told (k + moves s t) := by
  unfold PipeProc.Told at hk ⊢
  cases h with
  | pipewrite | piperead | pipeclose | kill => cases hop
  | resumeOther => simpa [moves] using hk
  | yield hp hpc | wakeup hp hpc | sleep hp hpc | resumeAsleep hp hpc =>
    simpa [hpc, moves, wakeup1] using hk
  | switch hpc | acquire hpc => simpa [hpc, moves] using hk
  | closeWrite hpc | closeRead hpc | closeTest hpc => simp [hpc, PipeCode.Told] at hk
  | writeStore hpc | readTake hpc | readReady hpc | writeDone hpc =>
    simp only [hpc, PipeCode.Told] at hk
    simp [moves, PipeCode.Told]
    omega
  | writeFail | readFail => simp [PipeCode.Told]
  | writeFull hpc | writeWait hpc | readEmpty hpc | readDone hpc | ret hpc =>
    simp only [hpc, PipeCode.Told] at hk
    simpa [moves, PipeCode.Told] using hk

theorem pstep_told_other (h : PStep s i op t) (hj : j ≠ i) (hk : (s.proc j).Told k) :
    (t.proc j).Told k := by
  obtain ⟨hpc, heax, _⟩ := pstep_other h hj
  rwa [PipeProc.Told, hpc, heax]

theorem run_told {es : List (Fin n × PipeOp)} (hes : ∀ e ∈ es, e.1 = i → e.2.silent = true)
    (hk : (s.proc i).Told k) (hr : s.run es = some t) : (t.proc i).Told (k + movedBy i s es) := by
  induction es generalizing s k with
  | nil =>
    cases hr
    exact hk
  | cons e es ih =>
    obtain ⟨u, hst, hr⟩ := (GuardedRun.run_cons step).mp hr
    have hu : (u.proc i).Told (k + if e.1 = i then moves s u else 0) := by
      by_cases hei : e.1 = i
      · rw [if_pos hei]
        exact hei ▸ pstep_told (step_pstep hst) (hes e List.mem_cons_self hei) (hei ▸ hk)
      · rw [if_neg hei]
        exact pstep_told_other (step_pstep hst) (Ne.symm hei) hk
    have ht := ih (fun e he => hes e (List.mem_cons_of_mem _ he)) hu hr
    simpa [movedBy, hst, Nat.add_assoc] using ht

theorem call_moves {m : Int} {es : List (Fin n × PipeOp)}
    (hop : op = .pipewrite m ∨ op = .piperead m)
    (hes : ∀ e ∈ es, e.1 = i → e.2.silent = true) (hr : s.run ((i, op) :: es) = some t)
    (hpc : (t.proc i).pc = .user) (h0 : 0 ≤ (t.proc i).eax) :
    (t.proc i).eax = movedBy i s ((i, op) :: es) := by
  obtain ⟨u, hst, hr⟩ := (GuardedRun.run_cons step).mp hr
  have hu : (u.proc i).Told 0 ∧ moves s u = 0 := by
    have hp := step_pstep hst
    rcases hop with rfl | rfl <;> cases hp <;> simp [PipeProc.Told, PipeCode.Told, moves]
  have ht := run_told hes hu.1 hr
  simp only [PipeProc.Told, hpc] at ht
  simpa [movedBy, hst, hu.2] using ht h0

end Pipe
end Xv6
