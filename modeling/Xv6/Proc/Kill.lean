import Xv6.Proc.Reaping

namespace Xv6

variable {n : Nat}

def kill (pt : Ptable n) (pid : Int) : Ptable n × Int :=
  match killSlot pt pid with
  | some p => (killTable pt p, 0)
  | none => (pt, -1)

def Targets (pt : Ptable n) (pid : Int) (p : Fin n) : Prop := (pt p).live ∧ (pt p).pid = pid

instance (pt : Ptable n) (pid : Int) (p : Fin n) : Decidable (Targets pt pid p) := by
  unfold Targets; infer_instance

structure Killed (pt pt' : Ptable n) (pid : Int) : Prop where
  marked : ∀ p, Targets pt pid p → (pt' p).killed = true
  awake : ∀ p, Targets pt pid p → (pt' p).state ≠ .sleeping ∧ (pt' p).state ≠ .blocking
  others : ∀ p, (pt p).pid ≠ pid → pt' p = pt p
  free : ∀ p, (pt p).state = .unused → pt' p = pt p

structure KillsWhole (pt : Ptable n) (pid : Int) : Prop where
  result : (kill pt pid).2 = 0 ↔ ∃ p, Targets pt pid p
  target : (∃ p, Targets pt pid p) → Killed pt (kill pt pid).1 pid
  absent : (¬ ∃ p, Targets pt pid p) → kill pt pid = (pt, -1)

structure KillReaches (pt : Ptable n) (pid : Int) (first : Fin n) : Prop where
  target : ∃ p, Targets pt pid p
  free : (pt first).state = .unused → (pt first).killed = true
  unblocked : (pt first).state ≠ .blocking
  others : ∀ p, p ≠ first → Targets pt pid p →
    (pt p).killed = true ∧ (pt p).state ≠ .sleeping ∧ (pt p).state ≠ .blocking

theorem killTable_first (pt : Ptable n) (first : Fin n) :
    killTable pt first first = { pt first with
      killed := true
      state := if (pt first).state = .sleeping then .runnable else (pt first).state } :=
  Function.update_self first _ pt

theorem killTable_ne (pt : Ptable n) {first p : Fin n} (h : p ≠ first) :
    killTable pt first p = pt p :=
  Function.update_of_ne h _ pt

theorem killTable_awake (pt : Ptable n) {first : Fin n} (h : (pt first).state ≠ .blocking) :
    (killTable pt first first).state ≠ .sleeping ∧
      (killTable pt first first).state ≠ .blocking := by
  rw [killTable_first]
  by_cases hs : (pt first).state = .sleeping <;> simp [hs, h]

theorem killTable_free {pt : Ptable n} {first : Fin n} (hstate : (pt first).state = .unused) :
    killTable pt first first = pt first ↔ (pt first).killed = true := by
  rw [killTable_first]
  constructor
  · intro h
    rw [← h]
  · intro h
    cases hp : pt first with
    | mk sz pgdir kstack state pid parent chan killed threadId sleepingThreads =>
      rw [hp] at h hstate
      simp_all

theorem killTable_killed_iff {pt : Ptable n} {pid : Int} {first : Fin n}
    (hpid : (pt first).pid = pid) (htarget : ∃ p, Targets pt pid p) :
    Killed pt (killTable pt first) pid ↔ KillReaches pt pid first := by
  constructor
  · intro h
    refine ⟨htarget, fun hfree => (killTable_free hfree).mp (h.free first hfree), ?_, ?_⟩
    · intro hblocking
      have hlive : (pt first).live := by simp [Proc.live, hblocking]
      refine (h.awake first ⟨hlive, hpid⟩).2 ?_
      rw [killTable_first]
      simp [hblocking]
    · intro p hp ht
      have hmarked := h.marked p ht
      have hawake := h.awake p ht
      rw [killTable_ne pt hp] at hmarked hawake
      exact ⟨hmarked, hawake⟩
  · intro h
    refine ⟨fun p ht => ?_, fun p ht => ?_, fun p hp => ?_, fun p hfree => ?_⟩
    · by_cases hp : p = first
      · rw [hp, killTable_first]
      · rw [killTable_ne pt hp]
        exact (h.others p hp ht).1
    · by_cases hp : p = first
      · rw [hp]
        exact killTable_awake pt h.unblocked
      · rw [killTable_ne pt hp]
        exact (h.others p hp ht).2
    · exact killTable_ne pt (fun heq => hp (heq ▸ hpid))
    · by_cases hp : p = first
      · subst hp
        exact (killTable_free hfree).mpr (h.free hfree)
      · exact killTable_ne pt hp

theorem kill_whole_iff (pt : Ptable n) (pid : Int) :
    KillsWhole pt pid ↔ ∀ first, killSlot pt pid = some first → KillReaches pt pid first := by
  cases hfirst : killSlot pt pid with
  | none =>
    have hnone : ¬ ∃ p, Targets pt pid p :=
      fun ⟨p, ht⟩ => killSlot_none.mp hfirst p ht.2
    have hkill : kill pt pid = (pt, -1) := by simp only [kill, hfirst]
    constructor
    · intro _ first h
      cases h
    · intro _
      refine ⟨?_, fun h => absurd h hnone, fun _ => hkill⟩
      simp [hkill, hnone]
  | some first =>
    have hpid := killSlot_some hfirst
    have hkill : kill pt pid = (killTable pt first, 0) := by simp only [kill, hfirst]
    constructor
    · rintro h f hf
      cases hf
      have htarget := h.result.mp (by rw [hkill])
      have hkilled := h.target htarget
      rw [hkill] at hkilled
      exact (killTable_killed_iff hpid htarget).mp hkilled
    · intro h
      have hreach := h first rfl
      refine ⟨iff_of_true (by rw [hkill]) hreach.target, fun htarget => ?_,
        fun h => absurd hreach.target h⟩
      rw [hkill]
      exact (killTable_killed_iff hpid htarget).mpr hreach

def threadStarts : List (Fin nproc × ProcOp) :=
  (0, .schedule) :: Procs.createOps 0 1 3 4

set_option maxRecDepth 4000 in
theorem kill_spares_second_thread :
    ¬ ∀ (s t : Procs nproc) (es : List (Fin nproc × ProcOp)) (pid : Int),
      s.Boot → s.run es = some t → KillsWhole t.ptable pid := by
  intro h
  have hall := h (Procs.userinit 0 1 2) _ threadStarts 1
    (Procs.userinit_boot 0 1 (by decide)) rfl
  have hmarked := (hall.target ⟨1, by decide +kernel⟩).marked 1 (by decide +kernel)
  exact absurd hmarked (by decide +kernel)

end Xv6
