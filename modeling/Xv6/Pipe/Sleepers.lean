import Xv6.Pipe.Basic

namespace Xv6

def PipePc.holding : PipePc → Bool
  | .hold _ | .wakeup _ _ | .sleep _ _ => true
  | _ => false

def PipePc.switching : PipePc → Bool
  | .switch _ _ => true
  | _ => false

def PipePc.owes (ch : PipeChan) : PipePc → Bool
  | .hold (.writeFor _ _ unannounced) => unannounced && decide (ch = .nread)
  | .hold (.readFor _ _) => decide (ch = .nwrite)
  | .wakeup ch' _ => decide (ch = ch')
  | _ => false

-- `sleep(&p->nwrite)` is reached only from inside the lock, never by taking it.
def PipePc.resumes : PipePc → Prop
  | .acquire c | .sleep _ c | .switch _ c | .asleep _ c => ∀ m k, c ≠ .writeWait m k
  | _ => True

def PipeProc.waiting (p : PipeProc) (ch : PipeChan) : Prop :=
  match p.pc with
  | .switch ch' _ => ch' = ch
  | .asleep ch' _ => ch' = ch ∧ p.state = .sleeping
  | _ => False

namespace Pipe

variable {n : Nat}

def Ready (s : Pipe n) : PipeChan → Prop
  | .nread => s.nread ≠ s.nwrite ∨ s.writeopen = false
  | .nwrite => ¬ s.full ∨ s.readopen = false

def Calm (s : Pipe n) : PipePc → Prop
  | .sleep ch _ => ¬ s.Ready ch
  | .hold (.writeWait _ _) | .wakeup _ (.writeWait _ _) => ¬ s.Ready .nwrite
  | _ => True

def NoReadySleeper (s : Pipe n) : Prop :=
  ∀ i ch, (s.proc i).state = .sleeping → (s.proc i).chan = some ch → ¬ s.Ready ch

structure Locks (s : Pipe n) : Prop where
  holds : ∀ j, (s.proc j).pc.holding = true ↔ s.lock = some j
  switching : ∀ j, (s.proc j).pc.switching = true → s.ptableLock = some j
  asleep : ∀ j ch, (s.proc j).state = .sleeping → (s.proc j).chan = some ch →
    ∃ c, (s.proc j).pc = .asleep ch c
  chan : ∀ j ch c, (s.proc j).pc = .asleep ch c → (s.proc j).chan = some ch

theorem pstep_lock {s t : Pipe n} {i : Fin n} {op : PipeOp} (h : PStep s i op t) :
    (s.lock = none ∧ t.lock = some i ∧ (t.proc i).pc.holding = true) ∨
      ((s.proc i).pc.holding = true ∧ t.lock = none ∧ (t.proc i).pc.holding = false) ∨
      ((t.proc i).pc.holding = (s.proc i).pc.holding ∧ t.lock = s.lock) := by
  cases h <;> simp_all [PipePc.holding]

theorem pstep_ptableLock {s t : Pipe n} {i : Fin n} {op : PipeOp} (h : PStep s i op t) :
    (s.ptableLock = none ∧ t.ptableLock = some i) ∨
      ((s.proc i).pc.switching = true ∧ t.ptableLock = none ∧
        (t.proc i).pc.switching = false) ∨
      ((t.proc i).pc.switching = (s.proc i).pc.switching ∧ t.ptableLock = s.ptableLock) := by
  cases h <;> simp_all [PipePc.switching]

theorem pstep_asleep {s t : Pipe n} {i : Fin n} {op : PipeOp} (h : PStep s i op t)
    (hs : ∀ ch, (s.proc i).state = .sleeping → (s.proc i).chan = some ch →
      ∃ c, (s.proc i).pc = .asleep ch c)
    (_hc : ∀ ch c, (s.proc i).pc = .asleep ch c → (s.proc i).chan = some ch) :
    (∀ ch, (t.proc i).state = .sleeping → (t.proc i).chan = some ch →
      ∃ c, (t.proc i).pc = .asleep ch c) ∧
    (∀ ch c, (t.proc i).pc = .asleep ch c → (t.proc i).chan = some ch) := by
  cases h with
  | kill hp hpc =>
    refine ⟨fun ch hst hch => ?_, by simp⟩
    simp only [returns, setProc, Function.update_self, kill_chan] at hst hch
    obtain ⟨c, hc⟩ := hs ch ((kill_frame s.proc _ i).2.2.2 hst) hch
    rw [hpc] at hc
    cases hc
  | wakeup hp hpc =>
    refine ⟨fun ch hst hch => ?_, by simp⟩
    simp only [goto, setProc, Function.update_self, wakeup1_chan] at hst hch
    obtain ⟨c, hc⟩ := hs ch (wakeup1_sleeping hst).1 hch
    rw [hpc] at hc
    cases hc
  | _ => simp_all

theorem locks_step {s t : Pipe n} {i : Fin n} {op : PipeOp} (hs : s.Locks) (h : PStep s i op t) :
    t.Locks := by
  have hsleep := pstep_asleep h (hs.asleep i) (hs.chan i)
  refine ⟨fun j => ?_, fun j => ?_, fun j => ?_, fun j => ?_⟩
  · by_cases hj : j = i
    · subst hj
      have := hs.holds j
      rcases pstep_lock h with ⟨hl, hl', hh⟩ | ⟨hh, hl', hh'⟩ | ⟨hh, hl⟩
      · simp [hl', hh]
      · simp [hl', hh']
      · rw [hh, hl]
        exact hs.holds j
    · have hi := hs.holds i
      rw [(pstep_other h hj).1, hs.holds j]
      rcases pstep_lock h with ⟨hl, hl', hh⟩ | ⟨hh, hl', hh'⟩ | ⟨hh, hl⟩
      · simp [hl, hl', Ne.symm hj]
      · simp [hi.mp hh, hl', Ne.symm hj]
      · rw [hl]
  · by_cases hj : j = i
    · subst hj
      rcases pstep_ptableLock h with ⟨_, hl⟩ | ⟨_, _, hh⟩ | ⟨hh, hl⟩
      · exact fun _ => hl
      · simp [hh]
      · rw [hh, hl]
        exact hs.switching j
    · rw [(pstep_other h hj).1]
      intro hsw
      have hp := hs.switching j hsw
      rcases pstep_ptableLock h with ⟨hl, _⟩ | ⟨hh, _⟩ | ⟨_, hl⟩
      · simp [hp] at hl
      · exact absurd (hp.symm.trans (hs.switching i hh)) (by simpa using hj)
      · exact hl.trans hp
  · by_cases hj : j = i
    · subst hj
      exact hsleep.1
    · obtain ⟨hpc, _, hch, hst⟩ := pstep_other h hj
      rw [hpc, hch]
      exact fun ch hs' => hs.asleep j ch (hst hs')
  · by_cases hj : j = i
    · subst hj
      exact hsleep.2
    · obtain ⟨hpc, _, hch, hst⟩ := pstep_other h hj
      rw [hpc, hch]
      exact hs.chan j

structure Inv (s : Pipe n) : Prop extends s.Locks where
  resumes : ∀ j, (s.proc j).pc.resumes
  calm : ∀ j, s.Calm (s.proc j).pc
  owed : ∀ ch j, (s.proc j).waiting ch → s.Ready ch →
    ∃ k, s.lock = some k ∧ (s.proc k).pc.owes ch = true

-- A write that has stored bytes since it took the lock, and finds the buffer full, is allowed on.
def AnnouncedStep (s : Pipe n) (e : Fin n × PipeOp) : Prop :=
  match (s.proc e.1).pc with
  | .hold (.writeFor m k true) =>
    (k : Int) < m → s.full → s.readopen = true ∧ (s.proc e.1).killed = false
  | _ => True

instance (s : Pipe n) (e : Fin n × PipeOp) : Decidable (s.AnnouncedStep e) := by
  unfold AnnouncedStep; split <;> infer_instance

theorem Calm.of_not_holding (s : Pipe n) {pc : PipePc} (h : pc.holding = false) : s.Calm pc := by
  cases pc <;> trivial

theorem Calm.congr {s t : Pipe n} {pc : PipePc} (hc : s.Calm pc)
    (h : ∀ ch, t.Ready ch ↔ s.Ready ch) : t.Calm pc := by
  unfold Calm at hc ⊢
  split at hc
  · rwa [h]
  · rwa [h]
  · rwa [h]
  · trivial

theorem owes_holding {pc : PipePc} {ch : PipeChan} (h : pc.owes ch = true) :
    pc.holding = true := by
  cases pc <;> first | rfl | cases h

theorem waiting_not_holding {p : PipeProc} {ch : PipeChan} (h : p.waiting ch) :
    p.pc.holding = false := by
  cases hpc : p.pc <;> simp_all [PipeProc.waiting, PipePc.holding]

theorem pstep_ready_same {s t : Pipe n} {i : Fin n} {op : PipeOp} (h : PStep s i op t) :
    (s.proc i).pc.holding = true ∨ ∀ ch, t.Ready ch ↔ s.Ready ch := by
  cases h with
  | writeStore hpc | readTake hpc | closeWrite hpc | closeRead hpc =>
    exact Or.inl (by rw [hpc]; rfl)
  | _ => exact Or.inr fun ch => by cases ch <;> rfl

theorem pstep_ready {s t : Pipe n} {i : Fin n} {op : PipeOp} (h : PStep s i op t) {ch : PipeChan}
    (hr : t.Ready ch) : s.Ready ch ∨ (t.proc i).pc.owes ch = true := by
  cases h with
  | writeStore hpc hf =>
    cases ch with
    | nread => exact Or.inr (by simp [PipePc.owes])
    | nwrite => exact Or.inl (Or.inl hf)
  | readTake hpc hne =>
    cases ch with
    | nread => exact Or.inl (Or.inl hne)
    | nwrite => exact Or.inr (by simp [PipePc.owes])
  | closeWrite hpc =>
    cases ch with
    | nread => exact Or.inr (by simp [PipePc.owes])
    | nwrite => exact Or.inl hr
  | closeRead hpc =>
    cases ch with
    | nread => exact Or.inl hr
    | nwrite => exact Or.inr (by simp [PipePc.owes])
  | _ => exact Or.inl (by cases ch <;> exact hr)

theorem pstep_resumes {s t : Pipe n} {i : Fin n} {op : PipeOp} (h : PStep s i op t)
    (hs : (s.proc i).pc.resumes) : (t.proc i).pc.resumes := by
  cases h <;> simp_all [PipePc.resumes]

theorem pstep_calm {s t : Pipe n} {i : Fin n} {op : PipeOp} (h : PStep s i op t)
    (hs : (s.proc i).pc.resumes) (hc : s.Calm (s.proc i).pc) : t.Calm (t.proc i).pc := by
  cases h with
  | writeFull hpc hf hr =>
    simp only [goto, setProc, Function.update_self, Calm]
    exact fun h => h.elim (fun hn => hn hf) fun hr' => hr (Or.inl hr')
  | readEmpty hpc he hw =>
    simp only [goto, setProc, Function.update_self, Calm]
    exact fun h => h.elim (fun hn => hn he) fun hw' => by simp [hw] at hw'
  | writeWait hpc =>
    rw [hpc] at hc
    simpa [Calm, Ready, full] using hc
  | @wakeup b ch c hp hpc =>
    rw [hpc] at hc
    cases c with
    | writeWait m k => simpa [Calm, Ready, full] using hc
    | _ => simp [Calm]
  | @acquire b c hpc hl hf =>
    rw [hpc] at hs
    cases c <;> simp_all [Calm, PipePc.resumes]
  | @resumeOther hp hpc => simpa [Calm, Ready, full] using hc
  | @yield hp hpc => simpa [Calm, Ready, full] using hc
  | _ => simp [Calm]

theorem pstep_waiting {s t : Pipe n} {i : Fin n} {op : PipeOp} (h : PStep s i op t)
    {ch : PipeChan} (hw : (t.proc i).waiting ch) :
    (s.proc i).waiting ch ∨ ∃ c, (s.proc i).pc = .sleep ch c := by
  cases h with
  | @sleep b ch' c hp hpc =>
    have hch : ch' = ch := by simpa [PipeProc.waiting] using hw
    exact Or.inr ⟨c, hch ▸ hpc⟩
  | @switch b ch' c hpc =>
    left
    simpa [PipeProc.waiting, hpc] using hw
  | resumeOther hp hpc =>
    left
    simp only [PipeProc.waiting, setProc, Function.update_self] at hw ⊢
    split at hw
    · exact hw
    · rename_i hasleep
      exact absurd hasleep (hpc _ _)
    · exact hw
  | yield hp hpc => simp [PipeProc.waiting, hpc] at hw
  | _ => simp [PipeProc.waiting] at hw

theorem not_waiting_of_wakeup {s : Pipe n} (hs : s.Locks) (hp : s.ptableLock = none)
    (ch : PipeChan) (j : Fin n) : ¬ (wakeup1 s.proc ch j).waiting ch := by
  intro hw
  unfold PipeProc.waiting at hw
  rw [wakeup1_pc] at hw
  split at hw
  · rename_i ch' c hpc
    have := hs.switching j (by rw [hpc]; rfl)
    simp [hp] at this
  · rename_i ch' c hpc
    exact (wakeup1_sleeping hw.2).2 (hw.1 ▸ hs.chan j ch' c hpc)
  · exact hw

theorem pstep_owes {s t : Pipe n} {i : Fin n} {op : PipeOp} (h : PStep s i op t) (hs : s.Locks)
    (ha : s.AnnouncedStep (i, op)) {ch : PipeChan} (ho : (s.proc i).pc.owes ch = true) :
    (t.proc i).pc.owes ch = true ∨ ∀ j, j ≠ i → ¬ (t.proc j).waiting ch := by
  cases h with
  | @writeFail b m k f hpc hk hf hr =>
    cases f with
    | false => simp [hpc, PipePc.owes] at ho
    | true =>
      simp only [AnnouncedStep, hpc] at ha
      simp [ha hk hf] at hr
  | wakeup hp hpc =>
    right
    intro j hj hw
    simp only [hpc, PipePc.owes, decide_eq_true_eq] at ho
    simp only [goto, setProc, Function.update_of_ne hj] at hw
    exact not_waiting_of_wakeup hs hp _ j (ho ▸ hw)
  | resumeOther hp hpc => exact Or.inl (by simpa using ho)
  | _ => simp_all [PipePc.owes]

theorem calm_step {s t : Pipe n} {i : Fin n} {op : PipeOp} (hs : s.Inv) (h : PStep s i op t)
    (j : Fin n) : t.Calm (t.proc j).pc := by
  by_cases hj : j = i
  · subst hj
    exact pstep_calm h (hs.resumes j) (hs.calm j)
  · cases hh : (t.proc j).pc.holding with
    | false => exact Calm.of_not_holding t hh
    | true =>
      rw [(pstep_other h hj).1] at hh ⊢
      rcases pstep_ready_same h with hi | hready
      · have hne := ((hs.holds i).mp hi).symm.trans ((hs.holds j).mp hh)
        exact absurd (Option.some.inj hne).symm hj
      · exact (hs.calm j).congr hready

theorem waiting_before {s t : Pipe n} {i j : Fin n} {op : PipeOp} (hs : s.Inv)
    (h : PStep s i op t) {ch : PipeChan} (hw : (t.proc j).waiting ch) (hr : s.Ready ch) :
    (s.proc j).waiting ch := by
  by_cases hj : j = i
  · subst hj
    rcases pstep_waiting h hw with hw | ⟨c, hpc⟩
    · exact hw
    · have hcalm := hs.calm j
      rw [hpc] at hcalm
      exact absurd hr hcalm
  · obtain ⟨hpc, -, -, hst⟩ := pstep_other h hj
    unfold PipeProc.waiting at hw ⊢
    rw [hpc] at hw
    split at hw
    · exact hw
    · exact ⟨hw.1, hst hw.2⟩
    · exact hw

theorem owed_step {s t : Pipe n} {i : Fin n} {op : PipeOp} (hs : s.Inv)
    (ha : s.AnnouncedStep (i, op)) (h : PStep s i op t) {ch : PipeChan} {j : Fin n}
    (hw : (t.proc j).waiting ch) (hr : t.Ready ch) :
    ∃ k, t.lock = some k ∧ (t.proc k).pc.owes ch = true := by
  have ht := locks_step hs.toLocks h
  have hself : (t.proc i).pc.owes ch = true → ∃ k, t.lock = some k ∧ (t.proc k).pc.owes ch = true :=
    fun ho => ⟨i, (ht.holds i).mp (owes_holding ho), ho⟩
  rcases pstep_ready h hr with hr' | ho
  · have hws := waiting_before hs h hw hr'
    obtain ⟨k, hk, ho⟩ := hs.owed ch j hws hr'
    by_cases hki : k = i
    · subst hki
      rcases pstep_owes h hs.toLocks ha ho with ho | hnone
      · exact hself ho
      · have hheld := owes_holding ho
        have hjk : j ≠ k := by
          rintro rfl
          simp [waiting_not_holding hws] at hheld
        exact absurd hw (hnone j hjk)
    · have hpc := (pstep_other h hki).1
      rw [← hpc] at ho
      exact ⟨k, (ht.holds k).mp (owes_holding ho), ho⟩
  · exact hself ho

theorem inv_step (s : Pipe n) (e : Fin n × PipeOp) (t : Pipe n) (hs : s.Inv)
    (ha : s.AnnouncedStep e) (hst : s.step e = some t) : t.Inv := by
  have h := step_pstep hst
  refine ⟨locks_step hs.toLocks h, fun j => ?_, calm_step hs h, fun ch j => owed_step hs ha h⟩
  by_cases hj : j = e.1
  · subst hj
    exact pstep_resumes h (hs.resumes _)
  · rw [(pstep_other h hj).1]
    exact hs.resumes j

theorem Start.inv {s : Pipe n} (hs : s.Start) : s.Inv where
  holds j := by simp [hs.user j, hs.lock, PipePc.holding]
  switching j := by simp [hs.user j, PipePc.switching]
  asleep j ch := by simp [hs.chan j]
  chan j ch c := by simp [hs.user j]
  resumes j := by simp [hs.user j, PipePc.resumes]
  calm j := by simp [hs.user j, Calm]
  owed ch j := by simp [hs.user j, PipeProc.waiting]

theorem no_sleeper_on_ready_pipe {s t : Pipe n} {es : List (Fin n × PipeOp)} (hs : s.Start)
    (hes : GuardedRun.along step AnnouncedStep s es) (hr : s.run es = some t)
    (hl : t.lock = none) : t.NoReadySleeper := by
  intro i ch hst hch hready
  have hinv := GuardedRun.run_invariant inv_step hs.inv hes hr
  obtain ⟨c, hpc⟩ := hinv.asleep i ch hst hch
  have hw : (t.proc i).waiting ch := by simp [PipeProc.waiting, hpc, hst]
  obtain ⟨k, hk, -⟩ := hinv.owed ch i hw hready
  simp [hl] at hk

def readAcrossWrite : List (Fin 3 × PipeOp) :=
  (0, .piperead 1) :: List.replicate 4 (0, .tick 0) ++
    (1, .pipewrite 1) :: List.replicate 5 (1, .tick 7) ++
    (0, .schedule) :: List.replicate 6 (0, .tick 0) ++
    (0, .piperead 1) :: List.replicate 4 (0, .tick 0)

theorem no_sleeper_on_ready_pipe_readAcrossWrite :
    ∃ t, (freshPipe 0).run readAcrossWrite = some t ∧ t.taken = [7] ∧
      (t.proc 0).state = .sleeping ∧ (t.proc 0).chan = some .nread ∧ t.NoReadySleeper := by
  have hrun : ∃ t, (freshPipe 0).run readAcrossWrite = some t ∧ t.lock = none ∧ t.taken = [7] ∧
      (t.proc 0).state = .sleeping ∧ (t.proc 0).chan = some .nread :=
    GuardedRun.exists_of_any (by decide +kernel)
  obtain ⟨t, ht, hl, htaken, hst, hch⟩ := hrun
  exact ⟨t, ht, htaken, hst, hch, no_sleeper_on_ready_pipe (freshPipe_start 0)
    (GuardedRun.along_of_checks (by decide +kernel)) ht hl⟩

def readThenFill : List (Fin 3 × PipeOp) :=
  [(0, .piperead 1), (0, .tick 0), (0, .tick 0), (0, .tick 0), (0, .tick 0), (1, .pipewrite 513),
    (2, .kill 2)] ++ List.replicate 515 (1, .tick 0)

theorem killed_writer_leaves_sleeper :
    ¬ ∀ (n : Nat) (s t : Pipe n) (es : List (Fin n × PipeOp)), s.Start → s.run es = some t →
      t.lock = none → t.NoReadySleeper := by
  intro hall
  have hrun : ∃ t, (freshPipe 0).run readThenFill = some t ∧ t.lock = none ∧
      (t.proc 0).state = .sleeping ∧ (t.proc 0).chan = some .nread ∧ t.nread ≠ t.nwrite :=
    GuardedRun.exists_of_any (by decide +kernel)
  obtain ⟨t, ht, hl, hst, hch, hne⟩ := hrun
  exact hall 3 _ t _ (freshPipe_start 0) ht hl 0 .nread hst hch (Or.inl hne)

end Pipe

end Xv6
