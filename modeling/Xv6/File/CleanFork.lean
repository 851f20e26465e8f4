import Xv6.File.Dangling

namespace Xv6

variable {n : Nat}

theorem killed_wakeup1 (pt : Ptable n) (chan : Option (Fin n)) (p : Fin n) :
    (wakeup1 pt chan p).killed = (pt p).killed := by
  unfold wakeup1
  split <;> rfl

theorem killed_wakeJoiners (pt : Ptable n) (i p : Fin n) :
    (wakeJoiners pt i p).killed = (pt p).killed := by
  unfold wakeJoiners
  split <;> rfl

theorem killed_update (pt : Ptable n) {i : Fin n} {q : Proc n} (h : q.killed = (pt i).killed)
    (p : Fin n) : (Function.update pt i q p).killed = (pt p).killed := by
  by_cases hp : p = i
  · subst hp; simpa using h
  · simp [hp]

theorem killed_clearSleeping (pt : Ptable n) (q : Fin n) (k : Option (Fin 64)) (p : Fin n) :
    (clearSleeping pt q k p).killed = (pt p).killed := by
  cases k with
  | some k => exact killed_update pt (by rfl) p
  | none =>
    simp only [clearSleeping]
    split
    · exact killed_update pt (by rfl) p
    · rfl

theorem killed_newExitTable (pt : Ptable n) (i initproc p : Fin n) :
    (newExitTable pt i initproc p).killed = (pt p).killed := by
  have habandon : ∀ pt : Ptable n, ∀ p, (abandonChildren pt i initproc p).killed = (pt p).killed := by
    intro pt p
    have hadopt : ∀ p, (if (pt p).parent = some i then
        { pt p with parent := some initproc } else pt p).killed = (pt p).killed := by
      intro p
      split <;> rfl
    simp only [abandonChildren]
    split
    · exact (killed_wakeup1 _ _ p).trans (hadopt p)
    · exact hadopt p
  refine (killed_update _ (by rfl) p).trans ?_
  rw [habandon, killed_wakeup1]

namespace Procs

theorem killed_step {s t : Procs n} {i : Fin n} {op : ProcOp} (h : PStep s i op t) (p : Fin n) :
    (t.ptable p).killed = (s.ptable p).killed ∨ (t.ptable p).killed = false ∨
      ∃ pid, op = .kill pid ∧ killSlot s.ptable pid = some p := by
  have hawake : ∀ p, ((s.awake i).ptable p).killed = (s.ptable p).killed := killed_update _ (by rfl)
  have hentry : ∀ {op b}, s.WaitEntry i op b → ∀ p, (b.ptable p).killed = (s.ptable p).killed := by
    rintro op b (⟨_, _, _, rfl⟩ | ⟨_, _, _, rfl⟩) p
    · rfl
    · exact hawake p
  cases h with
  | joinReturn => exact Or.inl ((killed_clearSleeping _ _ _ p).trans (hawake p))
  | @waitReap op b z he hz =>
    by_cases hpz : p = z
    · subst hpz; simp [reap, Proc.reaped]
    · exact Or.inl (by simpa [reap, hpz] using hentry he p)
  | waitNone he => exact Or.inl (hentry he p)
  | waitBlock he => exact Or.inl ((killed_update _ (by rfl) p).trans (hentry he p))
  | @init k np kstack =>
    cases k <;> exact Or.inl (killed_update _ (by rfl) p)
  | exitLast =>
    simp only [goto, setTable, reapSiblings]
    split
    · exact Or.inr (Or.inl rfl)
    · exact Or.inl (killed_wakeJoiners _ _ p)
  | exitThread => exact Or.inl ((killed_update _ (by rfl) p).trans (killed_wakeJoiners _ _ p))
  | newExit => exact Or.inl (killed_newExitTable _ _ _ p)
  | join => exact Or.inl ((killed_update _ (by rfl) p).trans (killed_update _ (by rfl) p))
  | @kill pid q hs hpc hp =>
    by_cases hpq : p = q
    · subst hpq
      exact Or.inr (Or.inr ⟨pid, rfl, hp⟩)
    · exact Or.inl (by simp [killTable, hpq])
  | spawnFull | createCount | createLoad | execFail | execBuild | execAbort | joinNone | killNone =>
    exact Or.inl rfl
  | _ => exact Or.inl (killed_update _ (by rfl) p)

end Procs

def FilePc.copied : FilePc → Nat
  | .forkDup k => k
  | _ => 0

namespace Files

variable {s t : Files n} {i : Fin n}

structure Clean (s : Files n) : Prop extends Tidy s where
  unused : ∀ p, (s.procs.ptable p).state = .unused →
    (s.procs.ptable p).killed = false ∧ ∀ fd, s.ofile p fd = none
  zombie : ∀ p, (s.procs.ptable p).state = .zombie → ∀ fd, s.ofile p fd = none
  killed : ∀ p, (s.procs.ptable p).state = .embryo → (s.procs.ptable p).killed = true →
    (s.procs.ptable p).pid ∈ s.kills
  filled : ∀ i p, s.procs.pc i = .forkPublish p → ∀ fd : Fin nofile,
    s.ofile p fd = if fd.val < (s.fpc i).copied then s.ofile i fd else none
  exited : ∀ p, s.fpc p = .exitStore ∨ s.fpc p = .exited → ∀ fd, s.ofile p fd = none

def killTarget (s : Files n) (e : Fin n × FileOp) : Option (Fin n) :=
  match e.2 with
  | .proc (.kill pid) => killSlot s.procs.ptable pid
  | _ => none

def CleanStep (s : Files n) (e : Fin n × FileOp) : Prop :=
  (∀ p, s.killTarget e = some p → (s.procs.ptable p).state ≠ .unused) ∧
    (e.2 = .proc (.spawnInit none) ∨ e.2 = .proc (.spawnCopy none) →
      ∀ p, (s.procs.pc e.1).spawning = some p → (s.procs.ptable p).killed = false) ∧
    (e.2 = .proc .exit → threadsCounter (wakeJoiners s.procs.ptable e.1) e.1 ≠ 1 →
      ∀ fd, s.ofile e.1 fd = none)

instance (s : Files n) (e : Fin n × FileOp) : Decidable (s.CleanStep e) := by
  unfold CleanStep; infer_instance

theorem fstep_kills {op : FileOp} (hop : ∀ op', op ≠ .proc op') (hk : FStep s i op t) :
    t.kills = s.kills := by
  cases hk with
  | proc => exact absurd rfl (hop _)
  | @exitPut fd ip => cases ip <;> rfl
  | _ => rfl

theorem fstep_exited {op : FileOp} {fd : Fin nofile} (hop : ∀ op', op ≠ .proc op')
    (hk : FStep s i op t) (h : s.fpc i = .exitStore → s.ofile i fd = none)
    (hx : t.fpc i = .exitStore ∨ t.fpc i = .exited) : t.ofile i fd = none := by
  cases hk with
  | proc => exact absurd rfl (hop _)
  | exitCwd hpc hf ho => exact openFd_none ho fd
  | exitStore hpc hf => exact h hf
  | exitClose hpc hf => simp [clear, hf] at hx
  | @exitPut fd ip => cases ip <;> simp [Files.exitPut] at hx
  | _ => simp at hx

theorem fstep_filled {op : FileOp} {p : Fin n} (hop : ∀ op', op ≠ .proc op')
    (hk : FStep s i op t) (hpi : i ≠ p) (hp : s.procs.pc i = .forkPublish p)
    (h : ∀ fd : Fin nofile, s.ofile p fd =
      if fd.val < (s.fpc i).copied then s.ofile i fd else none) (fd : Fin nofile) :
    t.ofile p fd = if fd.val < (t.fpc i).copied then t.ofile i fd else none := by
  have hcopied : ∀ k, s.fpc i = .forkDup k ∨ s.fpc i = .idle ∧ k = 0 → (s.fpc i).copied = k := by
    rintro k (hf | ⟨hf, rfl⟩) <;> simp [hf, FilePc.copied]
  cases hk with
  | proc => exact absurd rfl (hop _)
  | @forkSkip np k hk hpc hf hfd =>
    have hold := h fd
    rw [hcopied k hf] at hold
    by_cases hfdk : fd.val = k
    · subst hfdk
      simp only [lt_irrefl, if_false] at hold
      simp [FilePc.copied, hold, hfd]
    · have hlt : fd.val < k + 1 ↔ fd.val < k := by omega
      simpa [FilePc.copied, hlt] using hold
  | @forkDup np k hk f ft hpc hf hfd hd =>
    rw [hp] at hpc
    cases hpc
    have hold := h fd
    rw [hcopied k hf] at hold
    by_cases hfdk : fd.val = k
    · obtain rfl : fd = ⟨k, hk⟩ := Fin.ext hfdk
      simp [FilePc.copied, install, hpi, hfd]
    · have hlt : fd.val < k + 1 ↔ fd.val < k := by omega
      have hne : fd ≠ ⟨k, hk⟩ := fun hfd => hfdk (congrArg Fin.val hfd)
      simpa [FilePc.copied, install, hpi, hne, hlt] using hold
  | _ => simp [hp] at *

theorem running_clean {op : FileOp} (h : s.Clean) (hs : (s.procs.ptable i).state = .running)
    (hop : ∀ op', op ≠ .proc op') (hk : FStep s i op t) : t.Clean := by
  obtain ⟨hpt, hgroups⟩ := fstep_procs hop hk
  obtain ⟨hbusy, hfpc⟩ := fstep_fpc hop hk
  have hpc : t.procs.pc = s.procs.pc := congrArg Groups.pc hgroups
  -- the row of a slot that is neither `i` nor the child `i` is filling stays
  have hrow : ∀ p, (s.procs.ptable p).state ≠ .running → s.procs.pc i ≠ .forkPublish p →
      t.ofile p = s.ofile p := by
    intro p hp hno
    have hpi : p ≠ i := by
      rintro rfl
      exact hp hs
    exact (fstep_ofile hop hk p hpi).resolve_right hno
  have hspawner : ∀ p, (s.procs.ptable p).state ≠ .embryo → s.procs.pc i ≠ .forkPublish p := by
    intro p hp hf
    exact hp (Procs.phase_embryo.mp
      (h.spawning.slot i p (by simp [Procs.groups, hf, ProcPc.spawning])).2)
  refine ⟨running_tidy h.toTidy hs hop hk, ?_, ?_, ?_, ?_, ?_⟩
  · intro p hp
    rw [hpt] at hp ⊢
    obtain ⟨hkilled, hnone⟩ := h.unused p hp
    refine ⟨hkilled, fun fd => ?_⟩
    rw [hrow p (by simp [hp]) (hspawner p (by simp [hp]))]
    exact hnone fd
  · intro p hp fd
    rw [hpt] at hp
    rw [hrow p (by simp [hp]) (hspawner p (by simp [hp]))]
    exact h.zombie p hp fd
  · intro p hp hkilled
    rw [hpt] at hp hkilled ⊢
    rw [fstep_kills hop hk]
    exact h.killed p hp hkilled
  · intro j p hj fd
    rw [hpc] at hj
    have hspawn : (s.procs.groups.pc j).spawning = some p := by
      simp [Procs.groups, hj, ProcPc.spawning]
    obtain ⟨hactj, hembryo⟩ := h.spawning.slot j p hspawn
    have hembryo := Procs.phase_embryo.mp hembryo
    by_cases hji : j = i
    · subst hji
      have hjp : j ≠ p := by
        rintro rfl
        simp [hembryo] at hs
      exact fstep_filled hop hk hjp hj (h.filled j p hj) fd
    · have hno : s.procs.pc i ≠ .forkPublish p := fun hi =>
        hji (h.spawning.unique j i p hspawn (by simp [Procs.groups, hi, ProcPc.spawning]))
      have hjrow : t.ofile j = s.ofile j := by
        refine (fstep_ofile hop hk j hji).resolve_right (hspawner j fun he => ?_)
        rw [Procs.phase_embryo.mpr he] at hactj
        cases hactj
      rw [hrow p (by simp [hembryo]) hno, hfpc j hji, hjrow]
      exact h.filled j p hj fd
  · intro p hx fd
    by_cases hpi : p = i
    · subst hpi
      exact fstep_exited hop hk (fun hf => h.exited p (Or.inl hf) fd) hx
    · rw [hfpc p hpi] at hx
      have hne : (s.procs.ptable p).state ≠ .embryo := by
        intro he
        simp [h.idle p (by simp [Proc.active, he])] at hx
      rw [(fstep_ofile hop hk p hpi).resolve_right (hspawner p hne)]
      exact h.exited p hx fd

section Proc

variable {procs : Procs n} {op : ProcOp}

theorem procEffect_kills {pc : ProcPc n} {fpc : FilePc} (h : s.procEffect i op pc fpc = some t) :
    (∀ v ∈ s.kills, v ∈ t.kills) ∧ ∀ pid, op = .kill pid → pid ∈ t.kills := by
  unfold procEffect at h
  split at h
  · cases h; simp
  · cases h; simp
  · split at h
    · obtain ⟨ip, _, rfl⟩ := Option.map_eq_some_iff.mp h
      simp
    · cases h
  · cases h
  · cases h; simp [inherit]
  · cases h; simp
  · cases h
  · cases h; simp +contextual
  · cases h
    exact ⟨fun v hv => hv, by simp_all⟩
  · cases h

theorem proc_clean (h : s.Clean) (hc : s.CleanStep (i, .proc op))
    (hp : Procs.PStep s.procs i op procs)
    (he : s.procEffect i op (s.procs.pc i) (s.fpc i) = some t) : (t.setProcs procs).Clean := by
  -- kthread_create is the only operation that fills a row, and its slot is an embryo
  have hrow : ∀ p, (procs.ptable p).state ≠ .runnable ∨ (s.procs.ptable p).state ≠ .embryo →
      t.ofile p = s.ofile p := by
    rintro p hor
    refine (procEffect_ofile he p).resolve_right ?_
    rintro ⟨rfl, q, hpc⟩
    rcases hor with hno | hno
    · exact hno (Procs.createPublish_pid hp hpc).2
    · exact hno (Procs.phase_embryo.mp
        (h.spawning.slot i p (by simp [Procs.groups, hpc, ProcPc.spawning])).2)
  refine ⟨proc_tidy h.toTidy hp he fun k _ np ha => (h.unused np (allocSlot_some ha)).2,
    ?_, ?_, ?_, ?_, ?_⟩
  · intro p (hp' : (procs.ptable p).state = .unused)
    change (procs.ptable p).killed = false ∧ ∀ fd, t.ofile p fd = none
    rw [hrow p (Or.inl (by simp [hp']))]
    rcases Procs.freed_step hp hp' with hold | ⟨hold, hkilled⟩ | ⟨hop, k, hpc⟩
    · obtain ⟨hkilled, hnone⟩ := h.unused p hold
      refine ⟨?_, hnone⟩
      rcases Procs.killed_step hp p with hk | hk | ⟨pid, rfl, hk⟩
      · exact hk.trans hkilled
      · exact hk
      · exact absurd hold (hc.1 p hk)
    · exact ⟨hkilled, h.zombie p hold⟩
    · have hspawn : (s.procs.groups.pc i).spawning = some p := by
        rcases hpc with hpc | hpc <;> simp [Procs.groups, hpc, ProcPc.spawning]
      have hembryo := Procs.phase_embryo.mp (h.spawning.slot i p hspawn).2
      refine ⟨?_, h.embryo p hembryo fun j hj => ?_⟩
      · have hfalse : (s.procs.ptable p).killed = false := by
          rcases hop with rfl | rfl <;> exact hc.2.1 (by simp) p hspawn
        rcases Procs.killed_step hp p with hk | hk | ⟨pid, hk, _⟩
        · exact hk.trans hfalse
        · exact hk
        · rcases hop with rfl | rfl <;> cases hk
      · have hji := h.spawning.unique j i p (by simp [Procs.groups, hj, ProcPc.spawning]) hspawn
        subst hji
        rcases hpc with hpc | hpc <;> simp [hj] at hpc
  · intro p (hp' : (procs.ptable p).state = .zombie) fd
    change t.ofile p fd = none
    rw [hrow p (Or.inl (by simp [hp']))]
    rcases Procs.ended_step hp hp' with hold | ⟨rfl, ⟨rfl, hcount⟩ | rfl⟩
    · exact h.zombie p hold fd
    · exact hc.2.2 rfl hcount fd
    · have hf : s.fpc p = .exited := by
        rcases procEffect_cases he with ⟨_, _, hop, _⟩ | ⟨_, hop, _⟩ | ⟨_, hf, _⟩ | ⟨_, hop, _⟩
        · cases hop
        · cases hop
        · exact hf
        · exact absurd rfl hop
      exact h.exited p (Or.inr hf) fd
  · intro p (hp' : (procs.ptable p).state = .embryo) (hkilled : (procs.ptable p).killed = true)
    change (procs.ptable p).pid ∈ t.kills
    obtain ⟨hmono, hkill⟩ := procEffect_kills he
    rcases Procs.embryo_step h.spawning hp hp' with hold | ⟨⟨k, rfl⟩, ha⟩
    · have hpid : (procs.ptable p).pid = (s.procs.ptable p).pid := by
        rcases Procs.live_step h.spawning hp (p := p) (by simp [Proc.live, hp']) with
          ⟨_, hpid⟩ | ⟨_, ha⟩ | ⟨rfl, ⟨q, hpc⟩, _⟩
        · exact hpid
        · simp [allocSlot_some ha] at hold
        · simp [(Procs.createPublish_pid hp hpc).2] at hp'
      rw [hpid]
      rcases Procs.killed_step hp p with hk | hk | ⟨pid, rfl, hk⟩
      · exact hmono _ (h.killed p hold (hk.symm.trans hkilled))
      · simp [hk] at hkilled
      · have : (s.procs.ptable p).pid = pid := of_decide_eq_true (SlotScan.firstSlot_some hk)
        rw [this]
        exact hkill pid rfl
    · have hfalse := (h.unused p (allocSlot_some ha)).1
      rcases Procs.killed_step hp p with hk | hk | ⟨pid, hk, _⟩
      · rw [hk, hfalse] at hkilled
        cases hkilled
      · simp [hk] at hkilled
      · cases hk
  · intro j p (hj : procs.pc j = .forkPublish p) fd
    change t.ofile p fd = if fd.val < (t.fpc j).copied then t.ofile j fd else none
    rcases Procs.forking_starts hp hj with hold | ⟨⟨d, rfl⟩, rfl, hpc⟩
    · have hspawn : (s.procs.groups.pc j).spawning = some p := by
        simp [Procs.groups, hold, ProcPc.spawning]
      obtain ⟨hactj, _⟩ := h.spawning.slot j p hspawn
      have hprow : t.ofile p = s.ofile p := by
        refine (procEffect_ofile he p).resolve_right ?_
        rintro ⟨_, q, hpc⟩
        have hji := h.spawning.unique j i p hspawn (by simp [Procs.groups, hpc, ProcPc.spawning])
        subst hji
        simp [hold] at hpc
      have hjrow : t.ofile j = s.ofile j := by
        refine hrow j (Or.inr fun he => ?_)
        rw [Procs.phase_embryo.mpr he] at hactj
        cases hactj
      have hfpc : t.fpc j = s.fpc j := by
        rcases procEffect_fpc he j with hf | ⟨rfl, _, rfl | ⟨rfl, _⟩⟩
        · exact hf
        · simp [(Procs.forkPublish_state hp hold).2] at hj
        · simp [(Procs.newExit_state hp).2] at hold
      rw [hprow, hjrow, hfpc]
      exact h.filled j p hold fd
    · have hspawn : (s.procs.groups.pc j).spawning = some p := by
        simp [Procs.groups, hpc, ProcPc.spawning]
      have hidle : t.fpc j = .idle := by
        rcases procEffect_fpc he j with hf | ⟨_, hf, _⟩
        · exact hf.trans (procEffect_idle he (by simp) (by simp))
        · exact hf
      have hprow : t.ofile p = s.ofile p :=
        (procEffect_ofile he p).resolve_right fun hop => by cases hop.1
      have hembryo := Procs.phase_embryo.mp (h.spawning.slot j p hspawn).2
      have hnone := h.embryo p hembryo (fun q hq => ?_) fd
      · simp [hprow, hidle, FilePc.copied, hnone]
      · have hqj := h.spawning.unique q j p (by simp [Procs.groups, hq, ProcPc.spawning]) hspawn
        subst hqj
        simp [hq] at hpc
  · intro p (hx : t.fpc p = .exitStore ∨ t.fpc p = .exited) fd
    change t.ofile p fd = none
    have hold : s.fpc p = .exitStore ∨ s.fpc p = .exited := by
      rcases procEffect_fpc he p with hf | ⟨_, hf, _⟩
      · rwa [hf] at hx
      · simp [hf] at hx
    have hne : (s.procs.ptable p).state ≠ .embryo := by
      intro hembryo
      simp [h.idle p (by simp [Proc.active, hembryo])] at hold
    rw [hrow p (Or.inr hne)]
    exact h.exited p hold fd

end Proc

theorem clean_step {e : Fin n × FileOp} (h : s.Clean) (hc : s.CleanStep e)
    (hs : s.step e = some t) : t.Clean := by
  obtain ⟨i, op⟩ := e
  have hk := step_fstep hs
  by_cases hop : ∃ pop, op = .proc pop
  · obtain ⟨pop, rfl⟩ := hop
    cases hk with
    | proc hp he => exact proc_clean h hc hp he
    | refused hpc hf hop => exact absurd rfl (hop pop)
  · have hop' : ∀ pop, op ≠ .proc pop := fun pop hp => hop ⟨pop, hp⟩
    exact running_clean h (step_running hs hop') hop' hk

theorem boot_clean (h : s.Boot) : s.Clean := by
  have hother : ∀ p, p ≠ s.procs.initproc → s.procs.ptable p =
      ⟨0, 0, 0, .unused, 0, none, none, false, 0, fun _ => none⟩ := h.procs.others
  have hstate : ∀ p, (s.procs.ptable p).state = .unused ∨ (s.procs.ptable p).state = .runnable := by
    intro p
    by_cases hp : p = s.procs.initproc
    · rw [hp, h.procs.init]
      exact Or.inr rfl
    · rw [hother p hp]
      exact Or.inl rfl
  refine ⟨boot_tidy h, fun p hp => ⟨?_, by simp [h.ofile]⟩, by simp [h.ofile], fun p hp => ?_,
    fun i p hi => ?_, by simp [h.ofile]⟩
  · by_cases hpi : p = s.procs.initproc
    · rw [hpi, h.procs.init]
    · rw [hother p hpi]
  · rcases hstate p with hst | hst <;> simp [hst] at hp
  · simp [h.procs.pc i] at hi

def CleanChild (s : Files n) (e : Fin n × FileOp) : Prop :=
  ∀ t np, s.step e = some t → e.2 = .proc .forkPublish → s.procs.pc e.1 = .forkPublish np →
    (t.procs.ptable np).state = .runnable ∧
      ((t.procs.ptable np).killed = true → (t.procs.ptable np).pid ∈ t.kills) ∧
      ∀ fd, t.ofile np fd = t.ofile e.1 fd

theorem clean_child (h : s.Clean) (e : Fin n × FileOp) : s.CleanChild e := by
  obtain ⟨i, op⟩ := e
  rintro t np hs rfl (hpc : s.procs.pc i = .forkPublish np)
  obtain ⟨procs, hp, hs⟩ := Option.bind_eq_some_iff.mp hs
  obtain ⟨u, he, rfl⟩ := Option.map_eq_some_iff.mp hs
  have hp := Procs.step_pstep hp
  have hembryo := Procs.phase_embryo.mp
    (h.spawning.slot i np (by simp [Procs.groups, hpc, ProcPc.spawning])).2
  have hrunnable := (Procs.forkPublish_state hp hpc).1
  have hpid : (procs.ptable np).pid = (s.procs.ptable np).pid :=
    (live_kept h.toTidy hp (by simp) (by simp) (by simp [Proc.live, hrunnable])).2
  refine ⟨hrunnable, fun (hkilled : (procs.ptable np).killed = true) => ?_, fun fd => ?_⟩
  · change (procs.ptable np).pid ∈ u.kills
    rw [hpid]
    rcases Procs.killed_step hp np with hk | hk | ⟨pid, hk, _⟩
    · exact (procEffect_kills he).1 _ (h.killed np hembryo (hk.symm.trans hkilled))
    · simp [hk] at hkilled
    · cases hk
  · change u.ofile np fd = u.ofile i fd
    have hf : s.fpc i = .forkDup nofile := by
      rcases procEffect_cases he with ⟨_, _, _, _, hf, _⟩ | ⟨_, hop, _⟩ | ⟨hop, _⟩ | ⟨hop, _⟩
      · exact hf
      · cases hop
      · cases hop
      · exact absurd rfl hop
    have hkept : ∀ p, u.ofile p = s.ofile p := fun p =>
      (procEffect_ofile he p).resolve_right fun hop => by cases hop.1
    rw [hkept, hkept, h.filled i np hpc fd]
    simp [hf, FilePc.copied]

theorem forked_child_clean {es : List (Fin n × FileOp)} (hb : s.Boot)
    (hc : GuardedRun.along step CleanStep s es) : GuardedRun.along step CleanChild s es :=
  GuardedRun.along_of_invariant (fun _ _ _ => clean_step) (fun _ e h _ => clean_child h e)
    (boot_clean hb) hc

def killedForks : List (Fin nproc × FileOp) :=
  [(0, .proc .schedule), (0, .proc (.kill 0))] ++ (forkFiles 0 1 3 4).take 19

theorem forked_child_killed :
    ∃ t, (userinit (0 : Fin nproc) 1 2).Boot ∧ (userinit 0 1 2).run killedForks = some t ∧
      ¬ t.CleanChild (0, .proc .forkPublish) := by
  have hrun : ∃ t, (userinit (0 : Fin nproc) 1 2).run killedForks = some t ∧
      t.procs.pc 0 = .forkPublish 1 ∧
      (t.step (0, .proc .forkPublish)).any (fun u : Files nproc => decide
        ((u.procs.ptable 1).killed = true ∧ (u.procs.ptable 1).pid ∉ u.kills)) = true :=
    GuardedRun.exists_of_any (by decide +kernel)
  obtain ⟨t, ht, hpc, hstep⟩ := hrun
  obtain ⟨u, hu, hbad⟩ := (Option.any_eq_true _ _).mp hstep
  obtain ⟨hkilled, hnot⟩ := of_decide_eq_true hbad
  refine ⟨t, userinit_boot 0 1 (by decide), ht, fun h => hnot ?_⟩
  exact (h u 1 hu rfl hpc).2.1 hkilled

def cleanForks : List (Fin nproc × FileOp) :=
  (0, .proc .schedule) :: openRoot 0 ++ (0, .proc (.kill 1)) :: forkFiles 0 1 3 4 ++
    [(1, .proc .exit), (1, .exitClose), (1, .exitCwd), (1, .exitStore), (1, .proc .newExit),
      (0, .proc .wait)] ++
    forkFiles 0 1 3 5

theorem forked_child_clean_again :
    ((userinit (0 : Fin nproc) 1 2).run cleanForks).map (fun t => t.procs.eax 0) = some 3 ∧
      GuardedRun.along step CleanChild (userinit (0 : Fin nproc) 1 2) cleanForks := by
  have hc : GuardedRun.along step CleanStep (userinit (0 : Fin nproc) 1 2) cleanForks :=
    GuardedRun.along_of_checks (by decide +kernel)
  exact ⟨by decide +kernel, forked_child_clean (userinit_boot 0 1 (by decide)) hc⟩

end Files
end Xv6
