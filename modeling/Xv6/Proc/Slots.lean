import Xv6.Proc.GroupExit

namespace Xv6

variable {n : Nat}

namespace Groups

theorem used_step {g g' : Groups n} {i p : Fin n} {a : GroupOp n} (hs : g.Spawning)
    (hk : GStep g i a g') (hp : (g'.core p).phase = .active ∨ (g'.core p).phase = .embryo) :
    ((g.core p).phase = .active ∨ (g.core p).phase = .embryo) ∧
        (g'.core p).pid = (g.core p).pid ∨
      a = .spawn ∧ (g.core p).phase = .free ∧ (g'.core p).phase = .embryo ∨
      a = .publishThread ∧ (∃ q, g.pc i = .createPublish p q) ∧
        (g'.core p).pid = (g.core i).pid := by
  cases slot_step hk p with
  | kept hphase hpid => exact Or.inl ⟨hphase ▸ hp, hpid⟩
  | spawned hold hnew => exact Or.inr (Or.inl ⟨rfl, hold, hnew⟩)
  | forked hpc hnew hpid =>
    exact Or.inl ⟨Or.inr (hs.slot i p (by simp [hpc, ProcPc.spawning])).2, hpid⟩
  | created hpc hnew hpid => exact Or.inr (Or.inr ⟨rfl, ⟨_, hpc⟩, hpid⟩)
  | discarded _ hnew | exited _ _ _ hnew | reaped _ _ hnew => simp [hnew] at hp

theorem active_step {g g' : Groups n} {i p : Fin n} {a : GroupOp n} (hk : GStep g i a g')
    (hp : (g'.core p).phase = .active) :
    (g.core p).phase = .active ∨ a = .publishFork ∧ g.pc i = .forkPublish p ∨
      a = .publishThread ∧ ∃ q, g.pc i = .createPublish p q := by
  cases slot_step hk p with
  | kept hphase => exact Or.inl (hphase ▸ hp)
  | forked hpc => exact Or.inr (Or.inl ⟨rfl, hpc⟩)
  | created hpc => exact Or.inr (Or.inr ⟨rfl, _, hpc⟩)
  | spawned _ hnew | discarded _ hnew | exited _ _ _ hnew | reaped _ _ hnew => simp [hnew] at hp

theorem embryo_step {g g' : Groups n} {i p : Fin n} {a : GroupOp n} (hk : GStep g i a g')
    (hp : (g'.core p).phase = .embryo) :
    (g.core p).phase = .embryo ∨ a = .spawn ∧ (g.core p).phase = .free := by
  cases slot_step hk p with
  | kept hphase => exact Or.inl (hphase ▸ hp)
  | spawned hold => exact Or.inr ⟨rfl, hold⟩
  | discarded _ hnew | forked _ hnew | created _ hnew | exited _ _ _ hnew | reaped _ _ hnew =>
    simp [hnew] at hp

theorem active_stays {g g' : Groups n} {i p : Fin n} {a : GroupOp n} (hs : g.Spawning)
    (hk : GStep g i a g') (hp : (g.core p).phase = .active) :
    (g'.core p).phase = .active ∨ p = i ∧ (a = .exitThread ∨ a = .newExit) := by
  cases slot_step hk p with
  | kept hphase => exact Or.inl (hphase.trans hp)
  | exited ha hpi => exact Or.inr ⟨hpi, ha⟩
  | forked _ hnew | created _ hnew => exact Or.inl hnew
  | spawned hold | reaped _ hold => simp [hold] at hp
  | discarded hpc =>
    have hembryo := (hs.slot i p (by rcases hpc with hpc | hpc <;> simp [hpc, ProcPc.spawning])).2
    simp [hembryo] at hp

theorem forking_step {g g' : Groups n} {i j p : Fin n} {a : GroupOp n} (hs : g.Spawning)
    (hk : GStep g i a g') (hj : g.pc j = .forkPublish p) :
    g'.pc j = .forkPublish p ∨ a = .publishFork ∧ j = i := by
  have hact := (hs.slot j p (by simp [hj, ProcPc.spawning])).1
  by_cases hji : j = i
  · subst hji
    cases hk with
    | @idle x hi hx =>
      rcases hx with rfl | ⟨hx, _⟩
      · exact Or.inl (by simpa using hj)
      · simp [hj, ProcPc.neutral] at hx
    | reap hi hpc => simp [hj, ProcPc.neutral] at hpc
    | publishFork => exact Or.inr ⟨rfl, rfl⟩
    | discard hi hpc => simp [hj] at hpc
    | exitThread | newExit => exact Or.inl hj
    | spawn hi hpc | prepare hi hpc | copy hi hpc | count hi hpc | load hi hpc
      | publishThread hi hpc | build hi hpc | abort hi hpc | commit hi hpc | exitLast hi hpc => simp [hj] at hpc
  · left
    cases hk with
    | @publishFork np hi hpc | @publishThread np parent hi hpc =>
      have hne : j ≠ np := by
        rintro rfl
        have := (hs.slot i j (by simp [hpc, ProcPc.spawning])).2
        simp [hact] at this
      simpa [hji, hne] using hj
    | exitThread | newExit => exact hj
    | _ => simpa [hji] using hj

theorem freed_step {g g' : Groups n} {i p : Fin n} {a : GroupOp n} (hk : GStep g i a g')
    (hp : (g'.core p).phase = .free) :
    (g.core p).phase = .free ∨ (g.core p).phase = .zombie ∧ (a = .reap p ∨ a = .exitLast) ∨
      a = .discard ∧ (∃ k, g.pc i = .spawnInit k p ∨ g.pc i = .spawnCopy k p) := by
  cases slot_step hk p with
  | kept hphase => exact Or.inl (hphase ▸ hp)
  | reaped ha hold => exact Or.inr (Or.inl ⟨hold, ha⟩)
  | discarded hpc => exact Or.inr (Or.inr ⟨rfl, _, hpc⟩)
  | spawned _ hnew | forked _ hnew | created _ hnew | exited _ _ _ hnew => simp [hnew] at hp

theorem ended_step {g g' : Groups n} {i p : Fin n} {a : GroupOp n} (hk : GStep g i a g')
    (hp : (g'.core p).phase = .zombie) :
    (g.core p).phase = .zombie ∨ p = i ∧ (a = .exitThread ∨ a = .newExit) := by
  cases slot_step hk p with
  | kept hphase => exact Or.inl (hphase ▸ hp)
  | exited ha hpi => exact Or.inr ⟨hpi, ha⟩
  | spawned _ hnew | discarded _ hnew | forked _ hnew | created _ hnew | reaped _ _ hnew =>
    simp [hnew] at hp

theorem forking_starts {g g' : Groups n} {i j p : Fin n} {a : GroupOp n} (hk : GStep g i a g')
    (hj : g'.pc j = .forkPublish p) :
    g.pc j = .forkPublish p ∨ a = .copy ∧ j = i ∧ g.pc i = .spawnCopy .fork p := by
  by_cases hji : j = i
  · subst hji
    cases hk with
    | @idle x hi hx =>
      obtain rfl : x = .forkPublish p := by simpa using hj
      rcases hx with hx | ⟨_, hx⟩
      · exact Or.inl hx.symm
      · simp [ProcPc.neutral] at hx
    | @copy k np d hi hpc =>
      cases k with
      | fork =>
        obtain rfl : np = p := by simpa [Procs.afterCopy] using hj
        exact Or.inr ⟨rfl, rfl, hpc⟩
      | thread => simp [Procs.afterCopy] at hj
    | exitThread | newExit => exact Or.inl hj
    | _ => simp at hj
  · left
    cases hk with
    | @publishFork np | @publishThread np =>
      by_cases hjn : j = np
      · subst hjn; simp [hji] at hj
      · simpa [hji, hjn] using hj
    | exitThread | newExit => exact hj
    | _ => simpa [hji] using hj

end Groups

namespace Procs

theorem live_step {s t : Procs n} {i p : Fin n} {op : ProcOp} (hs : s.groups.Spawning)
    (h : PStep s i op t) (hp : (t.ptable p).live) :
    (s.ptable p).live ∧ (t.ptable p).pid = (s.ptable p).pid ∨
      (∃ k, op = .spawn k) ∧ allocSlot s.ptable = some p ∨
      op = .createPublish ∧ (∃ q, s.pc i = .createPublish p q) ∧
        (t.ptable p).pid = (s.ptable i).pid := by
  have hcalls := calls_groupOp s i op
  rcases Groups.used_step hs (pstep_groupOp h) ((t.ptable p).live_iff.mp hp) with
    ⟨hlive, hpid⟩ | ⟨ha, hfree, hembryo⟩ | ⟨ha, hpc, hpid⟩
  · exact Or.inl ⟨(s.ptable p).live_iff.mpr hlive, hpid⟩
  · rw [ha] at hcalls
    rcases free_stays hs h hfree with hfree' | halloc
    · simp [hembryo] at hfree'
    · exact Or.inr (Or.inl ⟨hcalls, (of_decide_eq_true halloc).2⟩)
  · rw [ha] at hcalls
    exact Or.inr (Or.inr ⟨hcalls, hpc, hpid⟩)

theorem active_step {s t : Procs n} {i p : Fin n} {op : ProcOp} (h : PStep s i op t)
    (hp : (t.ptable p).active) :
    (s.ptable p).active ∨ op = .forkPublish ∧ s.pc i = .forkPublish p ∨
      op = .createPublish ∧ ∃ q, s.pc i = .createPublish p q := by
  have hcalls := calls_groupOp s i op
  rcases Groups.active_step (pstep_groupOp h) (phase_active.mpr hp) with hact | ⟨ha, hpc⟩ | ⟨ha, hpc⟩
  · exact Or.inl (phase_active.mp hact)
  · rw [ha] at hcalls
    exact Or.inr (Or.inl ⟨hcalls, hpc⟩)
  · rw [ha] at hcalls
    exact Or.inr (Or.inr ⟨hcalls, hpc⟩)

theorem phase_embryo {s : Procs n} {p : Fin n} :
    (s.groups.core p).phase = .embryo ↔ (s.ptable p).state = .embryo := by
  simp only [groups, Proc.core]
  cases (s.ptable p).state <;> simp [ProcState.phase]

theorem embryo_step {s t : Procs n} {i p : Fin n} {op : ProcOp} (hs : s.groups.Spawning)
    (h : PStep s i op t) (hp : (t.ptable p).state = .embryo) :
    (s.ptable p).state = .embryo ∨ (∃ k, op = .spawn k) ∧ allocSlot s.ptable = some p := by
  have hcalls := calls_groupOp s i op
  rcases Groups.embryo_step (pstep_groupOp h) (phase_embryo.mpr hp) with hold | ⟨ha, hfree⟩
  · exact Or.inl (phase_embryo.mp hold)
  · rw [ha] at hcalls
    rcases free_stays hs h hfree with hfree' | halloc
    · simp [phase_embryo.mpr hp] at hfree'
    · exact Or.inr ⟨hcalls, (of_decide_eq_true halloc).2⟩

theorem active_stays {s t : Procs n} {i p : Fin n} {op : ProcOp} (hs : s.groups.Spawning)
    (h : PStep s i op t) (hp : (s.ptable p).active) :
    (t.ptable p).active ∨ p = i ∧ (op = .exit ∨ op = .newExit) := by
  have hcalls := calls_groupOp s i op
  rcases Groups.active_stays hs (pstep_groupOp h) (phase_active.mpr hp) with hact | ⟨hpi, ha | ha⟩
  · exact Or.inl (phase_active.mp hact)
  · rw [ha] at hcalls
    exact Or.inr ⟨hpi, Or.inl hcalls⟩
  · rw [ha] at hcalls
    exact Or.inr ⟨hpi, Or.inr hcalls⟩

theorem forkPublish_state {s t : Procs n} {i np : Fin n} (h : PStep s i .forkPublish t)
    (hpc : s.pc i = .forkPublish np) :
    (t.ptable np).state = .runnable ∧ t.pc i = .forkClear np (s.ptable np).pid := by
  cases h with
  | forkPublish hs hpc' =>
    rw [hpc] at hpc'
    cases hpc'
    simp [publishFork]
  | waitReap he | waitNone he | waitBlock he => rcases he with ⟨h, _⟩ | ⟨h, _⟩ <;> cases h

theorem createPublish_pid {s t : Procs n} {i np : Fin n} {q : Option (Fin n)}
    (h : PStep s i .createPublish t) (hpc : s.pc i = .createPublish np q) :
    (t.ptable np).pid = (s.ptable i).pid ∧ (t.ptable np).state = .runnable := by
  cases h with
  | createPublish hs hpc' =>
    rw [hpc] at hpc'
    cases hpc'
    simp [publishThread]
  | waitReap he | waitNone he | waitBlock he => rcases he with ⟨h, _⟩ | ⟨h, _⟩ <;> cases h

theorem newExit_state {s t : Procs n} {i : Fin n} (h : PStep s i .newExit t) :
    (t.ptable i).state = .zombie ∧ s.pc i = .newExit := by
  cases h with
  | newExit hs hpc => exact ⟨by simp [newExitTable], hpc⟩
  | waitReap he | waitNone he | waitBlock he => rcases he with ⟨h, _⟩ | ⟨h, _⟩ <;> cases h

theorem forking_step {s t : Procs n} {i j p : Fin n} {op : ProcOp} (hs : s.groups.Spawning)
    (h : PStep s i op t) (hj : s.pc j = .forkPublish p) :
    t.pc j = .forkPublish p ∨ op = .forkPublish ∧ j = i := by
  have hcalls := calls_groupOp s i op
  rcases Groups.forking_step hs (pstep_groupOp h) hj with hpc | ⟨ha, hji⟩
  · exact Or.inl hpc
  · rw [ha] at hcalls
    exact Or.inr ⟨hcalls, hji⟩

theorem freed_step {s t : Procs n} {i p : Fin n} {op : ProcOp} (h : PStep s i op t)
    (hp : (t.ptable p).state = .unused) :
    (s.ptable p).state = .unused ∨ (s.ptable p).state = .zombie ∧ (t.ptable p).killed = false ∨
      (op = .spawnInit none ∨ op = .spawnCopy none) ∧
        ∃ k, s.pc i = .spawnInit k p ∨ s.pc i = .spawnCopy k p := by
  have hcalls := calls_groupOp s i op
  have hout := outcome_groupOp h
  rcases Groups.freed_step (pstep_groupOp h) (History.phase_free.mpr hp) with
    hfree | ⟨hz, ha | ha⟩ | ⟨ha, k, hpc⟩
  · exact Or.inl (History.phase_free.mp hfree)
  · rw [ha] at hout
    obtain ⟨q, hq⟩ := hout
    exact Or.inr (Or.inl ⟨History.phase_zombie.mp hz, by rw [hq]; rfl⟩)
  · rw [ha] at hout
    have hz := History.phase_zombie.mp hz
    refine Or.inr (Or.inl ⟨hz, ?_⟩)
    have ht : t.ptable p = reapSiblings (wakeJoiners s.ptable i) i p := congrFun hout p
    rw [ht, reapSiblings]
    rw [ht, reapSiblings] at hp
    split
    · rfl
    · rename_i hno
      rw [if_neg hno] at hp
      simp [wakeJoiners, hz] at hp
  · rw [ha] at hcalls
    exact Or.inr (Or.inr ⟨hcalls, k, hpc⟩)

theorem ended_step {s t : Procs n} {i p : Fin n} {op : ProcOp} (h : PStep s i op t)
    (hp : (t.ptable p).state = .zombie) :
    (s.ptable p).state = .zombie ∨ p = i ∧
      (op = .exit ∧ threadsCounter (wakeJoiners s.ptable i) i ≠ 1 ∨ op = .newExit) := by
  have hcalls := calls_groupOp s i op
  rcases Groups.ended_step (pstep_groupOp h) (History.phase_zombie.mpr hp) with hz | ⟨hpi, ha | ha⟩
  · exact Or.inl (History.phase_zombie.mp hz)
  · rw [ha] at hcalls
    obtain rfl : op = .exit := hcalls
    refine Or.inr ⟨hpi, Or.inl ⟨rfl, fun hc => ?_⟩⟩
    simp [groupOp, hc] at ha
  · rw [ha] at hcalls
    exact Or.inr ⟨hpi, Or.inr hcalls⟩

theorem forking_starts {s t : Procs n} {i j p : Fin n} {op : ProcOp} (h : PStep s i op t)
    (hj : t.pc j = .forkPublish p) :
    s.pc j = .forkPublish p ∨ (∃ d, op = .spawnCopy (some d)) ∧ j = i ∧
      s.pc i = .spawnCopy .fork p := by
  have hcalls := calls_groupOp s i op
  rcases Groups.forking_starts (pstep_groupOp h) hj with hpc | ⟨ha, hji, hpc⟩
  · exact Or.inl hpc
  · rw [ha] at hcalls
    exact Or.inr ⟨hcalls, hji, hpc⟩

end Procs

end Xv6
