import Xv6.Proc.Groups

namespace Xv6

variable {n : Nat}

def ProcPc.spawning : ProcPc n → Option (Fin n)
  | .spawnInit _ np | .spawnCopy _ np | .forkPublish np | .createCount np | .createLoad np
  | .createPublish np _ =>
    some np
  | _ => none

def ProcPc.forking : ProcPc n → Option (Fin n)
  | .spawnCopy .fork np | .forkPublish np => some np
  | _ => none

def ProcPc.counting : ProcPc n → Bool
  | .createLoad _ | .createPublish _ _ => true
  | _ => false

def ProcPc.copying : ProcPc n → Option (Fin n)
  | .spawnInit _ np | .spawnCopy _ np => some np
  | _ => none

theorem ProcPc.neutral_spawning {x : ProcPc n} (h : x.neutral = true) : x.spawning = none := by
  cases x <;> simp_all [neutral, spawning]

theorem ProcPc.neutral_forking {x : ProcPc n} (h : x.neutral = true) : x.forking = none := by
  cases x <;> simp_all [neutral, forking]

theorem ProcPc.neutral_counting {x : ProcPc n} (h : x.neutral = true) : x.counting = false := by
  cases x <;> simp_all [neutral, counting]

theorem ProcPc.forking_spawning {x : ProcPc n} {np : Fin n} (h : x.forking = some np) :
    x.spawning = some np := by
  unfold forking at h
  split at h <;> simp_all [spawning]

theorem ProcPc.afterCopy_spawning (np : Fin n) (k : Spawn) :
    (Procs.afterCopy np k).spawning = some np := by
  cases k <;> rfl

namespace Groups

structure Spawning (g : Groups n) : Prop where
  slot : ∀ i np, (g.pc i).spawning = some np →
    (g.core i).phase = .active ∧ (g.core np).phase = .embryo
  unique : ∀ i j np, (g.pc i).spawning = some np → (g.pc j).spawning = some np → i = j
  spawner : ∀ np, (g.core np).phase = .embryo → ∃ i, (g.pc i).spawning = some np

theorem Spawning.frame {g g' : Groups n} (h : g.Spawning)
    (hpc : ∀ j, (g'.pc j).spawning = (g.pc j).spawning)
    (hembryo : ∀ p, (g'.core p).phase = .embryo ↔ (g.core p).phase = .embryo)
    (hactive : ∀ j, (g.pc j).spawning ≠ none → (g'.core j).phase = (g.core j).phase) :
    g'.Spawning where
  slot i np hi := by
    rw [hpc] at hi
    obtain ⟨ha, he⟩ := h.slot i np hi
    exact ⟨(hactive i (by simp [hi])).trans ha, (hembryo np).mpr he⟩
  unique i j np hi hj := by
    rw [hpc] at hi hj
    exact h.unique i j np hi hj
  spawner np he := by
    obtain ⟨i, hi⟩ := h.spawner np ((hembryo np).mp he)
    exact ⟨i, by rw [hpc]; exact hi⟩

theorem Spawning.embryo_idle {g : Groups n} (h : g.Spawning) {np : Fin n}
    (he : (g.core np).phase = .embryo) : (g.pc np).spawning = none := by
  cases hs : (g.pc np).spawning with
  | none => rfl
  | some m => simp [(h.slot np m hs).1] at he

theorem pc_setPc {α : Type} (f : ProcPc n → α) {g : Groups n} {i : Fin n} {x : ProcPc n}
    (hx : f x = f (g.pc i)) (j : Fin n) : f ((g.setPc i x).pc j) = f (g.pc j) := by
  by_cases hj : j = i
  · subst hj; simpa using hx
  · simp [hj]

theorem Spawning.add {g g' : Groups n} {i np : Fin n} (h : g.Spawning)
    (hi : (g.core i).phase = .active) (hn : (g.pc i).spawning = none)
    (hfree : (g.core np).phase = .free) (hpc : (g'.pc i).spawning = some np)
    (hother : ∀ j, j ≠ i → g'.pc j = g.pc j) (hnp : (g'.core np).phase = .embryo)
    (hcore : ∀ p, p ≠ np → g'.core p = g.core p) : g'.Spawning := by
  have hne : ∀ j, (g.core j).phase ≠ .free → j ≠ np := by
    rintro j hj rfl
    exact hj hfree
  have hspawn : ∀ j m, j ≠ i → (g'.pc j).spawning = some m →
      (g.core j).phase = .active ∧ (g.core m).phase = .embryo := by
    intro j m hj hs
    rw [hother j hj] at hs
    exact h.slot j m hs
  refine ⟨?_, ?_, ?_⟩
  · intro j m hs
    by_cases hj : j = i
    · subst hj
      rw [hpc, Option.some.injEq] at hs
      subst hs
      rw [hcore j (hne j (by simp [hi]))]
      exact ⟨hi, hnp⟩
    · obtain ⟨ha, he⟩ := hspawn j m hj hs
      rw [hcore j (hne j (by simp [ha])), hcore m (hne m (by simp [he]))]
      exact ⟨ha, he⟩
  · intro j k m hj hk
    by_cases hji : j = i <;> by_cases hki : k = i
    · rw [hji, hki]
    · subst hji
      rw [hpc, Option.some.injEq] at hj
      subst hj
      exact absurd (hspawn k np hki hk).2 (by simp [hfree])
    · subst hki
      rw [hpc, Option.some.injEq] at hk
      subst hk
      exact absurd (hspawn j np hji hj).2 (by simp [hfree])
    · rw [hother j hji] at hj
      rw [hother k hki] at hk
      exact h.unique j k m hj hk
  · intro m he
    by_cases hm : m = np
    · exact ⟨i, hm ▸ hpc⟩
    · rw [hcore m hm] at he
      obtain ⟨j, hj⟩ := h.spawner m he
      refine ⟨j, ?_⟩
      rw [hother j (by rintro rfl; simp [hn] at hj)]
      exact hj

theorem Spawning.remove {g g' : Groups n} {i np : Fin n} (h : g.Spawning)
    (hi : (g.pc i).spawning = some np) (hpc : (g'.pc i).spawning = none)
    (hother : ∀ j, j ≠ i → (g'.pc j).spawning = (g.pc j).spawning)
    (hnp : (g'.core np).phase ≠ .embryo) (hcore : ∀ p, p ≠ np → g'.core p = g.core p) :
    g'.Spawning := by
  have hspawn : ∀ j m, (g'.pc j).spawning = some m →
      j ≠ i ∧ m ≠ np ∧ (g.pc j).spawning = some m := by
    intro j m hj
    have hji : j ≠ i := by
      rintro rfl
      simp [hpc] at hj
    rw [hother j hji] at hj
    refine ⟨hji, ?_, hj⟩
    rintro rfl
    exact hji (h.unique j i m hj hi)
  have hembryo := (h.slot i np hi).2
  refine ⟨?_, ?_, ?_⟩
  · intro j m hj
    obtain ⟨_, hm, hj⟩ := hspawn j m hj
    obtain ⟨ha, he⟩ := h.slot j m hj
    have hjn : j ≠ np := by
      rintro rfl
      simp [ha] at hembryo
    rw [hcore j hjn, hcore m hm]
    exact ⟨ha, he⟩
  · intro j k m hj hk
    exact h.unique j k m (hspawn j m hj).2.2 (hspawn k m hk).2.2
  · intro m he
    have hm : m ≠ np := by
      rintro rfl
      exact hnp he
    rw [hcore m hm] at he
    obtain ⟨j, hj⟩ := h.spawner m he
    refine ⟨j, ?_⟩
    rw [hother j ?_]
    · exact hj
    · rintro rfl
      rw [hi, Option.some.injEq] at hj
      exact hm hj.symm

theorem sweep_cases (g : Groups n) (i p : Fin n) :
    g.sweep i p = g.core p ∨
      (g.core p).phase = .zombie ∧ (g.sweep i p).phase = .free := by
  unfold sweep
  split
  · rename_i h
    exact Or.inr ⟨h.1, rfl⟩
  · exact Or.inl rfl

theorem sweep_kept {g : Groups n} {i p : Fin n} (h : (g.sweep i p).phase ≠ .free) :
    g.sweep i p = g.core p := by
  unfold sweep at h ⊢
  split
  · rename_i hp
    rw [if_pos hp] at h
    exact absurd rfl h
  · rfl

@[simp] theorem adopted_phase (c : Core n) (i initproc : Fin n) :
    (c.adopted i initproc).phase = c.phase := by
  unfold Core.adopted
  split <;> rfl

@[simp] theorem adopted_pid (c : Core n) (i initproc : Fin n) :
    (c.adopted i initproc).pid = c.pid := by
  unfold Core.adopted
  split <;> rfl

@[simp] theorem adopted_pgdir (c : Core n) (i initproc : Fin n) :
    (c.adopted i initproc).pgdir = c.pgdir := by
  unfold Core.adopted
  split <;> rfl

@[simp] theorem adopted_threadId (c : Core n) (i initproc : Fin n) :
    (c.adopted i initproc).threadId = c.threadId := by
  unfold Core.adopted
  split <;> rfl

inductive SlotStep (g g' : Groups n) (i p : Fin n) : GroupOp n → Prop
  | kept {a : GroupOp n} (hphase : (g'.core p).phase = (g.core p).phase)
      (hpid : (g'.core p).pid = (g.core p).pid) : SlotStep g g' i p a
  | spawned (hold : (g.core p).phase = .free) (hnew : (g'.core p).phase = .embryo) :
      SlotStep g g' i p .spawn
  | discarded {k : Spawn} (hpc : g.pc i = .spawnInit k p ∨ g.pc i = .spawnCopy k p)
      (hnew : (g'.core p).phase = .free) : SlotStep g g' i p .discard
  | forked (hpc : g.pc i = .forkPublish p) (hnew : (g'.core p).phase = .active)
      (hpid : (g'.core p).pid = (g.core p).pid) : SlotStep g g' i p .publishFork
  | created {q : Option (Fin n)} (hpc : g.pc i = .createPublish p q)
      (hnew : (g'.core p).phase = .active) (hpid : (g'.core p).pid = (g.core i).pid) :
      SlotStep g g' i p .publishThread
  | exited {a : GroupOp n} (ha : a = .exitThread ∨ a = .newExit) (hpi : p = i)
      (hold : (g.core p).phase = .active) (hnew : (g'.core p).phase = .zombie) :
      SlotStep g g' i p a
  | reaped {a : GroupOp n} (ha : a = .reap p ∨ a = .exitLast) (hold : (g.core p).phase = .zombie)
      (hnew : (g'.core p).phase = .free) : SlotStep g g' i p a

theorem SlotStep.update {g g' : Groups n} {i p q : Fin n} {a : GroupOp n} {c : Core n}
    (hcore : g'.core = Function.update g.core q c) (hq : g'.core q = c → SlotStep g g' i q a) :
    SlotStep g g' i p a := by
  by_cases hp : p = q
  · subst hp
    exact hq (by simp [hcore])
  · exact .kept (by simp [hcore, hp]) (by simp [hcore, hp])

theorem slot_step {g g' : Groups n} {i : Fin n} {a : GroupOp n} (hk : GStep g i a g')
    (p : Fin n) : SlotStep g g' i p a := by
  cases hk with
  | idle | count | load | build | abort => exact .kept rfl rfl
  | reap hi hpc hz => exact .update rfl fun _ => .reaped (.inl rfl) hz (by simp [Core.freed])
  | spawn hi hpc hnp => exact .update rfl fun _ => .spawned hnp (by simp)
  | discard hi hpc => exact .update rfl fun _ => .discarded hpc (by simp)
  | prepare | copy | commit => exact .update rfl fun _ => .kept (by simp) (by simp)
  | publishFork hi hpc => exact .update rfl fun _ => .forked hpc (by simp) (by simp)
  | publishThread hi hpc => exact .update rfl fun _ => .created hpc (by simp) (by simp)
  | exitThread hi => exact .update rfl fun _ => .exited (.inl rfl) rfl hi (by simp)
  | exitLast =>
    rcases sweep_cases g i p with h | ⟨hz, hfree⟩
    · exact .kept (by simp [h]) (by simp [h])
    · exact .reaped (.inr rfl) hz hfree
  | newExit hi =>
    by_cases hp : p = i
    · subst hp
      exact .exited (.inr rfl) rfl hi (by simp)
    · exact .kept (by simp [hp]) (by simp [hp])

theorem spawning_step {g g' : Groups n} {i : Fin n} {a : GroupOp n} (h : g.Spawning)
    (hk : GStep g i a g') : g'.Spawning := by
  cases hk with
  | idle hi hx =>
    refine h.frame (pc_setPc _ ?_) (fun p => Iff.rfl) (fun j _ => rfl)
    rcases hx with rfl | ⟨h1, h2⟩
    · rfl
    · rw [ProcPc.neutral_spawning h1, ProcPc.neutral_spawning h2]
  | @reap z hi hpc hz hp =>
    refine h.frame (pc_setPc _ (ProcPc.neutral_spawning hpc).symm) ?_ ?_
    · intro p
      by_cases hpz : p = z
      · subst hpz; simp [hz, Core.freed]
      · simp [hpz]
    · intro j hj
      have hjz : j ≠ z := by
        rintro rfl
        obtain ⟨np, hnp⟩ := Option.ne_none_iff_exists'.mp hj
        simp [(h.slot j np hnp).1] at hz
      simp [hjz]
  | spawn hi hpc hnp =>
    exact h.add hi (by simp [hpc, ProcPc.spawning]) hnp (by simp [ProcPc.spawning])
      (fun j hj => by simp [hj]) (by simp) (fun p hp => by simp [hp])
  | @discard k np d hi hpc =>
    have hs : (g.pc i).spawning = some np := by
      rcases hpc with hpc | hpc <;> simp [hpc, ProcPc.spawning]
    exact h.remove hs (by simp [ProcPc.spawning]) (fun j hj => by simp [hj]) (by simp)
      (fun p hp => by simp [hp])
  | @prepare k np hi hpc =>
    refine h.frame (pc_setPc _ (by simp [hpc, ProcPc.spawning])) ?_ ?_
    all_goals intro p; by_cases hp : p = np
    all_goals first | (subst hp; simp) | simp [hp]
  | @copy k np d hi hpc hd =>
    refine h.frame (pc_setPc _
      (by rw [ProcPc.afterCopy_spawning]; simp [hpc, ProcPc.spawning])) ?_ ?_
    all_goals intro p; by_cases hp : p = np
    all_goals first | (subst hp; simp) | simp [hp]
  | @publishFork np hi hpc | @publishThread np _ hi hpc =>
    have hs : (g.pc i).spawning = some np := by simp [hpc, ProcPc.spawning]
    refine h.remove hs (by simp [ProcPc.spawning]) ?_ (by simp) (fun p hp => by simp [hp])
    intro j hj
    by_cases hjn : j = np
    · subst hjn
      rw [h.embryo_idle (h.slot i j hs).2]
      simp [hj, ProcPc.spawning]
    · simp [hj, hjn]
  | count hi hpc | load hi hpc | build hi hpc | abort hi hpc =>
    exact h.frame (pc_setPc _ (by simp [hpc, ProcPc.spawning])) (fun p => Iff.rfl)
      (fun j _ => rfl)
  | commit hi hpc =>
    refine h.frame (pc_setPc _ (by simp [hpc, ProcPc.spawning])) ?_ ?_
    all_goals intro p; by_cases hp : p = i
    all_goals first | (subst hp; simp) | simp [hp]
  | exitLast hi hpc hinit halone =>
    refine h.frame (pc_setPc _ (by simp [hpc, ProcPc.spawning])) ?_ ?_
    · intro p
      rcases sweep_cases g i p with hp | ⟨hz, hp⟩
      · simp [hp]
      · simp [hp, hz]
    · intro j hj
      obtain ⟨np, hnp⟩ := Option.ne_none_iff_exists'.mp hj
      rcases sweep_cases g i j with hp | ⟨hz, hp⟩
      · simp [hp]
      · simp [(h.slot j np hnp).1] at hz
  | exitThread hi hpc hinit hq =>
    refine h.frame (fun j => rfl) ?_ ?_
    · intro p
      by_cases hp : p = i
      · subst hp; simp [hi]
      · simp [hp]
    · intro j hj
      have hji : j ≠ i := by
        rintro rfl
        simp [hpc, ProcPc.spawning] at hj
      simp [hji]
  | newExit hi hpc hinit =>
    refine h.frame (fun j => rfl) ?_ ?_
    · intro p
      by_cases hp : p = i
      · subst hp; simp [hi]
      · simp [hp, adopted_phase]
    · intro j hj
      have hji : j ≠ i := by
        rintro rfl
        simp [hpc, ProcPc.spawning] at hj
      simp [hji, adopted_phase]

structure Pids (g : Groups n) : Prop where
  pos : 0 < g.nextpid
  below : ∀ p, (g.core p).phase ≠ .free → (g.core p).pid < g.nextpid
  fresh : ∀ p q, (g.core p).phase = .embryo → (g.core q).phase ≠ .free → q ≠ p →
    (g.core q).pid ≠ (g.core p).pid

theorem Pids.frame {g g' : Groups n} (h : g.Pids) (hnext : g'.nextpid = g.nextpid)
    (hcore : ∀ p, (g'.core p).phase ≠ .free →
      (g.core p).phase ≠ .free ∧ (g'.core p).pid = (g.core p).pid)
    (hembryo : ∀ p, (g'.core p).phase = .embryo → (g.core p).phase = .embryo) : g'.Pids where
  pos := hnext ▸ h.pos
  below p hp := by
    rw [hnext, (hcore p hp).2]
    exact h.below p (hcore p hp).1
  fresh p q hp hq hne := by
    rw [(hcore p (by simp [hp])).2, (hcore q hq).2]
    exact h.fresh p q (hembryo p hp) (hcore q hq).1 hne

theorem pids_setCore {g g' : Groups n} (h : g.Pids) {p : Fin n} {c : Core n}
    (hg : g'.core = Function.update g.core p c) (hnext : g'.nextpid = g.nextpid)
    (hfree : c.phase ≠ .free → (g.core p).phase ≠ .free ∧ c.pid = (g.core p).pid)
    (hembryo : c.phase = .embryo → (g.core p).phase = .embryo) : g'.Pids := by
  refine h.frame hnext ?_ ?_
  all_goals
    intro q hq
    rw [hg] at *
    by_cases hqp : q = p
  · subst hqp
    rw [Function.update_self] at *
    exact hfree hq
  · rw [Function.update_of_ne hqp] at *
    exact ⟨hq, rfl⟩
  · subst hqp
    rw [Function.update_self] at *
    exact hembryo hq
  · rwa [Function.update_of_ne hqp] at *

theorem pids_step {g g' : Groups n} {i : Fin n} {a : GroupOp n} (h : g.Pids) (hs : g.Spawning)
    (hnext : a = .spawn → g.nextpid < 2 ^ 31 - 1) (hk : GStep g i a g') : g'.Pids := by
  cases hk with
  | idle | count | load | build | abort =>
    exact h.frame rfl (fun p hp => ⟨hp, rfl⟩) (fun p hp => hp)
  | reap hi hpc hz hp =>
    exact pids_setCore h rfl rfl (by simp [Core.freed]) (by simp [Core.freed])
  | @spawn k np hi hpc hnp =>
    have hsucc := int32_succ h.pos.le (hnext rfl)
    refine ⟨?_, ?_, ?_⟩
    · simp only [setPc, setCore, hsucc]
      have := h.pos
      omega
    · intro p hp
      simp only [setPc, setCore, hsucc] at hp ⊢
      by_cases hpn : p = np
      · subst hpn; simp
      · rw [Function.update_of_ne hpn] at hp ⊢
        have := h.below p hp
        omega
    · intro p q hp hq hne
      simp only [setPc, setCore] at hp hq ⊢
      by_cases hpn : p = np
      · subst hpn
        rw [Function.update_of_ne hne] at hq ⊢
        have := h.below q hq
        simp only [Function.update_self]
        omega
      · rw [Function.update_of_ne hpn] at hp ⊢
        by_cases hqn : q = np
        · subst hqn
          have := h.below p (by simp [hp])
          simp only [Function.update_self]
          omega
        · rw [Function.update_of_ne hqn] at hq ⊢
          exact h.fresh p q hp hq hne
  | discard hi hpc => exact pids_setCore h rfl rfl (by simp) (by simp)
  | prepare hi hpc => exact pids_setCore h rfl rfl (fun hp => ⟨hp, rfl⟩) id
  | copy hi hpc hd => exact pids_setCore h rfl rfl (fun hp => ⟨hp, rfl⟩) id
  | @publishFork np hi hpc =>
    have he := (hs.slot i np (by simp [hpc, ProcPc.spawning])).2
    exact pids_setCore h rfl rfl (fun _ => ⟨by simp [he], rfl⟩) (by simp)
  | @publishThread np parent hi hpc =>
    have he := (hs.slot i np (by simp [hpc, ProcPc.spawning])).2
    refine ⟨h.pos, ?_, ?_⟩
    · intro p hp
      by_cases hpn : p = np
      · subst hpn
        simpa using h.below i (by simp [hi])
      · simp only [setPc, setCore, Function.update_of_ne hpn] at hp ⊢
        exact h.below p hp
    · intro p q hp hq hne
      have hpn : p ≠ np := by
        rintro rfl
        simp at hp
      simp only [setPc, setCore, Function.update_of_ne hpn] at hp hq ⊢
      by_cases hqn : q = np
      · subst hqn
        rw [Function.update_self]
        exact h.fresh p i hp (by simp [hi]) (by rintro rfl; simp [hi] at hp)
      · rw [Function.update_of_ne hqn] at hq ⊢
        exact h.fresh p q hp hq hne
  | commit hi hpc => exact pids_setCore h rfl rfl (fun hp => ⟨hp, rfl⟩) id
  | exitLast hi hpc hinit halone =>
    refine h.frame rfl ?_ ?_
    · intro p hp
      have hkept := sweep_kept hp
      simp only [setPc, hkept] at hp ⊢
      exact ⟨hp, trivial⟩
    · intro p hp
      have hp' : (g.sweep i p).phase = .embryo := hp
      rw [← sweep_kept (i := i) (by simp [hp']), hp']
  | exitThread hi hpc hinit hq => exact pids_setCore h rfl rfl (by simp [hi]) (by simp)
  | newExit hi hpc hinit =>
    refine h.frame rfl ?_ ?_ <;> intro p hp <;> by_cases hpi : p = i
    · subst hpi
      simp [hi]
    · simpa [hpi] using hp
    · subst hpi
      simp at hp
    · simpa [hpi] using hp

def Begun (g : Groups n) (p : Fin n) : Prop :=
  (g.core p).phase = .active ∨ (g.core p).phase = .zombie

structure Threads (g : Groups n) : Prop where
  nonneg : 0 ≤ g.nextThread
  below : ∀ p, g.Begun p → (g.core p).threadId ≤ g.nextThread
  counted : ∀ i, (g.pc i).counting = true → ∀ p, g.Begun p → (g.core p).threadId < g.nextThread
  single : ∀ i j, (g.pc i).counting = true → (g.pc j).counting = true → i = j
  main : ∀ i np, (g.pc i).forking = some np → (g.core np).threadId = -1
  distinct : ∀ p q, g.Begun p → g.Begun q → p ≠ q → (g.core p).pid = (g.core q).pid →
    (g.core p).threadId ≠ (g.core q).threadId

theorem Threads.frame {g g' : Groups n} (h : g.Threads) (hnext : g'.nextThread = g.nextThread)
    (hbegun : ∀ p, g'.Begun p → g.Begun p ∧ (g'.core p).pid = (g.core p).pid ∧
      (g'.core p).threadId = (g.core p).threadId)
    (hcounting : ∀ i, (g'.pc i).counting = true → (g.pc i).counting = true)
    (hmain : ∀ i np, (g'.pc i).forking = some np → (g'.core np).threadId = -1) : g'.Threads where
  nonneg := hnext ▸ h.nonneg
  below p hp := by
    rw [hnext, (hbegun p hp).2.2]
    exact h.below p (hbegun p hp).1
  counted i hi p hp := by
    rw [hnext, (hbegun p hp).2.2]
    exact h.counted i (hcounting i hi) p (hbegun p hp).1
  single i j hi hj := h.single i j (hcounting i hi) (hcounting j hj)
  main := hmain
  distinct p q hp hq hne hpid := by
    obtain ⟨hbp, hpp, htp⟩ := hbegun p hp
    obtain ⟨hbq, hpq, htq⟩ := hbegun q hq
    rw [htp, htq]
    exact h.distinct p q hbp hbq hne (by rw [← hpp, ← hpq]; exact hpid)

theorem Threads.same {g g' : Groups n} (h : g.Threads) (hnext : g'.nextThread = g.nextThread)
    (hbegun : ∀ p, g'.Begun p → g.Begun p ∧ (g'.core p).pid = (g.core p).pid)
    (hthread : ∀ p, (g'.core p).threadId = (g.core p).threadId)
    (hcounting : ∀ i, (g'.pc i).counting = true → (g.pc i).counting = true)
    (hforking : ∀ i, (g'.pc i).forking = (g.pc i).forking ∨ (g'.pc i).forking = none) :
    g'.Threads := by
  refine h.frame hnext (fun p hp => ⟨(hbegun p hp).1, (hbegun p hp).2, hthread p⟩) hcounting ?_
  intro i np hi
  rw [hthread]
  rcases hforking i with hf | hf
  · exact h.main i np (hf ▸ hi)
  · simp [hf] at hi

theorem Threads.publish {g g' : Groups n} (h : g.Threads) (np : Fin n)
    (hnext : g'.nextThread = g.nextThread) (hother : ∀ p, p ≠ np → g'.core p = g.core p)
    (hbelow : (g'.core np).threadId ≤ g.nextThread)
    (hcounted : ∀ j, (g'.pc j).counting = true → (g'.core np).threadId < g.nextThread)
    (hdistinct : ∀ q, q ≠ np → g.Begun q → (g'.core np).pid = (g.core q).pid →
      (g'.core np).threadId ≠ (g.core q).threadId)
    (hcounting : ∀ j, (g'.pc j).counting = true → (g.pc j).counting = true)
    (hmain : ∀ j m, (g'.pc j).forking = some m → m ≠ np ∧ (g.pc j).forking = some m) :
    g'.Threads := by
  have hbegun : ∀ p, p ≠ np → g'.Begun p → g.Begun p := by
    intro p hp hb
    rwa [Begun, hother p hp] at hb
  refine ⟨hnext ▸ h.nonneg, ?_, ?_, ?_, ?_, ?_⟩
  · intro p hp
    rw [hnext]
    by_cases hpn : p = np
    · rw [hpn]; exact hbelow
    · rw [hother p hpn]
      exact h.below p (hbegun p hpn hp)
  · intro j hj p hp
    rw [hnext]
    by_cases hpn : p = np
    · rw [hpn]; exact hcounted j hj
    · rw [hother p hpn]
      exact h.counted j (hcounting j hj) p (hbegun p hpn hp)
  · intro j k hj hk
    exact h.single j k (hcounting j hj) (hcounting k hk)
  · intro j m hj
    obtain ⟨hm, hj⟩ := hmain j m hj
    rw [hother m hm]
    exact h.main j m hj
  · intro p q hp hq hne hpid
    by_cases hpn : p = np
    · subst hpn
      rw [hother q hne.symm] at hpid ⊢
      exact hdistinct q hne.symm (hbegun q hne.symm hq) hpid
    · rw [hother p hpn] at hpid ⊢
      by_cases hqn : q = np
      · subst hqn
        exact (hdistinct p hne (hbegun p hne hp) hpid.symm).symm
      · rw [hother q hqn] at hpid ⊢
        exact h.distinct p q (hbegun p hpn hp) (hbegun q hqn hq) hne hpid

theorem begun_update {g g' : Groups n} {p : Fin n} {c : Core n}
    (hg : g'.core = Function.update g.core p c)
    (hc : c.phase = .active ∨ c.phase = .zombie → g.Begun p ∧ c.pid = (g.core p).pid)
    (q : Fin n) (hq : g'.Begun q) : g.Begun q ∧ (g'.core q).pid = (g.core q).pid := by
  rw [Begun, hg] at hq
  rw [hg]
  by_cases hqp : q = p
  · subst hqp
    rw [Function.update_self] at hq ⊢
    exact hc hq
  · rw [Function.update_of_ne hqp] at hq ⊢
    exact ⟨hq, rfl⟩

theorem threadId_update {g g' : Groups n} {p : Fin n} {c : Core n}
    (hg : g'.core = Function.update g.core p c) (hc : c.threadId = (g.core p).threadId)
    (q : Fin n) : (g'.core q).threadId = (g.core q).threadId := by
  rw [hg]
  by_cases hqp : q = p
  · subst hqp; rwa [Function.update_self]
  · rw [Function.update_of_ne hqp]

theorem counting_setPc {g : Groups n} {i : Fin n} {x : ProcPc n} (hx : x.counting = false)
    (j : Fin n) (hj : ((g.setPc i x).pc j).counting = true) : (g.pc j).counting = true := by
  by_cases hji : j = i
  · subst hji; simp [hx] at hj
  · simpa [hji] using hj

theorem forking_setPc {g : Groups n} {i : Fin n} {x : ProcPc n} (hx : x.forking = none)
    (j : Fin n) : ((g.setPc i x).pc j).forking = (g.pc j).forking ∨
      ((g.setPc i x).pc j).forking = none := by
  by_cases hji : j = i
  · subst hji; simp [hx]
  · simp [hji]

theorem forking_publish {g : Groups n} {i np : Fin n} {c : Core n} {x y : ProcPc n}
    (hs : g.Spawning) (hsp : (g.pc i).spawning = some np) (hx : x.forking = none)
    (hy : y.forking = none) (j m : Fin n)
    (hj : ((((g.setCore np c).setPc np x).setPc i y).pc j).forking = some m) :
    m ≠ np ∧ (g.pc j).forking = some m := by
  have hji : j ≠ i := by
    rintro rfl
    simp [hy] at hj
  have hjn : j ≠ np := by
    rintro rfl
    simp [hji, hx] at hj
  have hj' : (g.pc j).forking = some m := by simpa [hji, hjn] using hj
  refine ⟨?_, hj'⟩
  rintro rfl
  exact hji (hs.unique j i m (ProcPc.forking_spawning hj') hsp)

theorem threads_step {g g' : Groups n} {i : Fin n} {a : GroupOp n} (h : g.Threads)
    (hs : g.Spawning) (hp : g.Pids)
    (hcount : a = .count → g.nextThread < 2 ^ 31 - 1 ∧ ∀ j, (g.pc j).counting = false)
    (hk : GStep g i a g') : g'.Threads := by
  cases hk with
  | idle hi hx =>
    refine h.same rfl (fun p hp => ⟨hp, rfl⟩) (fun p => rfl) (fun j hj => ?_) (fun j => Or.inl ?_)
    · rwa [pc_setPc ProcPc.counting ?_ j] at hj
      rcases hx with rfl | ⟨h1, h2⟩
      · rfl
      · rw [ProcPc.neutral_counting h1, ProcPc.neutral_counting h2]
    · apply pc_setPc
      rcases hx with rfl | ⟨h1, h2⟩
      · rfl
      · rw [ProcPc.neutral_forking h1, ProcPc.neutral_forking h2]
  | build | abort =>
    exact h.same rfl (fun p hp => ⟨hp, rfl⟩) (fun p => rfl) (counting_setPc rfl) (forking_setPc rfl)
  | load hi hpc =>
    refine h.same rfl (fun p hp => ⟨hp, rfl⟩) (fun p => rfl) (fun j hj => ?_) (forking_setPc rfl)
    rwa [pc_setPc ProcPc.counting (by simp [hpc, ProcPc.counting]) j] at hj
  | reap hi hpc hz hpar =>
    exact h.same rfl (begun_update rfl (by simp [Core.freed])) (threadId_update rfl rfl)
      (counting_setPc rfl) (forking_setPc rfl)
  | spawn hi hpc hnp =>
    exact h.same rfl (begun_update rfl (by simp)) (threadId_update rfl rfl)
      (counting_setPc rfl) (forking_setPc rfl)
  | discard hi hpc =>
    exact h.same rfl (begun_update rfl (by simp)) (threadId_update rfl rfl)
      (counting_setPc rfl) (forking_setPc rfl)
  | @prepare k np hi hpc =>
    have hsp : (g.pc i).spawning = some np := by simp [hpc, ProcPc.spawning]
    have hembryo := (hs.slot i np hsp).2
    refine h.frame rfl ?_ (counting_setPc rfl) ?_
    · intro p hp
      have hpn : p ≠ np := by
        rintro rfl
        simp [Begun, hembryo] at hp
      simpa [Begun, hpn] using hp
    · intro j m hj
      by_cases hji : j = i
      · subst hji
        cases k <;> simp [ProcPc.forking] at hj
        subst hj
        simp [Spawn.threadId]
      · have hj' : (g.pc j).forking = some m := by simpa [hji] using hj
        have hm : m ≠ np := by
          rintro rfl
          exact hji (hs.unique j i m (ProcPc.forking_spawning hj') hsp)
        simpa [hm] using h.main j m hj'
  | @copy k np d hi hpc hd =>
    have hsp : (g.pc i).spawning = some np := by simp [hpc, ProcPc.spawning]
    have hembryo := (hs.slot i np hsp).2
    refine h.same rfl (begun_update rfl (by simp [hembryo])) (threadId_update rfl rfl)
      (counting_setPc (by cases k <;> rfl)) ?_
    intro j
    refine Or.inl (pc_setPc ProcPc.forking ?_ j)
    cases k <;> simp [hpc, ProcPc.forking, Procs.afterCopy]
  | @publishFork np hi hpc =>
    have hsp : (g.pc i).spawning = some np := by simp [hpc, ProcPc.spawning]
    have hembryo := (hs.slot i np hsp).2
    have hmain := h.main i np (by simp [hpc, ProcPc.forking])
    have hnonneg := h.nonneg
    refine h.publish np rfl (fun p hp => by simp [hp]) ?_ ?_ ?_ ?_ ?_
    · simp only [setPc, setCore, Function.update_self, hmain]
      omega
    · intro j hj
      simp only [setPc, setCore, Function.update_self, hmain]
      omega
    · intro q hq hb hpid
      refine absurd ?_ (hp.fresh np q hembryo ?_ hq)
      · simpa using hpid.symm
      · rcases hb with hb | hb <;> simp [hb]
    · intro j hj
      exact counting_setPc rfl j (counting_setPc rfl j hj)
    · exact forking_publish hs hsp rfl rfl
  | @count np hi hpc =>
    obtain ⟨hlt, hnone⟩ := hcount rfl
    have hsucc := int32_succ h.nonneg hlt
    have hnonneg := h.nonneg
    refine ⟨?_, ?_, ?_, ?_, ?_, h.distinct⟩
    · simp only [setPc, hsucc]; omega
    · intro p hp
      have := h.below p hp
      simp only [setPc, hsucc]; omega
    · intro j hj p hp
      have := h.below p hp
      simp only [setPc, hsucc]; omega
    · intro j k hj hk
      have hself : ∀ m, ((({ g with nextThread := int32 (g.nextThread + 1) } : Groups n).setPc i
          (.createLoad np)).pc m).counting = true → m = i := by
        intro m hm
        by_contra hmi
        have hm' : (g.pc m).counting = true := by simpa [hmi] using hm
        simp [hnone m] at hm'
      rw [hself j hj, hself k hk]
    · intro j m hj
      rcases forking_setPc (g := g) (i := i) (x := .createLoad np) rfl j with hf | hf
      · exact h.main j m (hf ▸ hj)
      · exact absurd (hf.symm.trans hj) (by simp)
  | @publishThread np parent hi hpc =>
    have hsp : (g.pc i).spawning = some np := by simp [hpc, ProcPc.spawning]
    have hcounting : (g.pc i).counting = true := by simp [hpc, ProcPc.counting]
    refine h.publish np rfl (fun p hp => by simp [hp]) (by simp) ?_ ?_ ?_ ?_
    · intro j hj
      have hj' := counting_setPc rfl j (counting_setPc rfl j hj)
      have hji := h.single j i hj' hcounting
      subst hji
      simp [ProcPc.counting] at hj
    · intro q hq hb _
      have := h.counted i hcounting q hb
      simp only [setPc, setCore, Function.update_self]
      omega
    · intro j hj
      exact counting_setPc rfl j (counting_setPc rfl j hj)
    · exact forking_publish hs hsp rfl rfl
  | commit hi hpc =>
    exact h.same rfl (begun_update rfl (fun hc => ⟨hc, rfl⟩)) (threadId_update rfl rfl)
      (counting_setPc rfl) (forking_setPc rfl)
  | exitLast hi hpc hinit halone =>
    refine h.same rfl ?_ ?_ (counting_setPc rfl) (forking_setPc rfl)
    · intro p hp
      have hkept : g.sweep i p = g.core p := by
        apply sweep_kept
        rcases hp with hp | hp <;> simp_all
      simp only [Begun, setPc, hkept] at hp ⊢
      exact ⟨hp, trivial⟩
    · intro p
      simp only [setPc, sweep]
      split <;> rfl
  | exitThread hi hpc hinit hq =>
    exact h.same rfl (begun_update rfl (fun _ => ⟨Or.inl hi, rfl⟩)) (threadId_update rfl rfl)
      (fun j hj => hj) (fun j => Or.inl rfl)
  | newExit hi hpc hinit =>
    refine h.same rfl ?_ ?_ (fun j hj => hj) (fun j => Or.inl rfl)
    · intro p hp
      by_cases hpi : p = i
      · subst hpi
        exact ⟨Or.inl hi, by simp⟩
      · simpa [Begun, hpi] using hp
    · intro p
      by_cases hpi : p = i
      · subst hpi; simp
      · simp [hpi]

end Groups
end Xv6
