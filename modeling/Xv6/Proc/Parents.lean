import Xv6.Proc.Reaping

namespace Xv6

variable {n : Nat}

namespace Groups

def HasParent (g : Groups n) (p : Fin n) : Prop :=
  ∃ q, (g.core p).parent = some q ∧ (g.core q).phase = .active ∧
    (q = g.initproc ∨ (g.core q).pid = (g.core p).forker)

def FirstProcess (g : Groups n) (p : Fin n) : Prop :=
  (g.core p).parent = none ∧ (g.core p).pid = (g.core g.initproc).pid

structure Parents (g : Groups n) : Prop where
  init : (g.core g.initproc).phase = .active
  parent : ∀ p, g.Begun p → g.FirstProcess p ∨ g.HasParent p

def Loads (g : Groups n) : Prop := ∀ j np q, g.pc j = .createPublish np q → (g.core j).parent = q

def Childless (g : Groups n) (i : Fin n) : Prop := ∀ p, g.Begun p → (g.core p).parent ≠ some i

structure Survive (g g' : Groups n) : Prop where
  phase : ∀ q, (g.core q).phase = .active → (g'.core q).phase = .active
  pid : ∀ q, (g.core q).phase = .active → (g'.core q).pid = (g.core q).pid
  initproc : g'.initproc = g.initproc

theorem HasParent.survive {g g' : Groups n} {p : Fin n} (h : g.HasParent p) (hs : Survive g g')
    (hparent : (g'.core p).parent = (g.core p).parent)
    (hforker : (g'.core p).forker = (g.core p).forker) : g'.HasParent p := by
  obtain ⟨q, hq, ha, hpid⟩ := h
  refine ⟨q, hparent.trans hq, hs.phase q ha, ?_⟩
  rw [hs.initproc, hs.pid q ha, hforker]
  exact hpid

theorem Parents.survive {g g' : Groups n} (h : g.Parents) (hs : Survive g g')
    (hnew : ∀ p, g'.Begun p → g.Begun p ∧ (g'.core p).pid = (g.core p).pid ∧
      (g'.core p).parent = (g.core p).parent ∧ (g'.core p).forker = (g.core p).forker ∨
        g'.FirstProcess p ∨ g'.HasParent p) : g'.Parents where
  init := by
    rw [hs.initproc]
    exact hs.phase _ h.init
  parent p hp := by
    rcases hnew p hp with ⟨hold, hpid, hparent, hforker⟩ | hnew
    · rcases h.parent p hold with hfirst | hhas
      · refine Or.inl ⟨hparent.trans hfirst.1, ?_⟩
        rw [hs.initproc, hs.pid _ h.init, hpid, hfirst.2]
      · exact Or.inr (hhas.survive hs hparent hforker)
    · exact hnew

theorem Survive.update {g g' : Groups n} {p : Fin n} {c : Core n}
    (hcore : g'.core = Function.update g.core p c) (hinit : g'.initproc = g.initproc)
    (hp : (g.core p).phase = .active → c.phase = .active ∧ c.pid = (g.core p).pid) :
    Survive g g' := by
  refine ⟨?_, ?_, hinit⟩ <;> intro q hq <;> by_cases hqp : q = p
  · subst hqp; simpa [hcore] using (hp hq).1
  · simpa [hcore, hqp] using hq
  · subst hqp; simpa [hcore] using (hp hq).2
  · simp [hcore, hqp]

theorem Parents.update {g g' : Groups n} (h : g.Parents) {p : Fin n} {c : Core n}
    (hcore : g'.core = Function.update g.core p c) (hinit : g'.initproc = g.initproc)
    (hp : (g.core p).phase = .active → c.phase = .active ∧ c.pid = (g.core p).pid)
    (hc : c.phase = .active ∨ c.phase = .zombie → g.Begun p ∧ c.pid = (g.core p).pid ∧
      c.parent = (g.core p).parent ∧ c.forker = (g.core p).forker ∨
        g'.FirstProcess p ∨ g'.HasParent p) : g'.Parents := by
  refine h.survive (.update hcore hinit hp) ?_
  intro q hq
  by_cases hqp : q = p
  · subst hqp
    simp only [Begun, hcore, Function.update_self] at hq ⊢
    exact hc hq
  · rw [Begun, hcore, Function.update_of_ne hqp] at hq
    rw [hcore, Function.update_of_ne hqp]
    exact Or.inl ⟨hq, rfl, rfl, rfl⟩

theorem Parents.same {g g' : Groups n} (h : g.Parents) (hcore : g'.core = g.core)
    (hinit : g'.initproc = g.initproc) : g'.Parents := by
  refine h.survive ⟨fun q hq => by rwa [hcore], fun q _ => by rw [hcore], hinit⟩ ?_
  intro p hp
  rw [Begun, hcore] at hp
  rw [hcore]
  exact Or.inl ⟨hp, rfl, rfl, rfl⟩

theorem Parents.die {g g' : Groups n} {i : Fin n} (h : g.Parents) (hd : Dies g g' i)
    (hinit : g'.initproc = g.initproc) (hi : i ≠ g.initproc)
    (hforker : ∀ p, (g'.core p).forker = (g.core p).forker)
    (hparent : ∀ p, g.Begun p → (g.core p).parent ≠ some i ∧ (g'.core p).parent = (g.core p).parent ∨
      (g'.core p).parent = some g.initproc) : g'.Parents where
  init := by rw [hinit, hd.phase _ hi.symm, h.init]
  parent p hp := by
    have hold : g.Begun p := by
      by_cases hpi : p = i
      · subst hpi
        exact Or.inl hd.before
      · rwa [Begun, hd.phase p hpi] at hp
    rcases hparent p hold with ⟨hne, hsame⟩ | hnew
    · rcases h.parent p hold with hfirst | ⟨q, hq, ha, hqp⟩
      · refine Or.inl ⟨hsame.trans hfirst.1, ?_⟩
        rw [hinit, hd.pid, hd.pid, hfirst.2]
      · have hqi : q ≠ i := by
          rintro rfl
          exact hne hq
        refine Or.inr ⟨q, hsame.trans hq, (hd.phase q hqi).trans ha, ?_⟩
        rw [hinit, hd.pid, hforker]
        exact hqp
    · exact Or.inr ⟨g.initproc, hnew, by rw [hd.phase _ hi.symm, h.init], Or.inl hinit.symm⟩

@[simp] theorem adopted_forker (c : Core n) (i initproc : Fin n) :
    (c.adopted i initproc).forker = c.forker := by
  unfold Core.adopted
  split <;> rfl

theorem adopted_parent (c : Core n) (i initproc : Fin n) :
    c.parent ≠ some i ∧ (c.adopted i initproc).parent = c.parent ∨
      (c.adopted i initproc).parent = some initproc := by
  unfold Core.adopted
  split
  · exact Or.inr rfl
  · rename_i hne
    exact Or.inl ⟨hne, rfl⟩

theorem exitThread_sibling {g g' : Groups n} {i : Fin n} (hk : GStep g i .exitThread g') :
    ∃ q, g.Sibling i q := by
  cases hk with
  | exitThread _ _ _ hq => exact ⟨_, hq⟩

theorem loads_step {g g' : Groups n} {i : Fin n} {a : GroupOp n} (h : g.Loads) (hs : g.Spawning)
    (hc : a = .newExit → ∀ j np, g.pc j ≠ .createPublish np (some i)) (hk : GStep g i a g') :
    g'.Loads := by
  intro j np q hj
  -- a thread that has loaded its parent is active, so no reap or publication writes its slot
  have hold : g.pc j = .createPublish np q → (g.core j).phase = .active ∧ (g.core j).parent = q :=
    fun hj => ⟨(hs.slot j np (by simp [hj, ProcPc.spawning])).1, h j np q hj⟩
  cases hk with
  | idle hi hx =>
    simp only [setPc, Function.update_apply] at hj ⊢
    grind [ProcPc.neutral]
  | exitLast =>
    simp only [setPc, sweep, Function.update_apply] at hj ⊢
    grind
  | newExit =>
    simp only [setCore, Function.update_apply] at hj ⊢
    grind [Core.adopted]
  | @copy k =>
    simp only [setPc, setCore, setHolder, Function.update_apply] at hj ⊢
    cases k <;> grind [Procs.afterCopy]
  | _ =>
    simp only [setPc, setCore, setHolder, Core.freed, Function.update_apply] at hj ⊢
    grind [ProcPc.spawning]

theorem parents_step {g g' : Groups n} {i : Fin n} {a : GroupOp n} (h : g.Parents) (hs : g.Spawning)
    (hl : g.Loads) (hc : a = .exitThread → g.Childless i) (hk : GStep g i a g') : g'.Parents := by
  cases hk with
  | idle | count | load | build | abort => exact h.same rfl rfl
  | reap hi hpc hz hpar =>
    exact h.update rfl rfl (by simp [hz]) (by simp [Core.freed])
  | spawn hi hpc hnp => exact h.update rfl rfl (by simp [hnp]) (by simp)
  | @discard k np d hi hpc =>
    have hembryo := (hs.slot i np (by rcases hpc with hpc | hpc <;> simp [hpc, ProcPc.spawning])).2
    exact h.update rfl rfl (by simp [hembryo]) (by simp)
  | @prepare k np hi hpc =>
    have hembryo := (hs.slot i np (by simp [hpc, ProcPc.spawning])).2
    exact h.update rfl rfl (by simp [hembryo]) (by simp [hembryo])
  | @copy k np d hi hpc hd =>
    have hembryo := (hs.slot i np (by simp [hpc, ProcPc.spawning])).2
    exact h.update rfl rfl (by simp [hembryo]) (by simp [hembryo])
  | @publishFork np hi hpc =>
    have hembryo := (hs.slot i np (by simp [hpc, ProcPc.spawning])).2
    have hne : i ≠ np := by
      rintro rfl
      simp [hi] at hembryo
    refine h.update rfl rfl (by simp [hembryo]) (fun _ => .inr (.inr ⟨i, ?_, ?_, .inr ?_⟩)) <;>
      simp [hne, hi]
  | @publishThread np parent hi hpc =>
    have hembryo := (hs.slot i np (by simp [hpc, ProcPc.spawning])).2
    obtain rfl := hl i np parent hpc
    have hsurvive : Survive g (((g.setCore np { g.core i with
        threadId := g.nextThread
        phase := .active }).setPc np .user).setPc i .user) :=
      .update rfl rfl (by simp [hembryo])
    refine h.update rfl rfl (by simp [hembryo]) (fun _ => Or.inr ?_)
    rcases h.parent i (Or.inl hi) with hfirst | ⟨q, hq, ha, hqp⟩
    · refine Or.inl ⟨by simpa using hfirst.1, ?_⟩
      rw [hsurvive.initproc, hsurvive.pid _ h.init]
      simpa using hfirst.2
    · refine Or.inr ⟨q, by simpa using hq, hsurvive.phase q ha, ?_⟩
      rw [hsurvive.pid q ha]
      simpa using hqp
  | commit hi hpc =>
    exact h.update rfl rfl (by simp [hi]) (fun _ => Or.inl ⟨Or.inl hi, rfl, rfl, rfl⟩)
  | exitLast hi hpc hinit halone =>
    have hkept : ∀ p, (g.sweep i p).phase = .active ∨ (g.sweep i p).phase = .zombie →
        g.sweep i p = g.core p := fun p hp => sweep_kept (by rcases hp with hp | hp <;> simp [hp])
    refine h.survive ⟨?_, ?_, rfl⟩ ?_
    · intro q hq
      simp [sweep_of_ne_zombie (by simp [hq] : (g.core q).phase ≠ .zombie), hq]
    · intro q hq
      simp [sweep_of_ne_zombie (by simp [hq] : (g.core q).phase ≠ .zombie)]
    · intro p hp
      have hp' := hkept p hp
      simp only [Begun, setPc, hp'] at hp ⊢
      exact Or.inl ⟨hp, trivial, trivial, trivial⟩
  | @exitThread q hi hpc hinit hq =>
    refine h.die (.exitThread hi) rfl hinit ?_ ?_
    · intro p
      by_cases hp : p = i
      · subst hp; simp
      · simp [hp]
    · intro p hb
      refine Or.inl ⟨hc rfl p hb, ?_⟩
      by_cases hp : p = i
      · subst hp; simp
      · simp [hp]
  | newExit hi hpc hinit =>
    refine h.die (.newExit hi) rfl hinit ?_ ?_
    · intro p
      by_cases hp : p = i
      · subst hp; simp
      · simp [hp]
    · intro p hb
      by_cases hp : p = i
      · subst hp; simpa using adopted_parent _ _ _
      · simpa [hp] using adopted_parent _ _ _

end Groups

namespace Procs

def ParentsValid (s : Procs n) : Prop :=
  ∀ p, (s.ptable p).state ≠ .unused → (s.ptable p).state ≠ .embryo →
    (s.ptable p).parent = none ∧ (s.ptable p).pid = (s.ptable s.initproc).pid ∨
      ∃ q, (s.ptable p).parent = some q ∧ (s.ptable q).live ∧
        (q = s.initproc ∨ (s.ptable q).pid = s.forker p)

def ChildlessExit (s : Procs n) (e : Fin n × ProcOp) : Prop :=
  (e.2 = .exit → (∃ q, q ≠ e.1 ∧ (s.ptable q).pid = (s.ptable e.1).pid ∧ (s.ptable q).live) →
    ∀ p, (s.ptable p).parent ≠ some e.1) ∧
  (e.2 = .newExit → ∀ j np, s.pc j ≠ .createPublish np (some e.1))

instance (s : Procs n) (e : Fin n × ProcOp) : Decidable (s.ChildlessExit e) := by
  unfold ChildlessExit; infer_instance

theorem boot_parents {s : Procs n} (h : s.Boot) : s.groups.Parents where
  init := by
    change (s.ptable s.initproc).state.phase = _
    rw [h.init]
    rfl
  parent p hp := by
    by_cases hi : p = s.initproc
    · subst hi
      refine Or.inl ⟨?_, rfl⟩
      change (s.ptable s.initproc).parent = none
      rw [h.init]
    · simp [Groups.Begun, groups, Proc.core, h.others p hi, ProcState.phase] at hp

theorem childlessExit_parents {s t : Procs n} {e : Fin n × ProcOp}
    (h : s.groups.Spawning ∧ s.groups.Loads ∧ s.groups.Parents) (hc : s.ChildlessExit e)
    (hs : s.step e = some t) : t.groups.Spawning ∧ t.groups.Loads ∧ t.groups.Parents := by
  obtain ⟨hspawning, hloads, hparents⟩ := h
  obtain ⟨a, hk, ha⟩ := pstep_gstep (step_pstep hs)
  refine ⟨Groups.spawning_step hspawning hk, Groups.loads_step hloads hspawning ?_ hk,
    Groups.parents_step hparents hspawning hloads ?_ hk⟩
  · rintro rfl
    exact hc.2 ha
  · rintro rfl p _
    obtain ⟨q, hq⟩ := Groups.exitThread_sibling hk
    exact hc.1 ha ⟨q, sibling_iff.mp hq⟩ p

theorem parents_valid {s t : Procs n} {es : List (Fin n × ProcOp)} (h : s.Boot)
    (hc : GuardedRun.along step ChildlessExit s es) (hr : s.run es = some t) : t.ParentsValid := by
  have hinv := GuardedRun.run_invariant (fun s e t => childlessExit_parents)
    ⟨(boot_sound h).spawning, fun j np q hj => absurd hj (by simp [groups, h.pc j]), boot_parents h⟩
    hc hr
  intro p hu he
  have hbegun : t.groups.Begun p := by
    simp only [Groups.Begun, groups, Proc.core]
    cases hst : (t.ptable p).state <;> simp_all [ProcState.phase]
  rcases hinv.2.2.parent p hbegun with hfirst | ⟨q, hq, ha, hqp⟩
  · exact Or.inl hfirst
  · exact Or.inr ⟨q, hq, (phase_active.mp ha).1, hqp⟩

def forkingThreadExits : List (Fin nproc × ProcOp) :=
  (0, .schedule) :: createOps 0 1 3 4 ++ forkOps 1 2 5 6 ++ [(1, .exit)]

theorem forked_child_orphaned :
    ∃ t, (userinit (0 : Fin nproc) 1 2).Boot ∧
      (userinit (0 : Fin nproc) 1 2).run forkingThreadExits = some t ∧
      (t.ptable 2).parent = some 1 ∧ (t.ptable 1).state = .zombie ∧ ¬ t.ParentsValid := by
  refine ⟨_, userinit_boot 0 1 (by decide), rfl, rfl, rfl, ?_⟩
  intro hall
  rcases hall 2 (by decide) (by decide) with ⟨hnone, _⟩ | ⟨q, hq, hlive, _⟩
  · cases hnone
  · cases hq
    exact absurd hlive (by decide)

def siblingExits : List (Fin nproc × ProcOp) :=
  (0, .schedule) :: forkOps 0 1 3 4 ++ createOps 1 2 5 6 ++ forkOps 1 3 7 8 ++ [(2, .exit)]

theorem parents_valid_sibling_exited :
    ∃ t, (userinit (0 : Fin nproc) 1 2).run siblingExits = some t ∧
      (t.ptable 3).parent = some 1 ∧ t.ParentsValid := by
  have hes : GuardedRun.along step ChildlessExit (userinit (0 : Fin nproc) 1 2) siblingExits :=
    GuardedRun.along_of_checks (by decide +kernel)
  exact ⟨_, rfl, rfl, parents_valid (userinit_boot 0 1 (by decide)) hes rfl⟩

end Procs
end Xv6
