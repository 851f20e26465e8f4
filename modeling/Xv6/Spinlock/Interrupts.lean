import Xv6.Spinlock.Basic

namespace Xv6.Spinlocks

variable {T C L : Type}

def Interrupted (pc : CliPc L) : Prop := pc = .run ∨ ∃ lk, pc = .pushing true lk

structure FlowOk (x : CliCpu T) (f : Flow L) : Prop where
  depth : x.ncli = f.held.length
  off : x.iflag = true → f.held = []
  read : ∀ eflags lk, f.pc = .pushing eflags lk → x.iflag = eflags
  spin : ∀ lk, f.pc = .spin lk → f.held ≠ []
  frames : ∀ pc ∈ f.frames, Interrupted pc

structure Nests (x x' : CliCpu T) (f f' : Flow L) : Prop where
  proc : x'.proc = x.proc
  inner : f.held ≠ [] → f'.held ≠ [] → x'.intena = x.intena ∧ f'.took = f.took
  outer : f.held = [] → f'.held ≠ [] → x'.intena = f'.took
  ends : f.held ≠ [] → f'.held = [] → x'.iflag = x.intena

variable {c : C} {x x' : Local T C L} {ptable : L} {s s' : Spinlocks T C L}

theorem FlowOk.iflag {f : Flow L} {x : CliCpu T} (h : FlowOk x f) (hf : f.held ≠ []) :
    x.iflag = false := by
  by_contra hon
  exact hf (h.off (by simpa using hon))

theorem FlowOk.outermost {f : Flow L} {x : CliCpu T} (h : FlowOk x f) :
    x.ncli = 0 ↔ f.held = [] := by
  rw [h.depth, ← List.length_eq_zero_iff]
  omega

theorem Nests.same {x x' : CliCpu T} {f f' : Flow L} (hp : x'.proc = x.proc)
    (hi : x'.intena = x.intena) (hh : f'.held = f.held) (ht : f'.took = f.took) :
    Nests x x' f f' where
  proc := hp
  inner _ _ := ⟨hi, ht⟩
  outer hnil hne := absurd (hh.trans hnil) hne
  ends hne hnil := absurd (hh.symm.trans hnil) hne

theorem popcli_some {x x' : CliCpu T} (h : popcli x = some x') :
    x.iflag = false ∧ 0 < x.ncli ∧
      x' = { x with ncli := x.ncli - 1, iflag := decide (x.ncli - 1 = 0) && x.intena } := by
  unfold popcli at h
  split at h
  · cases h
  · next hoff =>
    split at h
    · cases h
    · next hpos => exact ⟨by simpa using hoff, by omega, (Option.some.inj h).symm⟩

structure Parked (ptable : L) (f : Flow L) : Prop where
  pc : f.pc = .run
  held : f.held = [some ptable]
  frames : ∀ pc ∈ f.frames, Interrupted pc

structure Inv (ptable : L) (s : Spinlocks T C L) : Prop where
  running : ∀ c t, (s.cpu c).proc = some t → s.context t = .running
  one : ∀ c c' t, (s.cpu c).proc = some t → (s.cpu c').proc = some t → c = c'
  flow : ∀ c, FlowOk (s.cpu c) (s.flow c)
  took : ∀ c t, (s.cpu c).proc = some t → (s.thread t).held ≠ [] →
    (s.cpu c).intena = (s.thread t).took
  scheduler : ∀ c t, (s.cpu c).proc = some t → Parked ptable (s.scheduler c)
  waiting : ∀ t intena, s.context t = .sched intena →
    Parked ptable (s.thread t) ∧ (s.thread t).took = intena

theorem Start.inv (h : s.Start) : Inv ptable s where
  running c t hc := by rw [h.proc] at hc; cases hc
  one c c' t hc := by rw [h.proc] at hc; cases hc
  flow c := by
    obtain ⟨hpc, hframes, hheld⟩ := h.scheduler c
    have hflow : s.flow c = s.scheduler c := by rw [Spinlocks.flow, h.proc]
    rw [hflow]
    exact ⟨by rw [h.ncli, hheld]; rfl, fun _ => hheld, by simp [hpc], by simp [hpc],
      by simp [hframes]⟩
  took c t hc := by rw [h.proc] at hc; cases hc
  scheduler c t hc := by rw [h.proc] at hc; cases hc
  waiting t intena ht := by rcases h.context t with hn | hn <;> cases hn.symm.trans ht

theorem flow_thread {t : T} (h : (s.cpu c).proc = some t) : s.flow c = s.thread t := by
  rw [flow, h]

theorem flow_scheduler (h : (s.cpu c).proc = none) : s.flow c = s.scheduler c := by
  rw [flow, h]

def Off (s : Spinlocks T C L) : Prop := ∀ c, 0 < (s.cpu c).ncli → (s.cpu c).iflag = false

theorem Inv.off (h : Inv ptable s) : s.Off := by
  intro c hpos
  refine (h.flow c).iflag fun hnil => ?_
  rw [(h.flow c).outermost.mpr hnil] at hpos
  exact lt_irrefl _ hpos

theorem FlowOk.pushed {f : Flow L} {x : CliCpu T} (h : FlowOk x f) {eflags : Bool} {lk : Option L}
    (hpc : f.pc = .pushing eflags lk) :
    FlowOk (pushcli x eflags) (pushed lk x.iflag f) ∧
      Nests x (pushcli x eflags) f (pushed lk x.iflag f) := by
  have hread := h.read eflags lk hpc
  have hout := h.outermost
  refine ⟨⟨?_, ?_, ?_, ?_, h.frames⟩, ⟨rfl, ?_, ?_, ?_⟩⟩
  · simp [Spinlocks.pushed, pushcli, h.depth]
  · simp [pushcli]
  · intro e lk' hpc'
    cases lk <;> simp [Spinlocks.pushed] at hpc'
  · simp [Spinlocks.pushed]
  · intro hne _
    simp [Spinlocks.pushed, pushcli, hout, hne]
  · intro hnil _
    simp [Spinlocks.pushed, pushcli, hout, hnil, hread]
  · simp [Spinlocks.pushed]

variable [DecidableEq T]

theorem Inv.allocproc (h : Inv ptable s) {t : T} (ht : s.context t = .unused) :
    Inv ptable { s with context := Function.update s.context t .forkret } := by
  refine { h with running := fun c u hc => ?_, waiting := fun u i hu => ?_ }
  · have hut : u ≠ t := by
      rintro rfl
      cases ht.symm.trans (h.running c u hc)
    simp only [Function.update_of_ne hut]
    exact h.running c u hc
  · have hut : u ≠ t := by
      rintro rfl
      simp at hu
    simp only [Function.update_of_ne hut] at hu
    exact h.waiting u i hu

variable [DecidableEq C]

theorem put_cpu (s : Spinlocks T C L) (c : C) (x : Local T C L) :
    (s.put c x).cpu = Function.update s.cpu c x.cpu := by
  unfold put
  split <;> rfl

theorem put_context (s : Spinlocks T C L) (c : C) (x : Local T C L) :
    (s.put c x).context = s.context := by
  unfold put
  split <;> rfl

theorem put_thread (s : Spinlocks T C L) (c : C) (x : Local T C L) (t : T) :
    (s.put c x).thread t = if (s.cpu c).proc = some t then x.flow else s.thread t := by
  unfold put
  split
  · next u hu => simp [hu, Function.update_apply, eq_comm]
  · next hu => simp [hu]

theorem put_scheduler (s : Spinlocks T C L) (c d : C) (x : Local T C L) :
    (s.put c x).scheduler d = if d = c ∧ (s.cpu c).proc = none then x.flow else s.scheduler d := by
  unfold put
  split
  · next u hu => simp [hu]
  · next hu => simp [hu, Function.update_apply]

theorem put_proc {x : Local T C L} (hx : x.cpu.proc = (s.cpu c).proc) (d : C) :
    ((s.put c x).cpu d).proc = (s.cpu d).proc := by
  rw [put_cpu, Function.update_apply]
  split
  · next hd => rw [hx, hd]
  · rfl

theorem put_flow {x : Local T C L} (hx : x.cpu.proc = (s.cpu c).proc) :
    (s.put c x).flow c = x.flow := by
  rw [flow, put_proc hx, put_scheduler]
  cases hc : (s.cpu c).proc with
  | some t => simp [put_thread, hc]
  | none => simp

theorem Inv.put_flow_ne (h : Inv ptable s) {x : Local T C L} (hx : x.cpu.proc = (s.cpu c).proc)
    {d : C} (hd : d ≠ c) : (s.put c x).flow d = s.flow d := by
  rw [Spinlocks.flow, put_proc hx, Spinlocks.flow, put_scheduler]
  cases hdt : (s.cpu d).proc with
  | some t =>
    have hc : (s.cpu c).proc ≠ some t := fun hc => hd (h.one d c t hdt hc)
    simp [put_thread, hc]
  | none => simp [hd]

theorem Inv.put (h : Inv ptable s) {x : Local T C L} (hok : FlowOk x.cpu x.flow)
    (hn : Nests (s.cpu c) x.cpu (s.flow c) x.flow) : Inv ptable (s.put c x) := by
  have hproc := put_proc (s := s) hn.proc
  refine ⟨fun d t hd => ?_, fun d d' t hd hd' => ?_, fun d => ?_, fun d t hd hne => ?_,
    fun d t hd => ?_, fun t i ht => ?_⟩
  · rw [hproc] at hd
    rw [put_context]
    exact h.running d t hd
  · rw [hproc] at hd hd'
    exact h.one d d' t hd hd'
  · by_cases hd : d = c
    · rw [hd, put_flow hn.proc, put_cpu, Function.update_self]
      exact hok
    · rw [h.put_flow_ne hn.proc hd, put_cpu, Function.update_of_ne hd]
      exact h.flow d
  · rw [hproc] at hd
    rw [put_thread] at hne ⊢
    by_cases hdc : d = c
    · subst hdc
      rw [if_pos hd] at hne ⊢
      rw [put_cpu, Function.update_self]
      have hflow := flow_thread hd
      by_cases hnil : (s.thread t).held = []
      · exact hn.outer (by rw [hflow]; exact hnil) hne
      · have hin := hn.inner (by rw [hflow]; exact hnil) hne
        rw [hin.1, hin.2, hflow]
        exact h.took d t hd hnil
    · have hc : (s.cpu c).proc ≠ some t := fun hc => hdc (h.one d c t hd hc)
      rw [if_neg hc] at hne ⊢
      rw [put_cpu, Function.update_of_ne hdc]
      exact h.took d t hd hne
  · rw [hproc] at hd
    rw [put_scheduler, if_neg]
    · exact h.scheduler d t hd
    · rintro ⟨rfl, hnone⟩
      cases hnone.symm.trans hd
  · rw [put_context] at ht
    rw [put_thread, if_neg]
    · exact h.waiting t i ht
    · intro hc
      cases ht.symm.trans (h.running c t hc)

theorem Inv.enter (h : Inv ptable s) {t : T} {f : Flow L} {intena : Bool}
    (hc : (s.cpu c).proc = none) (hsched : Parked ptable (s.scheduler c))
    (ht : s.context t ≠ .running) (hf : Parked ptable f) (htook : f.took = intena) :
    Inv ptable { s with
      cpu := Function.update s.cpu c { s.cpu c with proc := some t, intena := intena }
      thread := Function.update s.thread t f
      context := Function.update s.context t .running } := by
  have hflow := h.flow c
  rw [flow_scheduler hc] at hflow
  have hne : (s.scheduler c).held ≠ [] := by
    rw [hsched.held]
    simp
  have hother : ∀ {d u}, (s.cpu d).proc = some u → u ≠ t := by
    rintro d u hd rfl
    exact ht (h.running d u hd)
  have hproc : ∀ {d u}, (Function.update s.cpu c
      { s.cpu c with proc := some t, intena := intena } d).proc = some u →
      d = c ∧ u = t ∨ d ≠ c ∧ (s.cpu d).proc = some u ∧ u ≠ t := by
    intro d u hd
    by_cases hdc : d = c
    · subst hdc
      simp only [Function.update_self, Option.some.injEq] at hd
      exact .inl ⟨rfl, hd.symm⟩
    · rw [Function.update_of_ne hdc] at hd
      exact .inr ⟨hdc, hd, hother hd⟩
  refine ⟨fun d u hd => ?_, fun d d' u hd hd' => ?_, fun d => ?_, fun d u hd hheld => ?_,
    fun d u hd => ?_, fun u i hu => ?_⟩
  · rcases hproc hd with ⟨-, rfl⟩ | ⟨-, hd, hut⟩
    · simp
    · simp only [Function.update_of_ne hut]
      exact h.running d u hd
  · rcases hproc hd with ⟨rfl, rfl⟩ | ⟨hdc, hd, hut⟩
    · rcases hproc hd' with ⟨rfl, -⟩ | ⟨-, -, hut⟩
      · rfl
      · exact absurd rfl hut
    · rcases hproc hd' with ⟨-, rfl⟩ | ⟨-, hd', -⟩
      · exact absurd rfl hut
      · exact h.one d d' u hd hd'
  · by_cases hdc : d = c
    · subst hdc
      simp only [Spinlocks.flow, Function.update_self]
      refine ⟨?_, ?_, by simp [hf.pc], by simp [hf.pc], hf.frames⟩
      · rw [hf.held, ← hsched.held]
        exact hflow.depth
      · simp [hflow.iflag hne]
    · have hsame := h.flow d
      simp only [Spinlocks.flow, Function.update_of_ne hdc] at hsame ⊢
      cases hd : (s.cpu d).proc with
      | none => simpa only [hd] using hsame
      | some u => simpa only [hd, Function.update_of_ne (hother hd)] using hsame
  · rcases hproc hd with ⟨rfl, rfl⟩ | ⟨hdc, hd, hut⟩
    · simp only [Function.update_self]
      exact htook.symm
    · simp only [Function.update_of_ne hdc, Function.update_of_ne hut] at hheld ⊢
      exact h.took d u hd hheld
  · rcases hproc hd with ⟨rfl, -⟩ | ⟨-, hd, -⟩
    · exact hsched
    · exact h.scheduler d u hd
  · have hut : u ≠ t := by
      rintro rfl
      simp at hu
    simp only [Function.update_of_ne hut] at hu ⊢
    exact h.waiting u i hu

variable [DecidableEq L]

omit [DecidableEq T] in
theorem FlowOk.undone {f : Flow L} {x x' : CliCpu T} (h : FlowOk x f) {lk : Option L}
    (hpc : f.pc = .run) (hmem : lk ∈ f.held) (hpop : popcli x = some x') :
    FlowOk x' (undone lk f) ∧ Nests x x' f (undone lk f) := by
  obtain ⟨hoff, hpos, rfl⟩ := popcli_some hpop
  have hlen := List.length_erase_of_mem hmem
  have hdepth := h.depth
  have hnil : f.held.erase lk = [] ↔ x.ncli - 1 = 0 := by
    rw [← List.length_eq_zero_iff, hlen, hdepth]
    omega
  refine ⟨⟨?_, ?_, ?_, ?_, h.frames⟩, ⟨rfl, ?_, ?_, ?_⟩⟩
  · simp only [Spinlocks.undone, hlen]
    omega
  · intro hon
    simp only [Bool.and_eq_true, decide_eq_true_eq] at hon
    exact hnil.mpr hon.1
  · simp [Spinlocks.undone, hpc]
  · simp [Spinlocks.undone, hpc]
  · exact fun _ _ => ⟨rfl, rfl⟩
  · exact fun hempty => absurd hempty (List.ne_nil_of_mem hmem)
  · intro _ hempty
    simp [hnil.mp hempty]

omit [DecidableEq T] in
theorem FlowOk.callStep (h : FlowOk x.cpu x.flow) {op : CliOp T L}
    (hs : callStep c x op = some x') :
    FlowOk x'.cpu x'.flow ∧ Nests x.cpu x'.cpu x.flow x'.flow := by
  cases op with
  | call lk =>
    simp only [Spinlocks.callStep, Option.ite_none_right_eq_some, Option.some.injEq] at hs
    obtain ⟨-, rfl⟩ := hs
    exact ⟨⟨h.depth, h.off, fun e lk' hpc => (CliPc.pushing.inj hpc).1, by simp, h.frames⟩,
      .same rfl rfl rfl rfl⟩
  | tick =>
    simp only [Spinlocks.callStep] at hs
    split at hs
    · cases hs
    · next eflags lk hpc =>
      split at hs
      · cases hs
      · cases hs
        exact h.pushed hpc
    · next lk hpc =>
      split at hs
      · cases hs
        exact ⟨⟨h.depth, h.off, by simp, by simp, h.frames⟩, .same rfl rfl rfl rfl⟩
      · cases hs
        exact ⟨h, .same rfl rfl rfl rfl⟩
  | popcli =>
    simp only [Spinlocks.callStep, Option.ite_none_right_eq_some, Option.map_eq_some_iff] at hs
    obtain ⟨⟨hpc, hmem⟩, y, hpop, rfl⟩ := hs
    exact h.undone hpc hmem hpop
  | release lk =>
    simp only [Spinlocks.callStep, Option.ite_none_right_eq_some, Option.map_eq_some_iff] at hs
    obtain ⟨⟨hpc, hmem, -⟩, y, hpop, rfl⟩ := hs
    exact h.undone hpc hmem hpop
  | setFlag b =>
    simp only [Spinlocks.callStep, Option.ite_none_right_eq_some, Option.some.injEq] at hs
    obtain ⟨⟨hpc, hnil⟩, rfl⟩ := hs
    exact ⟨⟨h.depth, fun _ => hnil, by simp [hpc], by simp [hpc], h.frames⟩,
      .same rfl rfl rfl rfl⟩
  | intr =>
    simp only [Spinlocks.callStep, Option.ite_none_right_eq_some, Option.some.injEq] at hs
    obtain ⟨hon, rfl⟩ := hs
    have hnil := h.off hon
    refine ⟨⟨h.depth, fun _ => hnil, by simp, by simp, fun pc hpc => ?_⟩, .same rfl rfl rfl rfl⟩
    rcases List.mem_cons.mp hpc with rfl | hpc
    · cases hp : x.flow.pc with
      | run => exact .inl rfl
      | pushing eflags lk =>
        rw [← h.read eflags lk hp, hon]
        exact .inr ⟨lk, rfl⟩
      | spin lk => exact absurd hnil (h.spin lk hp)
    · exact h.frames pc hpc
  | iret =>
    simp only [Spinlocks.callStep] at hs
    split at hs
    · next pc frames hframes =>
      simp only [Option.ite_none_right_eq_some, Option.some.injEq] at hs
      obtain ⟨⟨-, hnil⟩, rfl⟩ := hs
      have hpc := h.frames pc (by rw [hframes]; exact List.mem_cons_self)
      refine ⟨⟨h.depth, fun _ => hnil, fun e lk he => ?_, fun lk he => ?_, fun q hq => ?_⟩,
        .same rfl rfl rfl rfl⟩
      · rcases hpc with hpc | ⟨lk', hpc⟩
        · cases hpc.symm.trans he
        · cases hpc.symm.trans he
          rfl
      · rcases hpc with hpc | ⟨lk', hpc⟩ <;> cases hpc.symm.trans he
      · exact h.frames q (by rw [hframes]; exact List.mem_cons_of_mem _ hq)
    · cases hs
  | sched => cases hs
  | dispatch t => cases hs
  | allocproc t => cases hs

theorem Inv.sched (h : Inv ptable s) (hs : s.sched ptable c = some s') : Inv ptable s' := by
  unfold Spinlocks.sched at hs
  split at hs
  · cases hs
  · next t ht =>
    simp only [Option.ite_none_right_eq_some, Option.some.injEq] at hs
    obtain ⟨⟨hpc, hheld, -, hncli, hoff⟩, rfl⟩ := hs
    have hsched := h.scheduler c t ht
    have hflow := h.flow c
    rw [flow_thread ht] at hflow
    have hother : ∀ {d u}, d ≠ c → (s.cpu d).proc = some u → u ≠ t := by
      rintro d u hd hdu rfl
      exact hd (h.one d c u hdu ht)
    -- The thread's place on the CPU is the scheduler's again.
    have hproc : ∀ {d u}, (Function.update s.cpu c { s.cpu c with proc := none } d).proc = some u →
        d ≠ c ∧ (s.cpu d).proc = some u := by
      intro d u hd
      by_cases hdc : d = c
      · subst hdc
        simp at hd
      · rw [Function.update_of_ne hdc] at hd
        exact ⟨hdc, hd⟩
    refine ⟨fun d u hd => ?_, fun d d' u hd hd' => ?_, fun d => ?_, fun d u hd hne => ?_,
      fun d u hd => ?_, fun u i hu => ?_⟩
    · obtain ⟨hdc, hd⟩ := hproc hd
      simp only [Function.update_of_ne (hother hdc hd)]
      exact h.running d u hd
    · exact h.one d d' u (hproc hd).2 (hproc hd').2
    · by_cases hdc : d = c
      · subst hdc
        simp only [Spinlocks.flow, Function.update_self]
        exact ⟨by rw [hncli, hsched.held]; rfl, by simp [hoff], by simp [hsched.pc],
          by simp [hsched.pc], hsched.frames⟩
      · simp only [Spinlocks.flow, Function.update_of_ne hdc]
        exact h.flow d
    · obtain ⟨hdc, hd⟩ := hproc hd
      simp only [Function.update_of_ne hdc]
      exact h.took d u hd hne
    · exact h.scheduler d u (hproc hd).2
    · by_cases hut : u = t
      · subst hut
        simp only [Function.update_self, CliContext.sched.injEq] at hu
        refine ⟨⟨hpc, hheld, hflow.frames⟩, ?_⟩
        rw [← hu]
        exact (h.took c u ht (by rw [hheld]; simp)).symm
      · simp only [Function.update_of_ne hut] at hu
        exact h.waiting u i hu

theorem Inv.dispatch (h : Inv ptable s) {t : T}
    (hfresh : s.context t = .forkret → (s.cpu c).intena = true)
    (hs : s.dispatch ptable c t = some s') : Inv ptable s' := by
  simp only [Spinlocks.dispatch, Option.ite_none_right_eq_some] at hs
  obtain ⟨⟨hc, hpc, hframes, hheld⟩, hs⟩ := hs
  have hsched : Parked ptable (s.scheduler c) := ⟨hpc, hheld, by simp [hframes]⟩
  split at hs
  · next intena ht =>
    cases hs
    obtain ⟨hf, htook⟩ := h.waiting t intena ht
    have henter := h.enter hc hsched (by rw [ht]; simp) hf htook
    rwa [Function.update_eq_self] at henter
  · next ht =>
    cases hs
    have henter := h.enter (f := ⟨.run, [], [some ptable], true⟩) hc hsched (by rw [ht]; simp)
      ⟨rfl, rfl, by simp⟩ (hfresh ht).symm
    exact henter
  · cases hs

-- A new thread is dispatched with the flag of a thread that had interrupts, or of scheduler.
def Fresh (s : Spinlocks T C L) : C × CliOp T L → Prop
  | (c, .dispatch t) => s.context t = .forkret → (s.cpu c).intena = true
  | _ => True

instance (s : Spinlocks T C L) : (e : C × CliOp T L) → Decidable (s.Fresh e)
  | (_, .dispatch _) => inferInstanceAs (Decidable (_ → _))
  | (_, .call _) | (_, .tick) | (_, .popcli) | (_, .release _) | (_, .setFlag _) | (_, .intr)
  | (_, .iret) | (_, .sched) | (_, .allocproc _) => .isTrue trivial

theorem step_cases {e : C × CliOp T L} (hs : s.step ptable e = some s') :
    (∃ x, callStep e.1 ⟨s.cpu e.1, s.flow e.1, s.lock⟩ e.2 = some x ∧ s' = s.put e.1 x) ∨
      s.sched ptable e.1 = some s' ∨ (∃ t, e.2 = .dispatch t ∧ s.dispatch ptable e.1 t = some s') ∨
      ∃ t, s.context t = .unused ∧
        s' = { s with context := Function.update s.context t .forkret } := by
  obtain ⟨c, op⟩ := e
  cases op with
  | sched => exact .inr (.inl hs)
  | dispatch t => exact .inr (.inr (.inl ⟨t, rfl, hs⟩))
  | allocproc t =>
    simp only [step, Option.ite_none_right_eq_some, Option.some.injEq] at hs
    exact .inr (.inr (.inr ⟨t, hs.1, hs.2.symm⟩))
  | _ =>
    simp only [step, Option.ite_none_right_eq_some, Option.map_eq_some_iff] at hs
    obtain ⟨-, x, hx, rfl⟩ := hs
    exact .inl ⟨x, hx, rfl⟩

theorem Inv.step (h : Inv ptable s) {e : C × CliOp T L} (hfresh : s.Fresh e)
    (hs : s.step ptable e = some s') : Inv ptable s' := by
  obtain ⟨x, hx, rfl⟩ | hs | ⟨t, he, hs⟩ | ⟨t, ht, rfl⟩ := step_cases hs
  · obtain ⟨hok, hn⟩ := FlowOk.callStep (h.flow e.1) hx
    exact h.put hok hn
  · exact h.sched hs
  · obtain ⟨c, op⟩ := e
    cases he
    exact h.dispatch hfresh hs
  · exact h.allocproc ht

-- A step that undoes the last call a thread had in hand leaves the flag it found at the first.
def Restores (s s' : Spinlocks T C L) (c : C) : Prop :=
  ∀ t, (s.cpu c).proc = some t → (s.thread t).held ≠ [] → (s'.thread t).held = [] →
    (s'.cpu c).iflag = (s.thread t).took

def Follows (ptable : L) (s : Spinlocks T C L) (e : C × CliOp T L) : Prop :=
  s.Off ∧ ∀ s', s.step ptable e = some s' → s'.Off ∧ s.Restores s' e.1

theorem Inv.restores (h : Inv ptable s) {e : C × CliOp T L} (hs : s.step ptable e = some s') :
    s.Restores s' e.1 := by
  intro t ht hne hnil
  obtain ⟨x, hx, rfl⟩ | hs | ⟨u, he, hs⟩ | ⟨u, hu, rfl⟩ := step_cases hs
  · obtain ⟨-, hn⟩ := FlowOk.callStep (h.flow e.1) hx
    rw [put_thread, if_pos ht] at hnil
    rw [put_cpu, Function.update_self, hn.ends (by rw [flow_thread ht]; exact hne) hnil]
    exact h.took e.1 t ht hne
  · simp only [Spinlocks.sched, ht, Option.ite_none_right_eq_some, Option.some.injEq] at hs
    obtain ⟨-, rfl⟩ := hs
    exact absurd hnil hne
  · simp [Spinlocks.dispatch, ht] at hs
  · exact absurd hnil hne

theorem interrupts_follow_thread (hs : s.Start) (es : List (C × CliOp T L))
    (hfresh : GuardedRun.along (step ptable) Fresh s es) :
    GuardedRun.along (step ptable) (Follows ptable) s es :=
  GuardedRun.along_of_invariant (fun _ _ _ hi hf hst => hi.step hf hst)
    (fun _ _ hi hf => ⟨hi.off, fun _ hst => ⟨(hi.step hf hst).off, hi.restores hst⟩⟩)
    hs.inv hfresh

def booted : Spinlocks (Fin 2) (Fin 2) (Fin 2) where
  cpu _ := ⟨0, false, false, none⟩
  thread _ := ⟨.run, [], [], false⟩
  scheduler _ := ⟨.run, [], [], false⟩
  context _ := .forkret
  lock _ := none

theorem booted_start : booted.Start :=
  ⟨fun _ => rfl, fun _ => rfl, fun _ => ⟨rfl, rfl, rfl⟩, fun _ => .inr rfl, fun _ => rfl⟩

def schedulerTop (c : Fin 2) : List (Fin 2 × CliOp (Fin 2) (Fin 2)) :=
  [(c, .setFlag true), (c, .call (some 0)), (c, .tick), (c, .tick)]

def acquirePtable (c : Fin 2) : List (Fin 2 × CliOp (Fin 2) (Fin 2)) :=
  [(c, .call (some 0)), (c, .tick), (c, .tick)]

-- A thread takes the other lock, then ptable.lock, releases the first and calls sched on CPU 0, and
-- goes on on CPU 1.
def sleeps : List (Fin 2 × CliOp (Fin 2) (Fin 2)) :=
  schedulerTop 0 ++ [(0, .dispatch 0), (0, .release 0), (0, .call (some 1)), (0, .tick), (0, .tick)] ++
    acquirePtable 0 ++ [(0, .release 1), (0, .sched), (0, .release 0)] ++ schedulerTop 1 ++
    [(1, .dispatch 0), (1, .release 0)]

theorem interrupts_follow_sleeps :
    (GuardedRun.run (step 0) booted sleeps).isSome = true ∧
      GuardedRun.along (step 0) (Follows 0) booted sleeps :=
  ⟨by decide, interrupts_follow_thread booted_start sleeps
    (GuardedRun.along_of_checks (by decide))⟩

-- The timer interrupts a thread, which yields with interrupts off, and the scheduler goes on to a
-- new thread without having taken ptable.lock again.
def yieldsToNew : List (Fin 2 × CliOp (Fin 2) (Fin 2)) :=
  schedulerTop 0 ++ [(0, .dispatch 0), (0, .release 0), (0, .intr)] ++ acquirePtable 0 ++
    [(0, .sched), (0, .dispatch 1)]

theorem forkret_without_interrupts : ¬ ∀ es, GuardedRun.along (step 0) (Follows 0) booted es := by
  intro hall
  have hrun : ∃ s, GuardedRun.run (step 0) booted yieldsToNew = some s ∧
      ((s.cpu 0).proc = some 1 ∧ (s.thread 1).held ≠ [] ∧ (s.thread 1).took = true ∧
        ∃ s' ∈ s.step 0 (0, .release 0), (s'.thread 1).held = [] ∧ (s'.cpu 0).iflag = false) :=
    GuardedRun.exists_of_any (by decide)
  obtain ⟨s, hrun, hproc, hheld, htook, s', hs', hnil, hoff⟩ := hrun
  have hfollows : Follows 0 s (0, .release 0) :=
    GuardedRun.along_at (hall (yieldsToNew ++ [(0, .release 0)])) hrun
  have hrestores := (hfollows.2 s' hs').2 1 hproc hheld hnil
  rw [hoff, htook] at hrestores
  cases hrestores

end Xv6.Spinlocks
