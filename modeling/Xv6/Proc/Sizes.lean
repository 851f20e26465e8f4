import Xv6.Proc.Memory

namespace Xv6

open Vm (Mapped Ok Keeps Works)

variable {n : Nat}

namespace ProcPc

def basic : ProcPc n → Bool
  | .execCommit _ _ | .waitSleep | .joinSleep _ _ _ _ => false
  | _ => true

def stacked : ProcPc n → Option (Fin n)
  | .spawnCopy _ np | .forkPublish np | .createCount np | .createLoad np | .createPublish np _ =>
    some np
  | _ => none

theorem stacked_spawning {x : ProcPc n} {np : Fin n} (h : x.stacked = some np) :
    x.spawning = some np := by
  cases x <;> simp_all [stacked, spawning]

def Fades (x y : ProcPc n) : Prop :=
  y = x ∨ y.basic = true ∧ (∀ np, y ≠ .forkPublish np) ∧ (y.stacked = none ∨ y.stacked = x.stacked)

end ProcPc

namespace Proc

def Fades (a b : Proc n) : Prop :=
  b.state.phase = .free ∨
    b.pgdir = a.pgdir ∧ b.sz = a.sz ∧ b.kstack = a.kstack ∧
      (b.state.phase = a.state.phase ∨ b.state.phase = .zombie ∧ a.state.phase = .active ∨
        b.state.phase = .embryo ∧ a.state.phase = .free)

theorem Fades.refl (a : Proc n) : a.Fades a := Or.inr ⟨rfl, rfl, rfl, Or.inl rfl⟩

theorem Fades.kept {a b : Proc n} (h : a.Fades b) (hb : b.state.phase ≠ .free) :
    b.pgdir = a.pgdir ∧ b.sz = a.sz ∧ b.kstack = a.kstack := by
  obtain ⟨hpgdir, hsz, hkstack, _⟩ := h.resolve_left hb
  exact ⟨hpgdir, hsz, hkstack⟩

theorem Fades.active {a b : Proc n} (h : a.Fades b) (hb : b.state.phase = .active) :
    a.state.phase = .active := by
  obtain ⟨_, _, _, hphase⟩ := h.resolve_left (by simp [hb])
  rcases hphase with hphase | ⟨hphase, _⟩ | ⟨hphase, _⟩
  · rw [← hphase, hb]
  · simp [hb] at hphase
  · simp [hb] at hphase

theorem Fades.zombie {a b : Proc n} (h : a.Fades b) (hb : b.state.phase = .zombie) :
    a.state.phase = .active ∨ a.state.phase = .zombie := by
  obtain ⟨_, _, _, hphase⟩ := h.resolve_left (by simp [hb])
  rcases hphase with hphase | ⟨_, ha⟩ | ⟨hphase, _⟩
  · exact Or.inr (hphase.symm.trans hb)
  · exact Or.inl ha
  · simp [hb] at hphase

def Alike (a b : Proc n) : Prop :=
  b.pgdir = a.pgdir ∧ b.sz = a.sz ∧ b.kstack = a.kstack ∧ b.state.phase = a.state.phase

theorem Alike.trans {a b c : Proc n} (h : a.Alike b) (h' : b.Alike c) : a.Alike c :=
  ⟨h'.1.trans h.1, h'.2.1.trans h.2.1, h'.2.2.1.trans h.2.2.1, h'.2.2.2.trans h.2.2.2⟩

theorem Alike.fades {a b c : Proc n} (h : a.Alike b) (h' : b.Fades c) : a.Fades c := by
  obtain ⟨hpgdir, hsz, hkstack, hphase⟩ := h
  unfold Fades at h' ⊢
  rwa [← hpgdir, ← hsz, ← hkstack, ← hphase]

theorem Alike.of_state {a : Proc n} {st : ProcState} (h : st.phase = a.state.phase) :
    a.Alike { a with state := st } := ⟨rfl, rfl, rfl, h⟩

end Proc

theorem wakeup1_alike (pt : Ptable n) (chan : Option (Fin n)) (p : Fin n) :
    (pt p).Alike (wakeup1 pt chan p) := by
  unfold wakeup1
  split
  · rename_i h
    exact .of_state (by rw [h.1]; rfl)
  · exact ⟨rfl, rfl, rfl, rfl⟩

theorem wakeJoiners_alike (pt : Ptable n) (proc p : Fin n) :
    (pt p).Alike (wakeJoiners pt proc p) := by
  unfold wakeJoiners
  split
  · rename_i h
    exact .of_state (by rw [h.1]; rfl)
  · exact ⟨rfl, rfl, rfl, rfl⟩

theorem abandonChildren_alike (pt : Ptable n) (proc initproc p : Fin n) :
    (pt p).Alike (abandonChildren pt proc initproc p) := by
  have hadopt : ∀ q, (pt q).Alike
      (if (pt q).parent = some proc then { pt q with parent := some initproc } else pt q) := by
    intro q
    split <;> exact ⟨rfl, rfl, rfl, rfl⟩
  unfold abandonChildren
  dsimp only
  split
  · exact (hadopt p).trans (wakeup1_alike _ _ p)
  · exact hadopt p

theorem fades_update {pt : Ptable n} {p : Fin n} {a : Proc n} (ha : (pt p).Fades a) (q : Fin n) :
    (pt q).Fades (Function.update pt p a q) := by
  by_cases hq : q = p
  · subst hq
    rwa [Function.update_self]
  · rw [Function.update_of_ne hq]
    exact .refl _

theorem pc_fades_update {pc : Fin n → ProcPc n} {i : Fin n} {x : ProcPc n} (hx : (pc i).Fades x)
    (j : Fin n) : (pc j).Fades (Function.update pc i x j) := by
  by_cases hj : j = i
  · subst hj
    rwa [Function.update_self]
  · rw [Function.update_of_ne hj]
    exact Or.inl rfl

namespace Procs

inductive Space (s : Procs n) : Fin n → Nat → Nat → Prop
  | active {p : Fin n} (h : (s.ptable p).state.phase = .active) :
      Space s p (s.ptable p).pgdir (s.ptable p).sz
  | copied {i np : Fin n} (h : s.pc i = .forkPublish np) :
      Space s np (s.ptable np).pgdir (s.ptable i).sz

def Stacked (s : Procs n) (p : Fin n) : Prop :=
  (s.ptable p).state.phase = .active ∨ (s.ptable p).state.phase = .zombie ∨
    ∃ i, (s.pc i).stacked = some p

structure Fades (s t : Procs n) : Prop where
  slot : ∀ p, (s.ptable p).Fades (t.ptable p)
  pc : ∀ j, (s.pc j).Fades (t.pc j)
  holder : t.holder = s.holder

theorem Fades.fork {s t : Procs n} (h : s.Fades t) {j np : Fin n} (hj : t.pc j = .forkPublish np) :
    s.pc j = .forkPublish np := by
  rcases h.pc j with hpc | ⟨_, hpc, _⟩
  · exact hpc.symm.trans hj
  · exact absurd hj (hpc np)

theorem Fades.space {s t : Procs n} (h : s.Fades t) (hspawn : t.groups.Spawning) {p : Fin n}
    {d k : Nat} (hp : t.Space p d k) : s.Space p d k := by
  cases hp with
  | active hp =>
    obtain ⟨hpgdir, hsz, _⟩ := (h.slot p).kept (by simp [hp])
    rw [hpgdir, hsz]
    exact .active ((h.slot p).active hp)
  | @copied i _ hi =>
    obtain ⟨hactive, hembryo⟩ := hspawn.slot i p (congrArg ProcPc.spawning hi)
    have hpgdir := ((h.slot p).kept (ne_of_eq_of_ne hembryo (by simp))).1
    have hsz := ((h.slot i).kept (ne_of_eq_of_ne hactive (by simp))).2.1
    rw [hpgdir, hsz]
    exact .copied (h.fork hi)

theorem Fades.stacked {s t : Procs n} (h : s.Fades t) (hspawn : t.groups.Spawning) {p : Fin n}
    (hp : t.Stacked p) : s.Stacked p ∧ (t.ptable p).kstack = (s.ptable p).kstack := by
  rcases hp with hp | hp | ⟨j, hj⟩
  · exact ⟨Or.inl ((h.slot p).active hp), ((h.slot p).kept (by simp [hp])).2.2⟩
  · refine ⟨?_, ((h.slot p).kept (by simp [hp])).2.2⟩
    exact ((h.slot p).zombie hp).imp_right Or.inl
  · have hembryo := (hspawn.slot j p (ProcPc.stacked_spawning hj)).2
    refine ⟨Or.inr (Or.inr ⟨j, ?_⟩), ((h.slot p).kept (ne_of_eq_of_ne hembryo (by simp))).2.2⟩
    rcases h.pc j with hpc | ⟨_, _, hpc | hpc⟩
    · rwa [← hpc]
    · simp [hpc] at hj
    · rwa [← hpc]

end Procs

def ProcOp.fading : ProcOp → Bool
  | .schedule | .yield | .spawn _ | .spawnInit none | .spawnCopy none | .forkClear | .createCount
  | .createLoad | .exit | .newExit => true
  | _ => false

namespace Procs

theorem exitLast_fades (pt : Ptable n) (i p : Fin n) :
    (pt p).Fades (reapSiblings (wakeJoiners pt i) i p) := by
  refine (wakeJoiners_alike pt i p).fades ?_
  unfold reapSiblings
  split
  · exact Or.inl rfl
  · exact .refl _

theorem zombie_fades {a : Proc n} (h : a.state.phase = .active) :
    a.Fades { a with state := .zombie } := Or.inr ⟨rfl, rfl, rfl, Or.inr (Or.inl ⟨rfl, h⟩)⟩

theorem pstep_fades {s t : Procs n} {i : Fin n} {op : ProcOp} (h : PStep s i op t)
    (hop : op.fading = true) (hbasic : ∀ j, (s.pc j).basic = true) : s.Fades t := by
  have hpc : ∀ {x : ProcPc n}, x.basic = true → (∀ np, x ≠ .forkPublish np) →
      (x.stacked = none ∨ x.stacked = (s.pc i).stacked) →
      ∀ j, (s.pc j).Fades (Function.update s.pc i x j) :=
    fun hx hf hst => pc_fades_update (Or.inr ⟨hx, hf, hst⟩)
  have hwait : ∀ b, ¬ s.WaitEntry i op b := by
    rintro b (⟨rfl, _⟩ | ⟨_, _, hw, _⟩)
    · simp [ProcOp.fading] at hop
    · simpa [hw, ProcPc.basic] using hbasic i
  cases h with
  | resume hs hw hj =>
    refine ⟨fades_update ((Proc.Alike.of_state ?_).fades (.refl _)), fun j => Or.inl rfl, rfl⟩
    rw [hs]
    rfl
  | joinReturn hs hj => simpa [hj, ProcPc.basic] using hbasic i
  | waitReap he => exact absurd he (hwait _)
  | waitNone he => exact absurd he (hwait _)
  | waitBlock he => exact absurd he (hwait _)
  | yield hs =>
    refine ⟨fades_update ((Proc.Alike.of_state ?_).fades (.refl _)), fun j => Or.inl rfl, rfl⟩
    rw [hs]
    rfl
  | spawnFull hs hi ha => exact ⟨fun p => .refl _, hpc rfl (by simp) (Or.inl rfl), rfl⟩
  | @spawn k np hs hi ha =>
    refine ⟨fades_update (Or.inr ⟨rfl, rfl, rfl, Or.inr (Or.inr ⟨rfl, ?_⟩)⟩),
      hpc rfl (by simp) (Or.inl rfl), rfl⟩
    rw [allocSlot_some ha]
    rfl
  | initFail hs hi =>
    exact ⟨fades_update (Or.inl rfl), hpc rfl (by simp) (Or.inl rfl), rfl⟩
  | copyFail hs hi =>
    exact ⟨fades_update (Or.inl rfl), hpc rfl (by simp) (Or.inl rfl), rfl⟩
  | forkClear hs hi =>
    exact ⟨fades_update (Or.inr ⟨rfl, rfl, rfl, Or.inl rfl⟩), hpc rfl (by simp) (Or.inl rfl), rfl⟩
  | createCount hs hi | createLoad hs hi =>
    exact ⟨fun p => .refl _, hpc rfl (by simp) (Or.inr (by rw [hi]; rfl)), rfl⟩
  | exitLast hs hi hinit hc =>
    exact ⟨exitLast_fades s.ptable i, hpc rfl (by simp) (Or.inl rfl), rfl⟩
  | exitThread hs hi hinit hc =>
    refine ⟨fun p => (wakeJoiners_alike s.ptable i p).fades (fades_update (zombie_fades ?_) p),
      fun j => Or.inl rfl, rfl⟩
    rw [(wakeJoiners_alike s.ptable i i).2.2.2, hs]
    rfl
  | newExit hs hi hinit =>
    have halike : ∀ p, (s.ptable p).Alike
        (abandonChildren (wakeup1 s.ptable (s.ptable i).parent) i s.initproc p) := fun p =>
      (wakeup1_alike s.ptable _ p).trans (abandonChildren_alike _ i s.initproc p)
    refine ⟨fun p => (halike p).fades (fades_update (zombie_fades ?_) p), fun j => Or.inl rfl, rfl⟩
    rw [(halike i).2.2.2, hs]
    rfl
  | _ => simp [ProcOp.fading] at hop

end Procs

namespace Kernel

structure Sized (L : Layout) (s : Kernel n) (role : Nat → Role) : Prop where
  ok : Ok L s.vm role
  spawning : s.procs.groups.Spawning
  basic : ∀ j, (s.procs.pc j).basic = true
  space : ∀ p d k, s.procs.Space p d k → role d = .dir ∧ Mapped s.vm d (pages k) ∧ k < kernbase
  same : ∀ p q d k k', s.procs.Space p d k → s.procs.Space q d k' → k = k'
  own : ∀ j np q k, s.procs.pc j = .forkPublish np →
    s.procs.Space q (s.procs.ptable np).pgdir k → q = np
  stack : ∀ p, s.procs.Stacked p → role (s.procs.ptable p).kstack = .stack p
  holder : ∀ d, s.procs.holder d ≠ none → role d = .dir

variable {L : Layout} {s : Kernel n} {role role' : Nat → Role} {t : Procs n} {vm : Vm}

def KeepsDirs (vm vm' : Vm) (role role' : Nat → Role) : Prop :=
  ∀ d, role d = .dir → role' d = .dir ∧ ∀ v, vm'.page d v = vm.page d v

theorem KeepsDirs.refl (vm : Vm) (role : Nat → Role) : KeepsDirs vm vm role role :=
  fun _ hd => ⟨hd, fun _ => rfl⟩

theorem KeepsDirs.of_keeps {vm vm' : Vm} {D : Set Nat} (h : Keeps D vm vm' role role')
    (hD : ∀ d, role d = .dir → d ∈ D) : KeepsDirs vm vm' role role' :=
  fun d hd => h.dir d (hD d hd) hd

theorem KeepsDirs.trans {vm vm' vm'' : Vm} {role'' : Nat → Role}
    (h : KeepsDirs vm vm' role role') (h' : KeepsDirs vm' vm'' role' role'') :
    KeepsDirs vm vm'' role role'' := by
  intro d hd
  obtain ⟨hd', hpage⟩ := h d hd
  obtain ⟨hd'', hpage'⟩ := h' d hd'
  exact ⟨hd'', fun v => (hpage' v).trans (hpage v)⟩

theorem KeepsDirs.mapped {vm vm' : Vm} (h : KeepsDirs vm vm' role role') {d k : Nat}
    (hd : role d = .dir) (hm : Mapped vm d k) : Mapped vm' d k := by
  intro v hv
  rw [(h d hd).2]
  exact hm v hv

theorem Sized.frame (h : Sized L s role) (hspawn : t.groups.Spawning)
    (hbasic : ∀ j, (t.pc j).basic = true) (hok : Ok L vm role') (hdirs : KeepsDirs s.vm vm role role')
    (hspace : ∀ p d k, t.Space p d k →
      ∃ q, s.procs.Space q d k ∧ (q = p ∨ (s.procs.ptable q).state.phase = .active))
    (hfork : ∀ j np, t.pc j = .forkPublish np →
      s.procs.pc j = .forkPublish np ∧ (t.ptable np).pgdir = (s.procs.ptable np).pgdir)
    (hstack : ∀ p, t.Stacked p → role' (t.ptable p).kstack = .stack p)
    (hholder : ∀ d, t.holder d ≠ none → role' d = .dir) : Sized L ⟨t, vm⟩ role' := by
  refine ⟨hok, hspawn, hbasic, ?_, ?_, ?_, hstack, hholder⟩
  · intro p d k hp
    obtain ⟨q, hq, _⟩ := hspace p d k hp
    obtain ⟨hd, hm, hk⟩ := h.space q d k hq
    exact ⟨(hdirs d hd).1, hdirs.mapped hd hm, hk⟩
  · intro p q d k k' hp hq
    obtain ⟨p', hp', _⟩ := hspace p d k hp
    obtain ⟨q', hq', _⟩ := hspace q d k' hq
    exact h.same p' q' d k k' hp' hq'
  · intro j np q k hj hq
    obtain ⟨hj', hpgdir⟩ := hfork j np hj
    obtain ⟨q', hq', hqq⟩ := hspace q _ k hq
    have hnp := h.own j np q' k hj' (hpgdir ▸ hq')
    rcases hqq with rfl | hactive
    · exact hnp
    · have hembryo := (h.spawning.slot j np (congrArg ProcPc.spawning hj')).2
      rw [← hnp] at hembryo
      exact absurd (hembryo.symm.trans hactive) (by simp)

theorem Sized.fades (h : Sized L s role) (hspawn : t.groups.Spawning) (ht : s.procs.Fades t)
    (hok : Ok L vm role') (hdirs : KeepsDirs s.vm vm role role')
    (hstack : ∀ p, t.Stacked p → role (s.procs.ptable p).kstack = .stack p →
      role' (s.procs.ptable p).kstack = .stack p) : Sized L ⟨t, vm⟩ role' := by
  refine h.frame hspawn ?_ hok hdirs ?_ ?_ ?_ ?_
  · intro j
    rcases ht.pc j with hpc | ⟨hbasic, _⟩
    · rw [hpc]
      exact h.basic j
    · exact hbasic
  · intro p d k hp
    exact ⟨p, ht.space hspawn hp, Or.inl rfl⟩
  · intro j np hj
    have hembryo := (hspawn.slot j np (congrArg ProcPc.spawning hj)).2
    exact ⟨ht.fork hj, ((ht.slot np).kept (ne_of_eq_of_ne hembryo (by simp))).1⟩
  · intro p hp
    obtain ⟨hs, hkstack⟩ := ht.stacked hspawn hp
    rw [hkstack]
    exact hstack p hp (h.stack p hs)
  · intro d hd
    rw [ht.holder] at hd
    exact (hdirs d (h.holder d hd)).1

theorem pstep_spawning {t : Procs n} {i : Fin n} {op : ProcOp} (h : s.procs.groups.Spawning)
    (hstep : Procs.PStep s.procs i op t) : t.groups.Spawning := by
  obtain ⟨a, hg, _⟩ := Procs.pstep_gstep hstep
  exact Groups.spawning_step h hg

theorem stacked_phase (hspawn : t.groups.Spawning) {p : Fin n} (h : t.Stacked p) :
    (t.ptable p).state.phase ≠ .free := by
  rcases h with hp | hp | ⟨j, hj⟩
  · simp [hp]
  · simp [hp]
  · exact ne_of_eq_of_ne (hspawn.slot j p (ProcPc.stacked_spawning hj)).2 (by simp)

theorem Sized.publish (h : Sized L s role) {i np : Fin n} {c : Proc n} {x : ProcPc n}
    (hspawn : t.groups.Spawning) (hi : (s.procs.pc i).stacked = some np)
    (htable : t.ptable = Function.update s.procs.ptable np c) (hkstack : c.kstack =
      (s.procs.ptable np).kstack)
    (hpc : t.pc = Function.update (Function.update s.procs.pc np .user) i x)
    (hx : x.stacked = none) (hbasic : x.basic = true) (hholder : t.holder = s.procs.holder)
    (hc : ∃ q, s.procs.Space q c.pgdir c.sz ∧ (q = np ∨ (s.procs.ptable q).state.phase = .active)) :
    Sized L ⟨t, s.vm⟩ role := by
  have hspawning := ProcPc.stacked_spawning hi
  have hembryo := (h.spawning.slot i np hspawning).2
  have hother : ∀ j, (t.pc j).stacked ≠ none → j ≠ i ∧ j ≠ np ∧ t.pc j = s.procs.pc j := by
    intro j hj
    have hji : j ≠ i := by
      rintro rfl
      simp [hpc, hx] at hj
    have hjn : j ≠ np := by
      rintro rfl
      simp [hpc, hji, ProcPc.stacked] at hj
    exact ⟨hji, hjn, by rw [hpc, Function.update_of_ne hji, Function.update_of_ne hjn]⟩
  have hfork : ∀ j m, t.pc j = .forkPublish m →
      j ≠ np ∧ m ≠ np ∧ s.procs.pc j = .forkPublish m := by
    intro j m hj
    obtain ⟨hji, hjn, hsame⟩ := hother j (by simp [hj, ProcPc.stacked])
    rw [hsame] at hj
    refine ⟨hjn, ?_, hj⟩
    rintro rfl
    exact hji (h.spawning.unique j i m (congrArg ProcPc.spawning hj) hspawning)
  refine h.frame hspawn ?_ h.ok (.refl _ _) ?_ ?_ ?_ ?_
  · intro j
    rw [hpc]
    by_cases hji : j = i
    · subst hji
      simpa using hbasic
    · rw [Function.update_of_ne hji]
      by_cases hjn : j = np
      · subst hjn
        simp [ProcPc.basic]
      · rw [Function.update_of_ne hjn]
        exact h.basic j
  · intro p d k hp
    cases hp with
    | active hp =>
      by_cases hpn : p = np
      · subst hpn
        simpa only [htable, Function.update_self] using hc
      · rw [htable, Function.update_of_ne hpn] at hp ⊢
        exact ⟨p, .active hp, Or.inl rfl⟩
    | @copied j _ hj =>
      obtain ⟨hjn, hpn, hj⟩ := hfork j p hj
      rw [htable, Function.update_of_ne hpn, Function.update_of_ne hjn]
      exact ⟨p, .copied hj, Or.inl rfl⟩
  · intro j m hj
    obtain ⟨_, hmn, hj⟩ := hfork j m hj
    rw [htable, Function.update_of_ne hmn]
    exact ⟨hj, rfl⟩
  · intro p hp
    by_cases hpn : p = np
    · subst hpn
      rw [htable, Function.update_self, hkstack]
      exact h.stack p (Or.inr (Or.inr ⟨i, hi⟩))
    · unfold Procs.Stacked at hp
      rw [htable, Function.update_of_ne hpn] at hp ⊢
      refine h.stack p (hp.imp_right (Or.imp_right ?_))
      rintro ⟨j, hj⟩
      rw [(hother j (by simp [hj])).2.2] at hj
      exact ⟨j, hj⟩
  · intro d hd
    rw [hholder] at hd
    exact h.holder d hd

theorem plain_cases {op : KernelOp} {p : ProcOp} (h : op.plain = some p) :
    p.fading = true ∨ p = .forkPublish ∨ p = .createPublish := by
  cases op <;> simp_all [KernelOp.plain] <;> subst h <;> simp [ProcOp.fading]

theorem not_waitEntry {s b : Procs n} {i : Fin n} {op : ProcOp} (hw : op ≠ .wait)
    (hs : op ≠ .schedule) : ¬ s.WaitEntry i op b := by
  rintro (⟨h, _⟩ | ⟨h, _⟩)
  · exact hw h
  · exact hs h

theorem Sized.plain (h : Sized L s role) {i : Fin n} {op : KernelOp} {p : ProcOp}
    (hop : op.plain = some p) (hstep : Procs.PStep s.procs i p t) : Sized L ⟨t, s.vm⟩ role := by
  have hspawn := pstep_spawning h.spawning hstep
  rcases plain_cases hop with hfading | rfl | rfl
  · exact h.fades hspawn (Procs.pstep_fades hstep hfading h.basic) h.ok (.refl _ _) fun _ _ hp => hp
  · cases hstep with
    | @forkPublish np hs hpc =>
      refine h.publish hspawn (by rw [hpc]; rfl) rfl rfl rfl rfl rfl rfl ?_
      exact ⟨np, .copied hpc, Or.inl rfl⟩
    | waitReap he | waitNone he | waitBlock he =>
      exact absurd he (not_waitEntry (by simp) (by simp))
  · cases hstep with
    | @createPublish np parent hs hpc =>
      have hactive : (s.procs.ptable i).state.phase = .active := by rw [hs]; rfl
      refine h.publish hspawn (by rw [hpc]; rfl) rfl rfl rfl rfl rfl rfl ?_
      exact ⟨i, .active hactive, Or.inr hactive⟩
    | waitReap he | waitNone he | waitBlock he =>
      exact absurd he (not_waitEntry (by simp) (by simp))

theorem Sized.stackFree (h : Sized L s role) {np : Fin n} {vm₁ vm' : Vm}
    (hspawn : t.groups.Spawning) (hfades : s.procs.Fades t)
    (hok : Ok L vm₁ role') (hkeeps : Keeps Set.univ s.vm vm₁ role role')
    (hnp : s.procs.Stacked np) (hfree : vm₁.kfree L (s.procs.ptable np).kstack = .ok vm')
    (hgone : (t.ptable np).state.phase = .free) : ∃ role'', Sized L ⟨t, vm'⟩ role'' := by
  have hstack := hkeeps.stack _ trivial _ (h.stack np hnp)
  obtain ⟨vm₂, hfree₂, _, hok₂, hkeeps₂⟩ := hok.free_loose (p := (s.procs.ptable np).kstack)
    (by rw [hstack]; rfl) (by simp [hstack])
  rw [hfree, Except.ok.injEq] at hfree₂
  subst hfree₂
  refine ⟨_, h.fades hspawn hfades hok₂ ?_ ?_⟩
  · refine (KeepsDirs.of_keeps hkeeps fun d _ => trivial).trans (.of_keeps hkeeps₂ ?_)
    rintro d hd rfl
    simp [hstack] at hd
  · intro p hp hrole
    have hne : p ≠ np := by
      rintro rfl
      exact stacked_phase hspawn hp hgone
    refine hkeeps₂.stack _ ?_ _ (hkeeps.stack _ trivial _ hrole)
    intro heq
    rw [heq, h.stack np hnp, Role.stack.injEq] at hrole
    exact hne (Fin.ext hrole.symm)

theorem Sized.copyFail (h : Sized L s role) {i np : Fin n} {k : Spawn} {vm₁ vm' : Vm}
    (hs : (s.procs.ptable i).state = .running) (hpc : s.procs.pc i = .spawnCopy k np)
    (hcopy : s.vm.copyuvm L (s.procs.ptable i).pgdir (s.procs.ptable i).sz = .ok (vm₁, none))
    (hfree : vm₁.kfree L (s.procs.ptable np).kstack = .ok vm')
    (hstep : Procs.PStep s.procs i (.spawnCopy none) t) : ∃ role', Sized L ⟨t, vm'⟩ role' := by
  obtain ⟨hdir, hm, hsz⟩ := h.space i _ _ (.active (by rw [hs]; rfl))
  obtain ⟨vm₂, role₂, r, hcopy₂, hok, hkeeps, _⟩ := Vm.copyuvm_spec _ h.ok hdir hsz.le hm
  rw [hcopy, Except.ok.injEq, Prod.mk.injEq] at hcopy₂
  obtain ⟨rfl, rfl⟩ := hcopy₂
  refine h.stackFree (pstep_spawning h.spawning hstep) (Procs.pstep_fades hstep rfl h.basic) hok
    hkeeps (Or.inr (Or.inr ⟨i, by rw [hpc]; rfl⟩)) hfree ?_
  cases hstep with
  | copyFail _ hpc' =>
    rw [hpc] at hpc'
    cases hpc'
    simp [Procs.discardCopy, ProcState.phase]
  | waitReap he | waitNone he | waitBlock he => exact absurd he (not_waitEntry (by simp) (by simp))

theorem Sized.init (h : Sized L s role) {i np : Fin n} {k : Spawn} {c : Proc n} {kstack : Nat}
    (hp : Vm.Popped s.vm vm kstack) (hspawn : t.groups.Spawning)
    (htable : t.ptable = Function.update s.procs.ptable np c)
    (hc : c.pgdir = (s.procs.ptable np).pgdir ∧ c.sz = (s.procs.ptable np).sz ∧
      c.state = (s.procs.ptable np).state ∧ c.kstack = kstack)
    (hpc : t.pc = Function.update s.procs.pc i (.spawnCopy k np))
    (hholder : t.holder = s.procs.holder) :
    Sized L ⟨t, vm⟩ (Function.update role kstack (.stack np)) := by
  have hfree := h.ok.free_of_popped hp
  have hslot : ∀ p, (t.ptable p).pgdir = (s.procs.ptable p).pgdir ∧
      (t.ptable p).sz = (s.procs.ptable p).sz ∧ (t.ptable p).state = (s.procs.ptable p).state := by
    intro p
    rw [htable]
    by_cases hpn : p = np
    · subst hpn
      simpa only [Function.update_self] using ⟨hc.1, hc.2.1, hc.2.2.1⟩
    · simp only [Function.update_of_ne hpn, and_self]
  have hfork : ∀ j m, t.pc j = .forkPublish m → s.procs.pc j = .forkPublish m := by
    intro j m hj
    rw [hpc] at hj
    by_cases hji : j = i
    · subst hji
      simp at hj
    · rwa [Function.update_of_ne hji] at hj
  refine h.frame hspawn ?_ (h.ok.popped hp (by simp) rfl)
    (.of_keeps (h.ok.keeps_popped hp) fun d _ => Set.mem_univ d) ?_ ?_ ?_ ?_
  · intro j
    rw [hpc]
    by_cases hji : j = i
    · subst hji
      simp [ProcPc.basic]
    · rw [Function.update_of_ne hji]
      exact h.basic j
  · intro p d k hp
    refine ⟨p, ?_, Or.inl rfl⟩
    cases hp with
    | active hp =>
      rw [(hslot p).2.2] at hp
      rw [(hslot p).1, (hslot p).2.1]
      exact .active hp
    | @copied j _ hj =>
      rw [(hslot p).1, (hslot j).2.1]
      exact .copied (hfork j p hj)
  · exact fun j m hj => ⟨hfork j m hj, (hslot m).1⟩
  · intro p hp
    by_cases hpn : p = np
    · subst hpn
      rw [htable, Function.update_self, hc.2.2.2, Function.update_self]
    · have hold : s.procs.Stacked p := by
        unfold Procs.Stacked at hp ⊢
        rw [(hslot p).2.2] at hp
        refine hp.imp_right (Or.imp_right ?_)
        rintro ⟨j, hj⟩
        refine ⟨j, ?_⟩
        rw [hpc] at hj
        by_cases hji : j = i
        · subst hji
          rw [Function.update_self] at hj
          exact absurd (Option.some.inj hj).symm hpn
        · rwa [Function.update_of_ne hji] at hj
      have hrole := h.stack p hold
      rw [htable, Function.update_of_ne hpn, Function.update_of_ne, hrole]
      rintro rfl
      simp [hfree] at hrole
  · intro d hd
    rw [hholder] at hd
    have hdir := h.holder d hd
    rw [Function.update_of_ne, hdir]
    rintro rfl
    simp [hfree] at hdir

theorem Sized.allocStack (h : Sized L s role) {i : Fin n} {kstack : Nat}
    (hk : s.vm.kalloc = (vm, some kstack))
    (hstep : Procs.PStep s.procs i (.spawnInit (some kstack)) t) :
    ∃ role', Sized L ⟨t, vm⟩ role' := by
  have hspawn := pstep_spawning h.spawning hstep
  cases hstep with
  | @init k np _ hs hpc =>
    cases k <;> exact ⟨_, h.init (Vm.kalloc_some hk) hspawn rfl ⟨rfl, rfl, rfl, rfl⟩ rfl rfl⟩
  | waitReap he | waitNone he | waitBlock he => exact absurd he (not_waitEntry (by simp) (by simp))

theorem copy_space {i np : Fin n} {k : Spawn} {d : Nat} (hspawn : s.procs.groups.Spawning)
    (hpc : s.procs.pc i = .spawnCopy k np) {p : Fin n} {d' z : Nat}
    (hp : ((s.procs.install np d k).goto i (Procs.afterCopy np k)).Space p d' z) :
    s.procs.Space p d' z ∨ k = .fork ∧ p = np ∧ d' = d ∧ z = (s.procs.ptable i).sz := by
  have hspawning : (s.procs.pc i).spawning = some np := by rw [hpc]; rfl
  have hembryo : (s.procs.ptable np).state.phase = .embryo := (hspawn.slot i np hspawning).2
  have hsz : ∀ j, ((s.procs.install np d k).ptable j).sz = (s.procs.ptable j).sz := by
    intro j
    by_cases hj : j = np
    · subst hj
      simp [Procs.install]
    · simp [Procs.install, hj]
  cases hp with
  | active hp =>
    by_cases hpn : p = np
    · subst hpn
      simp [Procs.install, hembryo] at hp
    · simp only [Procs.install, Procs.goto, Procs.setHolder, Procs.setSlot,
        Function.update_of_ne hpn] at hp ⊢
      exact Or.inl (.active hp)
  | @copied j _ hj =>
    by_cases hji : j = i
    · subst hji
      cases k <;> simp [Procs.afterCopy] at hj
      subst hj
      exact Or.inr ⟨rfl, rfl, by simp [Procs.install], hsz j⟩
    · have hj' : s.procs.pc j = .forkPublish p := by simpa [Procs.install, hji] using hj
      have hpn : p ≠ np := by
        rintro rfl
        exact hji (hspawn.unique j i p (congrArg ProcPc.spawning hj') hspawning)
      have hpgdir : ((s.procs.install np d k).ptable p).pgdir = (s.procs.ptable p).pgdir := by
        simp [Procs.install, hpn]
      refine Or.inl ?_
      change s.procs.Space p ((s.procs.install np d k).ptable p).pgdir
        ((s.procs.install np d k).ptable j).sz
      rw [hpgdir, hsz]
      exact .copied hj'

theorem Sized.copy (h : Sized L s role) {i np : Fin n} {k : Spawn} {d : Nat}
    (hs : (s.procs.ptable i).state = .running) (hpc : s.procs.pc i = .spawnCopy k np)
    (hcopy : s.vm.copyuvm L (s.procs.ptable i).pgdir (s.procs.ptable i).sz = .ok (vm, some d)) :
    ∃ role', Sized L ⟨(s.procs.install np d k).goto i (Procs.afterCopy np k), vm⟩ role' := by
  obtain ⟨hdir, hm, hsz⟩ := h.space i _ _ (.active (by rw [hs]; rfl))
  obtain ⟨vm₂, role', r, hcopy₂, hok, hkeeps, hnew, _⟩ := Vm.copyuvm_spec _ h.ok hdir hsz.le hm
  rw [hcopy, Except.ok.injEq, Prod.mk.injEq] at hcopy₂
  obtain ⟨rfl, rfl⟩ := hcopy₂
  have hd := (hnew d rfl).1
  have hfresh : s.procs.FreshDir d := by
    refine ⟨hok.ne_zero (by simp [hd.dir]), ?_⟩
    by_contra hheld
    simpa [hd.free] using h.holder d hheld
  have hspawn := pstep_spawning h.spawning (.copy hs hpc hfresh)
  have hunused : ∀ {p z}, ¬ s.procs.Space p d z := fun hp => by
    simpa [hd.free] using (h.space _ _ _ hp).1
  have hspawning : (s.procs.pc i).spawning = some np := by rw [hpc]; rfl
  have hslot : ∀ p, p ≠ np → ((s.procs.install np d k).goto i (Procs.afterCopy np k)).ptable p =
      s.procs.ptable p := fun p hp => by simp [Procs.install, hp]
  have hpc' : ∀ j, j ≠ i → ((s.procs.install np d k).goto i (Procs.afterCopy np k)).pc j =
      s.procs.pc j := fun j hj => by simp [Procs.install, hj]
  refine ⟨role', hok, hspawn, ?_, ?_, ?_, ?_, ?_, ?_⟩
  · intro j
    by_cases hji : j = i
    · subst hji
      cases k <;> simp [Procs.afterCopy, ProcPc.basic]
    · rw [hpc' j hji]
      exact h.basic j
  · intro p d' z hp
    rcases copy_space h.spawning hpc hp with hp | ⟨_, _, rfl, rfl⟩
    · obtain ⟨hd', hm', hz⟩ := h.space p d' z hp
      obtain ⟨hd'', hpage⟩ := hkeeps.dir d' trivial hd'
      exact ⟨hd'', fun v hv => by rw [hpage, hm' v hv], hz⟩
    · exact ⟨hd.dir, hd.mapped, hsz⟩
  · intro p q d' z z' hp hq
    rcases copy_space h.spawning hpc hp with hp' | ⟨_, _, hd', hz⟩ <;>
      rcases copy_space h.spawning hpc hq with hq' | ⟨_, _, hd'', hz'⟩
    · exact h.same p q d' z z' hp' hq'
    · exact absurd (hd'' ▸ hp') hunused
    · exact absurd (hd' ▸ hq') hunused
    · rw [hz, hz']
  · intro j m q z hj hq
    by_cases hji : j = i
    · subst hji
      cases k <;> simp [Procs.afterCopy] at hj
      subst hj
      have hq' : ((s.procs.install np d .fork).goto j (Procs.afterCopy np .fork)).Space q d z := by
        simpa [Procs.install] using hq
      rcases copy_space h.spawning hpc hq' with hq | ⟨_, rfl, _⟩
      · exact absurd hq hunused
      · rfl
    · rw [hpc' j hji] at hj
      have hmn : m ≠ np := by
        rintro rfl
        exact hji (h.spawning.unique j i m (congrArg ProcPc.spawning hj) hspawning)
      rw [hslot m hmn] at hq
      rcases copy_space h.spawning hpc hq with hq | ⟨_, _, hpgdir, _⟩
      · exact h.own j m q z hj hq
      · exact absurd (hpgdir ▸ Procs.Space.copied hj) hunused
  · intro p hp
    have hkstack : (((s.procs.install np d k).goto i (Procs.afterCopy np k)).ptable p).kstack =
        (s.procs.ptable p).kstack ∧
        (((s.procs.install np d k).goto i (Procs.afterCopy np k)).ptable p).state =
          (s.procs.ptable p).state := by
      by_cases hpn : p = np
      · subst hpn
        simp [Procs.install]
      · rw [hslot p hpn]
        exact ⟨rfl, rfl⟩
    unfold Procs.Stacked at hp
    rw [hkstack.2] at hp
    rw [hkstack.1]
    refine hkeeps.stack _ trivial _ (h.stack p (hp.imp_right (Or.imp_right ?_)))
    rintro ⟨j, hj⟩
    refine ⟨j, ?_⟩
    by_cases hji : j = i
    · subst hji
      rw [hpc]
      cases k <;> simpa [Procs.afterCopy, ProcPc.stacked] using hj
    · rwa [hpc' j hji] at hj
  · intro d' hd'
    by_cases hdd : d' = d
    · rw [hdd]
      exact hd.dir
    · refine (hkeeps.dir d' trivial (h.holder d' ?_)).1
      simpa [Procs.install, hdd] using hd'

theorem freeStacks_spec (pt : Ptable n) (ps : List (Fin n)) : ∀ {vm : Vm} {role : Nat → Role},
    Ok L vm role → ps.Nodup → (∀ p ∈ ps, role (pt p).kstack = .stack p) →
    ∃ vm' role', freeStacks L pt ps vm = .ok vm' ∧ Ok L vm' role' ∧ KeepsDirs vm vm' role role' ∧
      ∀ q (p : Fin n), role q = .stack p → p ∉ ps → role' q = .stack p := by
  induction ps with
  | nil =>
    intro vm role h _ _
    exact ⟨vm, role, rfl, h, .refl _ _, fun q p hq _ => hq⟩
  | cons z ps ih =>
    intro vm role h hnodup hrole
    obtain ⟨hz, hnodup⟩ := List.nodup_cons.mp hnodup
    have hstack := hrole z List.mem_cons_self
    obtain ⟨vm₁, hfree, _, hok, hkeeps⟩ := h.free_loose (p := (pt z).kstack)
      (by rw [hstack]; rfl) (by simp [hstack])
    have hother : ∀ q (p : Fin n), role q = .stack p → p ≠ z →
        Function.update role (pt z).kstack .free q = .stack p := by
      intro q p hq hpz
      rw [Function.update_of_ne, hq]
      rintro rfl
      rw [hstack, Role.stack.injEq] at hq
      exact hpz (Fin.ext hq.symm)
    obtain ⟨vm', role', hrest, hok', hdirs, hstacks⟩ := ih hok hnodup fun p hp =>
      hother _ p (hrole p (List.mem_cons_of_mem _ hp)) (by rintro rfl; exact hz hp)
    refine ⟨vm', role', ?_, hok', ?_, ?_⟩
    · rw [freeStacks, hfree]
      exact hrest
    · refine KeepsDirs.trans (.of_keeps hkeeps ?_) hdirs
      rintro d hd rfl
      simp [hstack] at hd
    · intro q p hq hp
      rw [List.mem_cons, not_or] at hp
      exact hstacks q p (hother q p hq hp.1) hp.2

theorem reapedSlots_freed (pt : Ptable n) (i p : Fin n) (hp : p ∈ reapedSlots pt i) :
    (pt p).state = .zombie ∧ (reapSiblings pt i p).state.phase = .free := by
  simp only [reapedSlots, List.mem_filter, decide_eq_true_eq] at hp
  refine ⟨hp.2.1, ?_⟩
  rw [reapSiblings, if_pos hp.2]
  rfl

theorem Sized.exit (h : Sized L s role) {i : Fin n} (hstacks : s.exitStacks L i = .ok vm)
    (hstep : Procs.PStep s.procs i .exit t) : ∃ role', Sized L ⟨t, vm⟩ role' := by
  have hspawn := pstep_spawning h.spawning hstep
  have hfades := Procs.pstep_fades hstep rfl h.basic
  unfold exitStacks at hstacks
  cases hstep with
  | exitLast hs hpc hi hc =>
    dsimp only at hstacks
    rw [if_pos hc] at hstacks
    have hkstack : ∀ p, (wakeJoiners s.procs.ptable i p).kstack = (s.procs.ptable p).kstack :=
      fun p => (wakeJoiners_alike s.procs.ptable i p).2.2.1
    obtain ⟨vm', role', hfree, hok, hdirs, hkeep⟩ := freeStacks_spec (wakeJoiners s.procs.ptable i)
      (reapedSlots (wakeJoiners s.procs.ptable i) i) h.ok ((List.nodup_finRange n).filter _) (by
        intro p hp
        have hphase := (wakeJoiners_alike s.procs.ptable i p).2.2.2
        rw [(reapedSlots_freed _ i p hp).1] at hphase
        rw [hkstack]
        exact h.stack p (Or.inr (Or.inl hphase.symm)))
    rw [hstacks, Except.ok.injEq] at hfree
    subst hfree
    refine ⟨role', h.fades hspawn hfades hok hdirs fun p hp hrole => hkeep _ p hrole fun hmem => ?_⟩
    exact stacked_phase hspawn hp (reapedSlots_freed _ i p hmem).2
  | exitThread hs hpc hi hc =>
    dsimp only at hstacks
    rw [if_neg hc] at hstacks
    cases hstacks
    exact ⟨role, h.fades hspawn hfades h.ok (.refl _ _) fun _ _ hp => hp⟩
  | waitReap he | waitNone he | waitBlock he => exact absurd he (not_waitEntry (by simp) (by simp))

end Kernel
end Xv6
