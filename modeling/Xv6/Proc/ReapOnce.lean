import Xv6.Proc.GroupExit

namespace Xv6

variable {n : Nat}

def Ledger.HasEnded (l : Ledger n) (v : Int) : Prop := ∃ q, (v, q) ∈ l.ended

def Ledger.WasWaited (l : Ledger n) (v : Int) : Prop := ∃ w, (w, v) ∈ l.waited

def ProcPc.threading : ProcPc n → Bool
  | .spawnInit .thread _ | .spawnCopy .thread _ | .createCount _ | .createLoad _
  | .createPublish _ _ => true
  | _ => false

namespace Groups

def ParentOf (g : Groups n) (l : Ledger n) (p q : Fin n) : Prop :=
  (g.core q).phase = .active ∧
    ((g.core q).pid = (g.core p).forker ∨ q = g.initproc ∧ l.HasEnded (g.core p).forker)

structure Kin (g : Groups n) (l : Ledger n) : Prop where
  init : (g.core g.initproc).phase = .active
  single : ∀ p q, (g.core p).phase ≠ .free → (g.core q).phase ≠ .free →
    (g.core p).pid = (g.core q).pid → p = q
  parent : ∀ p, g.Begun p → p = g.initproc ∨ ∃ q, (g.core p).parent = some q ∧ g.ParentOf l p q
  known : ∀ p, g.Begun p → p = g.initproc ∨ ((g.core p).pid, (g.core p).forker) ∈ l.forked
  root : ∀ x ∈ l.forked, x.1 ≠ (g.core g.initproc).pid
  kept : ∀ c f, (c, f) ∈ l.forked →
    l.WasWaited c ∨ ∃ p, g.Begun p ∧ (g.core p).pid = c ∧ (g.core p).forker = f
  ended : ∀ x ∈ l.ended, ∀ q, (g.core q).phase = .active → (g.core q).pid ≠ x.1
  zombie : ∀ z, (g.core z).phase = .zombie → l.HasEnded (g.core z).pid
  gone : ∀ x ∈ l.waited, x.2 < g.nextpid ∧ ∀ p, (g.core p).phase ≠ .free → (g.core p).pid ≠ x.2
  once : (l.waited.map Prod.snd).Nodup
  fair : ∀ x ∈ l.waited, l.HasEnded x.2 ∧ ∃ f, (x.2, f) ∈ l.forked ∧
    (x.1 = f ∨ x.1 = (g.core g.initproc).pid ∧ l.HasEnded f)

theorem Kin.same {g g' : Groups n} {l : Ledger n} (h : g.Kin l)
    (hphase : ∀ p, (g'.core p).phase = (g.core p).phase)
    (hpid : ∀ p, (g'.core p).pid = (g.core p).pid)
    (hparent : ∀ p, (g'.core p).parent = (g.core p).parent)
    (hforker : ∀ p, (g'.core p).forker = (g.core p).forker) (hnext : g'.nextpid = g.nextpid)
    (hinit : g'.initproc = g.initproc) : g'.Kin l := by
  obtain ⟨h1, h2, h3, h4, h5, h6, h7, h8, h9, h10, h11⟩ := h
  refine ⟨?_, ?_, ?_, ?_, ?_, ?_, ?_, ?_, ?_, h10, ?_⟩ <;>
    simp only [Begun, ParentOf, hphase, hpid, hparent, hforker, hnext, hinit] <;> assumption

theorem Kin.embryonic {g g' : Groups n} {l : Ledger n} (h : g.Kin l) {np : Fin n} {c : Core n}
    (hg : g'.core = Function.update g.core np c) (hold : ¬ g.Begun np)
    (hnew : c.phase = .free ∨ c.phase = .embryo)
    (hsingle : c.phase ≠ .free → ∀ q, q ≠ np → (g.core q).phase ≠ .free → (g.core q).pid ≠ c.pid)
    (hgone : c.phase ≠ .free → ∀ x ∈ l.waited, c.pid ≠ x.2)
    (hnext : g.nextpid ≤ g'.nextpid) (hinit : g'.initproc = g.initproc) : g'.Kin l := by
  have hself : g'.core np = c := by rw [hg, Function.update_self]
  have hother : ∀ q, q ≠ np → g'.core q = g.core q := fun q hq => by
    rw [hg, Function.update_of_ne hq]
  have hbegun : ∀ p, g'.Begun p ↔ g.Begun p := by
    intro p
    by_cases hp : p = np
    · subst hp
      rw [Begun, hself]
      refine ⟨fun hb => ?_, fun hb => absurd hb hold⟩
      rcases hnew with hc | hc <;> simp [hc] at hb
    · rw [Begun, Begun, hother p hp]
  have hcore : ∀ p, g.Begun p → g'.core p = g.core p := by
    intro p hp
    refine hother p ?_
    rintro rfl
    exact hold hp
  have hactive : ∀ q, (g'.core q).phase = .active → g.Begun q := fun q hq =>
    (hbegun q).mp (Or.inl hq)
  refine ⟨?_, ?_, ?_, ?_, ?_, ?_, ?_, ?_, ?_, h.once, ?_⟩
  · rw [hinit, hcore _ (Or.inl h.init)]
    exact h.init
  · intro p q hp hq hpid
    by_cases hpn : p = np <;> by_cases hqn : q = np
    · rw [hpn, hqn]
    · subst hpn
      rw [hself] at hp hpid
      rw [hother q hqn] at hq hpid
      exact absurd hpid.symm (hsingle hp q hqn hq)
    · subst hqn
      rw [hself] at hq hpid
      rw [hother p hpn] at hp hpid
      exact absurd hpid (hsingle hq p hpn hp)
    · rw [hother p hpn] at hp hpid
      rw [hother q hqn] at hq hpid
      exact h.single p q hp hq hpid
  · intro p hp
    have hp := (hbegun p).mp hp
    rw [hinit]
    refine (h.parent p hp).imp_right ?_
    rintro ⟨q, hq, ha, hor⟩
    refine ⟨q, by rw [hcore p hp]; exact hq, ?_⟩
    rw [ParentOf, hcore p hp, hcore q (Or.inl ha), hinit]
    exact ⟨ha, hor⟩
  · intro p hp
    have hp := (hbegun p).mp hp
    rw [hinit, hcore p hp]
    exact h.known p hp
  · rw [hinit, hcore _ (Or.inl h.init)]
    exact h.root
  · intro a f hf
    refine (h.kept a f hf).imp_right ?_
    rintro ⟨p, hp, hpf⟩
    exact ⟨p, (hbegun p).mpr hp, by rw [hcore p hp]; exact hpf⟩
  · intro x hx q hq
    have hb := hactive q hq
    rw [hcore q hb] at hq ⊢
    exact h.ended x hx q hq
  · intro z hz
    have hb := (hbegun z).mp (Or.inr hz)
    rw [hcore z hb] at hz ⊢
    exact h.zombie z hz
  · intro x hx
    refine ⟨(h.gone x hx).1.trans_le hnext, ?_⟩
    intro p hp
    by_cases hpn : p = np
    · subst hpn
      rw [hself] at hp ⊢
      exact hgone hp x hx
    · rw [hother p hpn] at hp ⊢
      exact (h.gone x hx).2 p hp
  · rw [hinit, hcore _ (Or.inl h.init)]
    exact h.fair

theorem Kin.publish {g g' : Groups n} {l : Ledger n} (h : g.Kin l) (he : g.Endings l)
    {i np : Fin n} {c : Core n} (hg : g'.core = Function.update g.core np c)
    (hi : (g.core i).phase = .active) (hnp : (g.core np).phase = .embryo)
    (hphase : c.phase = .active) (hpid : c.pid = (g.core np).pid) (hparent : c.parent = some i)
    (hforker : c.forker = (g.core i).pid) (hnext : g'.nextpid = g.nextpid)
    (hinit : g'.initproc = g.initproc) :
    g'.Kin { l with forked := ((g.core np).pid, (g.core i).pid) :: l.forked } := by
  have hself : g'.core np = c := by rw [hg, Function.update_self]
  have hother : ∀ q, q ≠ np → g'.core q = g.core q := fun q hq => by
    rw [hg, Function.update_of_ne hq]
  have hne : ∀ q, (g.core q).phase ≠ .embryo → q ≠ np := by
    rintro q hq rfl
    exact hq hnp
  have hactive : ∀ q, (g.core q).phase = .active → g'.core q = g.core q := fun q hq =>
    hother q (hne q (by simp [hq]))
  have hused : ∀ q, (g'.core q).phase ≠ .free ↔ (g.core q).phase ≠ .free := by
    intro q
    by_cases hq : q = np
    · subst hq; simp [hself, hphase, hnp]
    · rw [hother q hq]
  have hpids : ∀ q, (g'.core q).pid = (g.core q).pid := by
    intro q
    by_cases hq : q = np
    · subst hq; rw [hself, hpid]
    · rw [hother q hq]
  have hbegun : ∀ p, g'.Begun p → p = np ∨ p ≠ np ∧ g.Begun p := by
    intro p hp
    by_cases hpn : p = np
    · exact Or.inl hpn
    · rw [Begun, hother p hpn] at hp
      exact Or.inr ⟨hpn, hp⟩
  refine ⟨?_, ?_, ?_, ?_, ?_, ?_, ?_, ?_, ?_, h.once, ?_⟩
  · rw [hinit, hactive _ h.init]
    exact h.init
  · intro p q hp hq heq
    rw [hpids, hpids] at heq
    exact h.single p q ((hused p).mp hp) ((hused q).mp hq) heq
  · intro p hp
    rw [hinit]
    rcases hbegun p hp with rfl | ⟨hpn, hp⟩
    · refine Or.inr ⟨i, by rw [hself, hparent], ?_⟩
      rw [ParentOf, hactive i hi, hself]
      exact ⟨hi, Or.inl hforker.symm⟩
    · refine (h.parent p hp).imp_right ?_
      rintro ⟨q, hq, ha, hor⟩
      refine ⟨q, by rw [hother p hpn]; exact hq, ?_⟩
      rw [ParentOf, hother p hpn, hactive q ha, hinit]
      exact ⟨ha, hor⟩
  · intro p hp
    rw [hinit]
    rcases hbegun p hp with rfl | ⟨hpn, hp⟩
    · rw [hself, hpid, hforker]
      exact Or.inr List.mem_cons_self
    · rw [hother p hpn]
      exact (h.known p hp).imp_right (List.mem_cons_of_mem _)
  · intro x hx
    rw [hinit, hpids]
    rcases List.mem_cons.mp hx with rfl | hx
    · intro heq
      exact hne _ (by simp [h.init]) (h.single np _ (by simp [hnp]) (by simp [h.init]) heq).symm
    · exact h.root x hx
  · intro a f hf
    rcases List.mem_cons.mp hf with heq | hf
    · rw [Prod.mk.injEq] at heq
      refine Or.inr ⟨np, Or.inl (by rw [hself, hphase]), ?_, ?_⟩
      · rw [hself, hpid, heq.1]
      · rw [hself, hforker, heq.2]
    · refine (h.kept a f hf).imp_right ?_
      rintro ⟨p, hp, hpf⟩
      have hpn : p ≠ np := hne p (by rcases hp with hp | hp <;> simp [hp])
      refine ⟨p, ?_, ?_⟩
      · rw [Begun, hother p hpn]; exact hp
      · rw [hother p hpn]; exact hpf
  · intro x hx q hq
    by_cases hqn : q = np
    · subst hqn
      rw [hself, hpid]
      exact (he.embryo q hnp x hx).symm
    · rw [hother q hqn] at hq ⊢
      exact h.ended x hx q hq
  · intro z hz
    have hzn : z ≠ np := by
      rintro rfl
      simp [hself, hphase] at hz
    rw [hother z hzn] at hz ⊢
    exact h.zombie z hz
  · intro x hx
    rw [hnext]
    refine ⟨(h.gone x hx).1, ?_⟩
    intro p hp
    rw [hpids]
    exact (h.gone x hx).2 p ((hused p).mp hp)
  · intro x hx
    obtain ⟨hend, f, hf, hor⟩ := h.fair x hx
    rw [hinit, hpids]
    exact ⟨hend, f, List.mem_cons_of_mem _ hf, hor⟩

theorem Kin.die {g g' : Groups n} {l : Ledger n} (h : g.Kin l) {i : Fin n} (hd : Dies g g' i)
    (hi : i ≠ g.initproc) (hforker : ∀ p, (g'.core p).forker = (g.core p).forker)
    (hparent : ∀ p, (g.core p).parent ≠ some i ∧ (g'.core p).parent = (g.core p).parent ∨
      (g.core p).parent = some i ∧ (g'.core p).parent = some g.initproc)
    (hnext : g'.nextpid = g.nextpid) (hinit : g'.initproc = g.initproc) :
    g'.Kin { l with ended := ((g.core i).pid, i) :: l.ended } := by
  obtain ⟨hact, hdead, hphase, hpid, _, _⟩ := hd
  have hused : ∀ q, (g'.core q).phase ≠ .free ↔ (g.core q).phase ≠ .free := by
    intro q
    by_cases hq : q = i
    · subst hq; simp [hact, hdead]
    · rw [hphase q hq]
  have hbegun : ∀ p, g'.Begun p ↔ g.Begun p := by
    intro p
    by_cases hp : p = i
    · subst hp; simp [Begun, hact, hdead]
    · rw [Begun, Begun, hphase p hp]
  have hmono : ∀ v, l.HasEnded v →
      Ledger.HasEnded { l with ended := ((g.core i).pid, i) :: l.ended } v := by
    rintro v ⟨q, hq⟩
    exact ⟨q, List.mem_cons_of_mem _ hq⟩
  have hi' : Ledger.HasEnded { l with ended := ((g.core i).pid, i) :: l.ended } (g.core i).pid :=
    ⟨i, List.mem_cons_self⟩
  have hinitAct : (g'.core g.initproc).phase = .active := by
    rw [hphase _ hi.symm]
    exact h.init
  refine ⟨?_, ?_, ?_, ?_, ?_, ?_, ?_, ?_, ?_, h.once, ?_⟩
  · rw [hinit]; exact hinitAct
  · intro p q hp hq heq
    rw [hpid, hpid] at heq
    exact h.single p q ((hused p).mp hp) ((hused q).mp hq) heq
  · intro p hp
    rw [hinit]
    refine (h.parent p ((hbegun p).mp hp)).imp_right ?_
    rintro ⟨q, hq, ha, hor⟩
    rcases hparent p with ⟨hne, hsame⟩ | ⟨heq, hnew⟩
    · have hqi : q ≠ i := by
        rintro rfl
        exact hne hq
      refine ⟨q, by rw [hsame, hq], ?_⟩
      rw [ParentOf, hphase q hqi, hpid, hforker, hinit]
      exact ⟨ha, hor.imp_right (And.imp_right (hmono _))⟩
    · rw [heq, Option.some.injEq] at hq
      subst hq
      refine ⟨g.initproc, hnew, ?_⟩
      rw [ParentOf, hinitAct, hforker, hinit]
      refine ⟨rfl, Or.inr ⟨rfl, ?_⟩⟩
      rcases hor with hor | ⟨hor, _⟩
      · rw [← hor]; exact hi'
      · exact absurd hor hi
  · intro p hp
    rw [hinit, hpid, hforker]
    exact h.known p ((hbegun p).mp hp)
  · rw [hinit, hpid]
    exact h.root
  · intro a f hf
    refine (h.kept a f hf).imp_right ?_
    rintro ⟨p, hp, hpf⟩
    exact ⟨p, (hbegun p).mpr hp, by rw [hpid, hforker]; exact hpf⟩
  · intro x hx q hq
    have hqi : q ≠ i := by
      rintro rfl
      simp [hdead] at hq
    rw [hphase q hqi] at hq
    rw [hpid]
    rcases List.mem_cons.mp hx with rfl | hx
    · intro heq
      exact hqi (h.single q i (by simp [hq]) (by simp [hact]) heq)
    · exact h.ended x hx q hq
  · intro z hz
    rw [hpid]
    by_cases hzi : z = i
    · rw [hzi]; exact hi'
    · rw [hphase z hzi] at hz
      exact hmono _ (h.zombie z hz)
  · intro x hx
    rw [hnext]
    refine ⟨(h.gone x hx).1, ?_⟩
    intro p hp
    rw [hpid]
    exact (h.gone x hx).2 p ((hused p).mp hp)
  · intro x hx
    obtain ⟨hend, f, hf, hor⟩ := h.fair x hx
    rw [hinit, hpid]
    exact ⟨hmono _ hend, f, hf, hor.imp_right (And.imp_right (hmono _))⟩

theorem Kin.reap {g g' : Groups n} {l : Ledger n} (h : g.Kin l) (hp : g.Pids) {i z : Fin n}
    (hg : g'.core = Function.update g.core z (g.core z).freed)
    (hz : (g.core z).phase = .zombie) (hpar : (g.core z).parent = some i)
    (hnext : g'.nextpid = g.nextpid) (hinit : g'.initproc = g.initproc) :
    g'.Kin { l with waited := ((g.core i).pid, (g.core z).pid) :: l.waited } := by
  have hother : ∀ q, q ≠ z → g'.core q = g.core q := fun q hq => by
    rw [hg, Function.update_of_ne hq]
  have hused : ∀ q, (g'.core q).phase ≠ .free → q ≠ z := by
    rintro q hq rfl
    simp [hg, Core.freed] at hq
  have hne : ∀ q, (g.core q).phase = .active → q ≠ z := by
    rintro q hq rfl
    simp [hq] at hz
  have hzi := (hne _ h.init).symm
  have hwaited : ∀ v, l.WasWaited v →
      Ledger.WasWaited { l with waited := ((g.core i).pid, (g.core z).pid) :: l.waited } v := by
    rintro v ⟨w, hw⟩
    exact ⟨w, List.mem_cons_of_mem _ hw⟩
  have hbegun : ∀ p, g'.Begun p → p ≠ z ∧ g.Begun p := by
    intro p hb
    have hpz : p ≠ z := hused p (by rcases hb with hb | hb <;> simp [hb])
    rw [Begun, hother p hpz] at hb
    exact ⟨hpz, hb⟩
  refine ⟨?_, ?_, ?_, ?_, ?_, ?_, ?_, ?_, ?_, ?_, ?_⟩
  · rw [hinit, hother _ (hne _ h.init)]
    exact h.init
  · intro p q hpu hqu heq
    have hp' := hother p (hused p hpu)
    have hq' := hother q (hused q hqu)
    rw [hp'] at hpu heq
    rw [hq'] at hqu heq
    exact h.single p q hpu hqu heq
  · intro p hb
    obtain ⟨hpz, hb⟩ := hbegun p hb
    rw [hinit]
    refine (h.parent p hb).imp_right ?_
    rintro ⟨q, hq, ha, hor⟩
    refine ⟨q, by rw [hother p hpz]; exact hq, ?_⟩
    rw [ParentOf, hother p hpz, hother q (hne q ha), hinit]
    exact ⟨ha, hor⟩
  · intro p hb
    obtain ⟨hpz, hb⟩ := hbegun p hb
    rw [hinit, hother p hpz]
    exact h.known p hb
  · rw [hinit, hother _ (hne _ h.init)]
    exact h.root
  · intro a f hf
    rcases h.kept a f hf with hw | ⟨p, hb, hpf⟩
    · exact Or.inl (hwaited a hw)
    · by_cases hpz : p = z
      · rw [← hpf.1, hpz]
        exact Or.inl ⟨_, List.mem_cons_self⟩
      · refine Or.inr ⟨p, ?_, ?_⟩
        · rw [Begun, hother p hpz]; exact hb
        · rw [hother p hpz]; exact hpf
  · intro x hx q hq
    have hq' := hother q (hused q (by simp [hq]))
    rw [hq'] at hq ⊢
    exact h.ended x hx q hq
  · intro z' hz'
    have hcore := hother z' (hused z' (by simp [hz']))
    rw [hcore] at hz' ⊢
    exact h.zombie z' hz'
  · intro x hx
    rw [hnext]
    rcases List.mem_cons.mp hx with rfl | hx
    · refine ⟨hp.below z (by simp [hz]), ?_⟩
      intro p hpu
      have hpz := hused p hpu
      rw [hother p hpz] at hpu ⊢
      intro heq
      exact hpz (h.single p z hpu (by simp [hz]) heq)
    · refine ⟨(h.gone x hx).1, ?_⟩
      intro p hpu
      have hp' := hother p (hused p hpu)
      rw [hp'] at hpu ⊢
      exact (h.gone x hx).2 p hpu
  · rw [List.map_cons, List.nodup_cons]
    refine ⟨?_, h.once⟩
    intro hmem
    obtain ⟨x, hx, heq⟩ := List.mem_map.mp hmem
    exact (h.gone x hx).2 z (by simp [hz]) heq.symm
  · intro x hx
    rw [hinit, hother _ (hne _ h.init)]
    rcases List.mem_cons.mp hx with rfl | hx
    · refine ⟨h.zombie z hz, (g.core z).forker, (h.known z (Or.inr hz)).resolve_left hzi, ?_⟩
      obtain ⟨q, hq, _, hor⟩ := (h.parent z (Or.inr hz)).resolve_left hzi
      rw [hpar, Option.some.injEq] at hq
      subst hq
      rcases hor with hor | ⟨rfl, hend⟩
      · exact Or.inl hor
      · exact Or.inr ⟨rfl, hend⟩
    · exact h.fair x hx

theorem Kin.sweep_id {g : Groups n} {l : Ledger n} (h : g.Kin l) {i : Fin n}
    (hi : (g.core i).phase = .active) : g.sweep i = g.core := by
  funext p
  rw [sweep, if_neg]
  rintro ⟨hz, hpid, _⟩
  obtain rfl := h.single p i (by simp [hz]) (by simp [hi]) hpid
  simp [hi] at hz

theorem adopted_parent_cases (c : Core n) (i initproc : Fin n) :
    c.parent ≠ some i ∧ (c.adopted i initproc).parent = c.parent ∨
      c.parent = some i ∧ (c.adopted i initproc).parent = some initproc := by
  unfold Core.adopted
  split
  · rename_i heq
    exact Or.inr ⟨heq, rfl⟩
  · rename_i hne
    exact Or.inl ⟨hne, rfl⟩

theorem kin_step {g g' : Groups n} {l : Ledger n} {i : Fin n} {a : GroupOp n} (h : g.Kin l)
    (hs : g.Spawning) (hp : g.Pids) (he : g.Endings l)
    (hnext : a = .spawn → g.nextpid < 2 ^ 31 - 1) (hfork : (g.pc i).threading = false)
    (hk : GStep g i a g') : g'.Kin (g.record i l a) := by
  cases hk with
  | idle | count | load | build | abort =>
    exact h.same (fun _ => rfl) (fun _ => rfl) (fun _ => rfl) (fun _ => rfl) rfl rfl
  | @prepare k np hi hpc =>
    refine h.same ?_ ?_ ?_ ?_ rfl rfl <;> intro p <;> by_cases hpn : p = np
    all_goals first | (subst hpn; simp) | simp [hpn]
  | @copy k np d hi hpc hd =>
    refine h.same ?_ ?_ ?_ ?_ rfl rfl <;> intro p <;> by_cases hpn : p = np
    all_goals first | (subst hpn; simp) | simp [hpn]
  | commit hi hpc =>
    refine h.same ?_ ?_ ?_ ?_ rfl rfl <;> intro p <;> by_cases hpi : p = i
    all_goals first | (subst hpi; simp) | simp [hpi]
  | reap hi hpc hz hpar => exact h.reap hp rfl hz hpar rfl rfl
  | @spawn k np hi hpc hnp =>
    have hsucc := int32_succ hp.pos.le (hnext rfl)
    refine h.embryonic rfl (by simp [Begun, hnp]) (Or.inr rfl) ?_ ?_ ?_ rfl
    · intro _ q _ hq
      exact (hp.below q hq).ne
    · intro _ x hx
      exact (h.gone x hx).1.ne'
    · simp only [setPc, setCore, hsucc]
      omega
  | @discard k np d hi hpc =>
    have hembryo := (hs.slot i np (by rcases hpc with hpc | hpc <;> simp [hpc, ProcPc.spawning])).2
    exact h.embryonic rfl (by simp [Begun, hembryo]) (Or.inl rfl) (by simp) (by simp) le_rfl rfl
  | @publishFork np hi hpc =>
    have hembryo := (hs.slot i np (by simp [hpc, ProcPc.spawning])).2
    simp only [record, hpc]
    exact h.publish he rfl hi hembryo rfl rfl rfl rfl rfl rfl
  | publishThread hi hpc => simp [hpc, ProcPc.threading] at hfork
  | exitLast hi hpc hinit halone =>
    refine h.same ?_ ?_ ?_ ?_ rfl rfl <;> intro p <;> simp only [setPc, h.sweep_id hi]
  | exitThread hi hpc hinit hq =>
    obtain ⟨hne, hpid, hphase⟩ := hq
    exact absurd (h.single _ i (by rcases hphase with hq | hq <;> simp [hq]) (by simp [hi]) hpid) hne
  | newExit hi hpc hinit =>
    refine h.die (.newExit hi) hinit ?_ ?_ rfl rfl <;> intro p <;> by_cases hpi : p = i
    · subst hpi; simp
    · simp [hpi]
    · subst hpi; simpa using adopted_parent_cases _ _ _
    · simpa [hpi] using adopted_parent_cases _ _ _

end Groups

namespace Procs

theorem threading_step {s t : Procs n} {i : Fin n} {op : ProcOp} (h : PStep s i op t)
    (hop : op ≠ .spawn .thread) (hs : ∀ j, (s.pc j).threading = false) (j : Fin n) :
    (t.pc j).threading = false := by
  have hset : ∀ (x : ProcPc n), x.threading = false →
      (Function.update s.pc i x j).threading = false := by
    intro x hx
    by_cases hj : j = i
    · subst hj; simpa using hx
    · simpa [hj] using hs j
  have hi := hs i
  cases h with
  | resume | yield | exitThread | newExit => exact hs j
  | waitReap he | waitNone he | waitBlock he =>
    obtain ⟨_, _, _, hb⟩ := waitEntry_active he
    rw [hb]
    exact hset _ rfl
  | @spawn k => cases k with
    | fork => exact hset _ rfl
    | thread => exact absurd rfl hop
  | @init k np kstack _ hpc =>
    cases k with
    | fork => exact hset _ rfl
    | thread => simp [hpc, ProcPc.threading] at hi
  | @copy k np pgdir _ hpc =>
    cases k with
    | fork => exact hset _ rfl
    | thread => simp [hpc, ProcPc.threading] at hi
  | @forkPublish np =>
    change (Function.update (Function.update s.pc np .user) i
      (.forkClear np (s.ptable np).pid) j).threading = false
    by_cases hj : j = i
    · subst hj; simp [ProcPc.threading]
    · rw [Function.update_of_ne hj]
      by_cases hjn : j = np
      · subst hjn; simp [ProcPc.threading]
      · simpa [hjn] using hs j
  | createCount _ hpc | createLoad _ hpc => simp [hpc, ProcPc.threading] at hi
  | createPublish _ hpc => simp [hpc, ProcPc.threading] at hi
  | _ => exact hset _ rfl

theorem createPublish_threading {s t : Procs n} {i : Fin n} (h : PStep s i .createPublish t) :
    (s.pc i).threading = true := by
  cases h with
  | createPublish hs hpc => simp [hpc, ProcPc.threading]
  | waitReap he | waitNone he | waitBlock he =>
    rcases he with ⟨hop, _⟩ | ⟨hop, _⟩ <;> cases hop

end Procs

namespace History

structure Kinship (h : History n) : Prop where
  accounted : h.Accounted
  kin : h.procs.groups.Kin h.ledger
  forks : ∀ j, (h.procs.pc j).threading = false

theorem boot_kinship {h : History n} (hb : h.Boot) : h.Kinship := by
  have hbegun : ∀ p, (h.procs.groups.core p).phase ≠ .free → p = h.procs.initproc := by
    intro p hp
    by_contra hne
    refine hp ?_
    change (h.procs.ptable p).state.phase = _
    rw [hb.procs.others p hne]
    rfl
  have hinit : (h.procs.groups.core h.procs.initproc).phase = .active := by
    change (h.procs.ptable h.procs.initproc).state.phase = _
    rw [hb.procs.init]
    rfl
  have hfirst : ∀ p, h.procs.groups.Begun p → p = h.procs.groups.initproc := by
    intro p hp
    exact hbegun p (by rcases hp with hp | hp <;> simp [hp])
  refine ⟨boot_accounted hb, ⟨hinit, ?_, ?_, ?_, ?_, ?_, ?_, ?_, ?_, ?_, ?_⟩, ?_⟩
  · intro p q hp hq _
    rw [hbegun p hp, hbegun q hq]
  · exact fun p hp => Or.inl (hfirst p hp)
  · exact fun p hp => Or.inl (hfirst p hp)
  · simp [hb.ledger, Ledger.empty]
  · simp [hb.ledger, Ledger.empty]
  · simp [hb.ledger, Ledger.empty]
  · intro z hz
    obtain rfl := hfirst z (Or.inr hz)
    exact absurd (hinit.symm.trans hz) (by simp)
  · simp [hb.ledger, Ledger.empty]
  · simp [hb.ledger, Ledger.empty]
  · simp [hb.ledger, Ledger.empty]
  · simp [hb.procs.pc, ProcPc.threading]

def SingleThreaded (e : Fin n × ProcOp) : Prop := e.2 ≠ .spawn .thread

instance (e : Fin n × ProcOp) : Decidable (SingleThreaded e) := by
  unfold SingleThreaded; infer_instance

theorem kinship_step {h t : History n} {e : Fin n × ProcOp} (hi : h.Kinship)
    (hone : SingleThreaded e) (hpid : h.UniquePid e) (hs : h.step e = some t) : t.Kinship := by
  have hp := step_procs hs
  have hk := Procs.pstep_groupOp hp
  have hspawn := hpid.spawn hs
  have htid : h.UniqueThreadId e := by
    intro hop
    rw [hop] at hp
    have := Procs.createPublish_threading hp
    simp [hi.forks] at this
  refine ⟨accounted_step hi.accounted hpid htid hs, ?_, Procs.threading_step hp hone hi.forks⟩
  rw [step_ledger hs]
  exact Groups.kin_step hi.kin hi.accounted.spawning hi.accounted.pids hi.accounted.endings hspawn
    (hi.forks e.1) hk

structure ReapedOnce (h : History n) : Prop where
  once : (h.ledger.waited.map Prod.snd).Nodup
  exited : ∀ x ∈ h.ledger.waited, h.ledger.HasEnded x.2
  owner : ∀ x ∈ h.ledger.waited, ∃ f, (x.2, f) ∈ h.ledger.forked ∧
    (x.1 = f ∨ x.1 = (h.procs.ptable h.procs.initproc).pid ∧ h.ledger.HasEnded f)
  adopted : ∀ p f, (h.procs.ptable p).state ≠ .unused → (h.procs.ptable p).state ≠ .embryo →
    ((h.procs.ptable p).pid, f) ∈ h.ledger.forked → h.ledger.HasEnded f →
      (h.procs.ptable p).parent = some h.procs.initproc

def WaitHonest (h : History n) (e : Fin n × ProcOp) : Prop :=
  ∀ t, h.step e = some t → h.procs.Scans e → t.procs.pc e.1 = .user → t.procs.eax e.1 = -1 →
    (h.procs.ptable e.1).killed = false → ∀ x ∈ h.ledger.forked,
      x.2 = (h.procs.ptable e.1).pid ∨ e.1 = h.procs.initproc ∧ h.ledger.HasEnded x.2 →
        h.ledger.WasWaited x.1

theorem Kinship.forker {h : History n} (hi : h.Kinship) {x : Int × Int}
    (hx : x ∈ h.ledger.forked) (hw : ¬ h.ledger.WasWaited x.1) :
    ∃ p q, h.procs.groups.Begun p ∧ (h.procs.ptable p).pid = x.1 ∧
      (h.procs.ptable p).parent = some q ∧ (h.procs.groups.core q).phase = .active ∧
      ((h.procs.ptable q).pid = x.2 ∨ q = h.procs.initproc ∧ h.ledger.HasEnded x.2) := by
  obtain ⟨p, hp, hpid, hfork⟩ := (hi.kin.kept x.1 x.2 hx).resolve_left hw
  have hpi : p ≠ h.procs.groups.initproc := by
    rintro rfl
    exact hi.kin.root x hx hpid.symm
  obtain ⟨q, hq, ha, hor⟩ := (hi.kin.parent p hp).resolve_left hpi
  rw [hfork] at hor
  exact ⟨p, q, hp, hpid, hq, ha, hor⟩

theorem Kinship.reapedOnce {h : History n} (hi : h.Kinship) : h.ReapedOnce where
  once := hi.kin.once
  exited x hx := (hi.kin.fair x hx).1
  owner x hx := (hi.kin.fair x hx).2
  adopted p f hu he hf hend := by
    have hp : h.procs.groups.Begun p := begun_state.mpr ⟨hu, he⟩
    have hused : ∀ q, h.procs.groups.Begun q → (h.procs.groups.core q).phase ≠ .free := by
      intro q hq
      rcases hq with hq | hq <;> simp [hq]
    have hnot : ¬ h.ledger.WasWaited (h.procs.ptable p).pid := by
      rintro ⟨w, hw⟩
      exact (hi.kin.gone _ hw).2 p (hused p hp) rfl
    obtain ⟨r, q, hr, hpid, hq, ha, hor⟩ := hi.forker hf hnot
    obtain rfl := hi.kin.single r p (hused r hr) (hused p hp) hpid
    rcases hor with hor | ⟨rfl, _⟩
    · obtain ⟨z, hz⟩ := hend
      exact absurd hor (hi.kin.ended _ hz q ha)
    · exact hq

theorem waitEntry_killed {s b : Procs n} {i : Fin n} {op : ProcOp} (he : s.WaitEntry i op b) :
    (b.ptable i).killed = (s.ptable i).killed ∧
      ∀ p, (b.ptable p).parent = (s.ptable p).parent ∧ (b.ptable p).pid = (s.ptable p).pid := by
  rcases he with ⟨_, _, _, rfl⟩ | ⟨_, _, _, rfl⟩
  · exact ⟨rfl, fun p => ⟨rfl, rfl⟩⟩
  · refine ⟨by simp [Procs.awake], fun p => ?_⟩
    by_cases hp : p = i
    · subst hp; simp [Procs.awake]
    · simp [Procs.awake, hp]

theorem scan_fails {s t : Procs n} {i : Fin n} {op : ProcOp} (h : Procs.PStep s i op t)
    (hscan : s.Scans (i, op)) (hpos : ∀ z, (s.ptable z).state = .zombie → 0 < (s.ptable z).pid)
    (hpc : t.pc i = .user) (heax : t.eax i = -1) (hkill : (s.ptable i).killed = false) :
    (s.groups.core i).phase = .active ∧ ∀ p, (s.ptable p).parent ≠ some i := by
  cases h with
  | @waitReap _ b z he hz =>
    obtain ⟨_, hsame⟩ := waitEntry_killed he
    have hzombie := (Procs.reaps_child ⟨b, he, hz⟩).2.2
    have := hpos z hzombie
    simp [(hsame z).2] at heax
    omega
  | waitNone he hz hk =>
    obtain ⟨hk', hsame⟩ := waitEntry_killed he
    refine ⟨(Procs.waitEntry_active he).1, ?_⟩
    rw [hk', hkill] at hk
    intro p
    rw [← (hsame p).1]
    exact (hk.resolve_right (by simp)) p
  | waitBlock he hz hk => simp at hpc
  | resume hs hw hj =>
    rcases hscan with hop | ⟨_, hpc'⟩
    · cases hop
    · exact absurd hpc' hw
  | joinReturn hs hpc' =>
    rcases hscan with hop | ⟨_, hpc''⟩
    · cases hop
    · rw [hpc'] at hpc''
      cases hpc''
  | _ =>
    rcases hscan with hop | ⟨hop, _⟩ <;> cases hop

theorem Kinship.waitHonest {h : History n} (hi : h.Kinship) (e : Fin n × ProcOp) :
    h.WaitHonest e := by
  intro t hs hscan hpc heax hkill x hx hchild
  have hpos : ∀ z, (h.procs.ptable z).state = .zombie → 0 < (h.procs.ptable z).pid := by
    intro z hz
    exact hi.accounted.endings.pos z (by rw [phase_zombie.mpr hz]; simp)
  obtain ⟨hact, hnone⟩ := scan_fails (step_procs hs) hscan hpos hpc heax hkill
  by_contra hw
  obtain ⟨p, q, _, _, hq, ha, hor⟩ := hi.forker hx hw
  have hended : ∀ r, (h.procs.groups.core r).phase = .active → h.ledger.HasEnded x.2 →
      (h.procs.ptable r).pid ≠ x.2 := by
    rintro r hr ⟨z, hz⟩
    exact hi.kin.ended _ hz r hr
  have hqi : q = e.1 := by
    rcases hor with hor | ⟨hq, hend⟩
    · rcases hchild with hc | ⟨_, hend⟩
      · exact hi.kin.single q e.1 (by simp [ha]) (by simp [hact]) (hor.trans hc)
      · exact absurd hor (hended q ha hend)
    · rcases hchild with hc | ⟨hc, _⟩
      · exact absurd hc.symm (hended e.1 hact hend)
      · exact hq.trans hc.symm
  exact hnone p (hqi ▸ hq)

theorem children_reaped_once {h : History n} {es : List (Fin n × ProcOp)} (hb : h.Boot)
    (hone : ∀ e ∈ es, SingleThreaded e) (hc : GuardedRun.along step UniquePid h es) :
    (∀ t, h.run es = some t → t.ReapedOnce) ∧ GuardedRun.along step WaitHonest h es := by
  have hcond := GuardedRun.along_and (GuardedRun.along_of_forall (fun e he _ => hone e he) h) hc
  have hstep : ∀ (s : History n) e t, s.Kinship → SingleThreaded e ∧ s.UniquePid e →
      s.step e = some t → t.Kinship := fun s e t hs hc => kinship_step hs hc.1 hc.2
  refine ⟨fun t ht => (GuardedRun.run_invariant hstep (boot_kinship hb) hcond ht).reapedOnce, ?_⟩
  exact GuardedRun.along_of_invariant hstep (fun s e hs _ => hs.waitHonest e) (boot_kinship hb) hcond

def minusOneExits : List (Fin nproc × ProcOp) :=
  Procs.forkOps 0 2 5 6 ++ [(2, .exit), (2, .newExit)]

theorem failedForks_single (i : Fin n) (m : Nat) : ∀ e ∈ failedForks i m, SingleThreaded e := by
  intro e he
  obtain ⟨es, hes, he⟩ := List.mem_flatten.mp he
  rw [List.eq_of_mem_replicate hes] at he
  rcases List.mem_cons.mp he with rfl | he
  · simp [SingleThreaded]
  · rw [List.mem_singleton.mp he]
    simp [SingleThreaded]

-- nextpid wraps: after 2^32 - 4 forks that fail for want of memory a child gets pid -1, and the wait
-- that reaps it returns -1 while the first child is still running.
theorem wait_fails_with_child :
    ∃ t, (userinit (0 : Fin nproc) 1 2).Boot ∧
      (∀ e ∈ (0, .schedule) :: Procs.forkOps (0 : Fin nproc) 1 3 4 ++ failedForks 0 4294967292 ++
        minusOneExits, SingleThreaded e) ∧
      (userinit (0 : Fin nproc) 1 2).run ((0, .schedule) :: Procs.forkOps 0 1 3 4 ++
        failedForks 0 4294967292 ++ minusOneExits) = some t ∧
      (t.procs.ptable 1).state = .running ∧ (t.procs.ptable 1).parent = some 0 ∧
      ¬ t.WaitHonest (0, .wait) := by
  have hburnt := oneChild_burnt (v := -2) (k := 4294967292) (m := 4294967291) (by norm_num)
    (by norm_num [int32, Int.bmod])
  have hrest : ∃ t, (oneChild.burnt 0 2 (-2) 4294967292).run minusOneExits = some t ∧
      (t.procs.ptable 1).state = .running ∧ (t.procs.ptable 1).parent = some 0 ∧
      (t.procs.ptable 0).killed = false ∧ (t.procs.ptable 0).pid = 1 ∧
      (2, 1) ∈ t.ledger.forked ∧ t.ledger.waited = [] ∧
      (GuardedRun.run step t [(0, .wait)]).any
        (fun u => decide (u.procs.pc 0 = .user ∧ u.procs.eax 0 = -1)) = true :=
    GuardedRun.exists_of_any (by decide +kernel)
  obtain ⟨t, hrun, hstate, hparent, hkill, hpid, hfork, hwaited, hstep⟩ := hrest
  obtain ⟨u, hu, hpc, heax⟩ := GuardedRun.exists_of_any hstep
  obtain ⟨v, hv, hvu⟩ := (GuardedRun.run_cons step).mp hu
  rw [GuardedRun.run_nil, Option.some.injEq] at hvu
  subst hvu
  refine ⟨t, userinit_boot 0 1 (by decide), ?_, (GuardedRun.run_append step).mpr ⟨_, hburnt, hrun⟩,
    hstate, hparent, ?_⟩
  · intro e he
    rcases List.mem_append.mp he with he | he
    · rcases List.mem_append.mp he with he | he
      · exact (by decide : ∀ e ∈ (0, .schedule) :: Procs.forkOps (0 : Fin nproc) 1 3 4,
          SingleThreaded e) e he
      · exact failedForks_single _ _ e he
    · exact (by decide : ∀ e ∈ minusOneExits, SingleThreaded e) e he
  · intro hhonest
    obtain ⟨w, hw⟩ := hhonest v hv (Or.inl rfl) hpc heax hkill (2, 1) hfork (Or.inl hpid.symm)
    rw [hwaited] at hw
    cases hw

def childExits : List (Fin nproc × ProcOp) :=
  (0, .schedule) :: Procs.forkOps 0 1 3 4 ++ [(1, .exit), (1, .newExit), (0, .wait)]

theorem children_reaped_once_child :
    ∃ t, (userinit (0 : Fin nproc) 1 2).run childExits = some t ∧ t.ledger.waited = [(1, 2)] ∧
      t.ReapedOnce := by
  have hrun : ∃ t, (userinit (0 : Fin nproc) 1 2).run childExits = some t ∧
      t.ledger.waited = [(1, 2)] := GuardedRun.exists_of_any (by decide +kernel)
  have hes : GuardedRun.along step UniquePid (userinit (0 : Fin nproc) 1 2) childExits :=
    GuardedRun.along_of_checks (by decide +kernel)
  obtain ⟨t, hrun, hwaited⟩ := hrun
  exact ⟨t, hrun, hwaited,
    (children_reaped_once (userinit_boot 0 1 (by decide)) (by decide) hes).1 t hrun⟩

end History
end Xv6
