import Xv6.Proc.History

namespace Xv6

variable {n : Nat}

namespace Groups

theorem Distinct.frame {g g' : Groups n} (h : g.Distinct)
    (hbegun : ∀ p, g'.Begun p → g.Begun p ∧ (g'.core p).pid = (g.core p).pid ∧
      (g'.core p).threadId = (g.core p).threadId) : g'.Distinct := by
  intro p q hp hq hne hpid
  obtain ⟨hbp, hpp, htp⟩ := hbegun p hp
  obtain ⟨hbq, hpq, htq⟩ := hbegun q hq
  rw [htp, htq]
  exact h p q hbp hbq hne (by rw [← hpp, ← hpq]; exact hpid)

theorem Distinct.update {g g' : Groups n} (h : g.Distinct) {p : Fin n} {c : Core n}
    (hg : g'.core = Function.update g.core p c)
    (hc : c.phase = .active ∨ c.phase = .zombie →
      g.Begun p ∧ c.pid = (g.core p).pid ∧ c.threadId = (g.core p).threadId) : g'.Distinct := by
  refine h.frame ?_
  intro q hq
  rw [Begun, hg] at hq
  rw [hg]
  by_cases hqp : q = p
  · subst hqp
    rw [Function.update_self] at hq ⊢
    exact hc hq
  · rw [Function.update_of_ne hqp] at hq ⊢
    exact ⟨hq, rfl, rfl⟩

theorem Distinct.publish {g g' : Groups n} (h : g.Distinct) {np : Fin n} {c : Core n}
    (hg : g'.core = Function.update g.core np c)
    (hnew : ∀ q, q ≠ np → g.Begun q → (g.core q).pid = c.pid → (g.core q).threadId ≠ c.threadId) :
    g'.Distinct := by
  have hbegun : ∀ p, p ≠ np → g'.Begun p → g.Begun p := by
    intro p hp hb
    rwa [Begun, hg, Function.update_of_ne hp] at hb
  intro p q hp hq hne hpid
  rw [hg] at hpid ⊢
  by_cases hpn : p = np
  · subst hpn
    rw [Function.update_self, Function.update_of_ne hne.symm] at *
    exact (hnew q hne.symm (hbegun q hne.symm hq) hpid.symm).symm
  · rw [Function.update_of_ne hpn] at hpid ⊢
    by_cases hqn : q = np
    · subst hqn
      rw [Function.update_self] at hpid ⊢
      exact hnew p hpn (hbegun p hpn hp) hpid
    · rw [Function.update_of_ne hqn] at hpid ⊢
      exact h p q (hbegun p hpn hp) (hbegun q hqn hq) hne hpid

theorem distinct_step {g g' : Groups n} {i : Fin n} {a : GroupOp n} (h : g.Distinct)
    (hs : g.Spawning) (hp : g.Pids)
    (hc : a = .publishThread → ∀ q, g.Begun q → (g.core q).pid = (g.core i).pid →
      (g.core q).threadId ≠ g.nextThread) (hk : GStep g i a g') : g'.Distinct := by
  cases hk with
  | idle | count | load | build | abort => exact h.frame (fun p hp => ⟨hp, rfl, rfl⟩)
  | reap | spawn | discard => exact h.update rfl (by simp [Core.freed])
  | @prepare k np hi hpc =>
    have hembryo := (hs.slot i np (by simp [hpc, ProcPc.spawning])).2
    exact h.update rfl (by simp [hembryo])
  | @copy k np d hi hpc hd =>
    have hembryo := (hs.slot i np (by simp [hpc, ProcPc.spawning])).2
    exact h.update rfl (by simp [hembryo])
  | commit => exact h.update rfl (fun hc => ⟨hc, rfl, rfl⟩)
  | @publishFork np hi hpc =>
    have hembryo := (hs.slot i np (by simp [hpc, ProcPc.spawning])).2
    refine h.publish rfl ?_
    intro q hq hb hpid
    refine absurd hpid (hp.fresh np q hembryo ?_ hq)
    rcases hb with hb | hb <;> simp [hb]
  | @publishThread np parent hi hpc =>
    refine h.publish rfl ?_
    intro q hq hb hpid
    exact hc rfl q hb hpid
  | exitLast hi hpc hinit halone =>
    refine h.frame ?_
    intro p hp
    have hkept : g.sweep i p = g.core p := by
      apply sweep_kept
      rcases hp with hp | hp <;> simp_all
    simp only [Begun, setPc, hkept] at hp ⊢
    exact ⟨hp, trivial, trivial⟩
  | exitThread hi => exact h.update rfl (fun _ => ⟨Or.inl hi, rfl, rfl⟩)
  | newExit hi =>
    refine h.frame ?_
    intro p hp
    by_cases hpi : p = i
    · subst hpi
      exact ⟨Or.inl hi, by simp, by simp⟩
    · simpa [Begun, hpi] using hp

structure Endings (g : Groups n) (l : Ledger n) : Prop where
  last : ∀ z, (g.core z).phase = .zombie →
    (∀ q, (g.core q).phase = .active → (g.core q).pid ≠ (g.core z).pid) →
      l.last (g.core z).pid = some z
  pos : ∀ p, (g.core p).phase ≠ .free → 0 < (g.core p).pid
  ended : ∀ x ∈ l.ended, 0 < x.1 ∧ x.1 < g.nextpid
  embryo : ∀ p, (g.core p).phase = .embryo → ∀ x ∈ l.ended, x.1 ≠ (g.core p).pid
  below : ∀ p, (g.core p).phase = .free → (g.core p).pid < g.nextpid
  stale : ∀ p, (g.core p).phase = .free → (g.core p).pid = 0 ∨
    (∀ q, (g.core q).phase ≠ .free → (g.core q).pid ≠ (g.core p).pid) ∧
      ∀ x ∈ l.ended, x.1 ≠ (g.core p).pid

theorem Endings.same {g g' : Groups n} {l : Ledger n} (h : g.Endings l)
    (hphase : ∀ p, (g'.core p).phase = (g.core p).phase)
    (hpid : ∀ p, (g'.core p).pid = (g.core p).pid) (hnext : g'.nextpid = g.nextpid) :
    g'.Endings l := by
  obtain ⟨h1, h2, h3, h4, h5, h6⟩ := h
  constructor <;> simp only [hphase, hpid, hnext] <;> assumption

theorem Endings.update {g g' : Groups n} {l : Ledger n} (h : g.Endings l) (hpos : 0 < g.nextpid)
    {p : Fin n} {c : Core n} (hg : g'.core = Function.update g.core p c)
    (hnext : g.nextpid ≤ g'.nextpid) (hp : (g.core p).phase ≠ .active) (hz : c.phase ≠ .zombie)
    (hnew : c.phase ≠ .free →
      c.pid = g.nextpid ∨ ∃ q, (g.core q).phase ≠ .free ∧ c.pid = (g.core q).pid)
    (hembryo : c.phase = .embryo → ∀ x ∈ l.ended, x.1 ≠ c.pid)
    (hbelow : c.phase = .free → c.pid < g'.nextpid)
    (hfree : c.phase = .free → c.pid = 0 ∨
      (∀ q, q ≠ p → (g.core q).phase ≠ .free → (g.core q).pid ≠ c.pid) ∧
        ∀ x ∈ l.ended, x.1 ≠ c.pid) : g'.Endings l := by
  have hother : ∀ q, q ≠ p → g'.core q = g.core q := fun q hq => by
    rw [hg, Function.update_of_ne hq]
  have hself : g'.core p = c := by rw [hg, Function.update_self]
  refine ⟨?_, ?_, ?_, ?_, ?_, ?_⟩
  · intro z hzz hnone
    have hzp : z ≠ p := by
      rintro rfl
      exact hz (hself ▸ hzz)
    rw [hother z hzp] at hzz hnone ⊢
    refine h.last z hzz ?_
    intro q hq
    have hqp : q ≠ p := by
      rintro rfl
      exact hp hq
    have := hnone q (by rw [hother q hqp]; exact hq)
    rwa [hother q hqp] at this
  · intro q hq
    by_cases hqp : q = p
    · subst hqp
      rw [hself] at hq ⊢
      rcases hnew hq with hn | ⟨r, hr, hn⟩
      · rw [hn]; exact hpos
      · rw [hn]; exact h.pos r hr
    · rw [hother q hqp] at hq ⊢
      exact h.pos q hq
  · intro x hx
    have := h.ended x hx
    omega
  · intro q hq x hx
    by_cases hqp : q = p
    · subst hqp
      rw [hself] at hq ⊢
      exact hembryo hq x hx
    · rw [hother q hqp] at hq ⊢
      exact h.embryo q hq x hx
  · intro q hq
    by_cases hqp : q = p
    · subst hqp
      rw [hself] at hq ⊢
      exact hbelow hq
    · rw [hother q hqp] at hq ⊢
      have := h.below q hq
      omega
  · intro q hq
    by_cases hqp : q = p
    · subst hqp
      rw [hself] at hq ⊢
      refine (hfree hq).imp_right ?_
      rintro ⟨hnone, hend⟩
      refine ⟨?_, hend⟩
      intro r hr
      have hrq : r ≠ q := by
        rintro rfl
        exact hr (hself ▸ hq)
      rw [hother r hrq] at hr ⊢
      exact hnone r hrq hr
    · rw [hother q hqp] at hq ⊢
      have hbq := h.below q hq
      refine (h.stale q hq).imp_right ?_
      rintro ⟨hnone, hend⟩
      refine ⟨?_, hend⟩
      intro r hr
      by_cases hrp : r = p
      · subst hrp
        rw [hself] at hr ⊢
        rcases hnew hr with hn | ⟨m, hm, hn⟩
        · omega
        · rw [hn]; exact hnone m hm
      · rw [hother r hrp] at hr ⊢
        exact hnone r hr

theorem Endings.die {g g' : Groups n} {l : Ledger n} {i : Fin n} (h : g.Endings l) (hp : g.Pids)
    (hd : Dies g g' i) (hnext : g'.nextpid = g.nextpid)
    (hcase : (∃ q, q ≠ i ∧ (g.core q).phase = .active ∧ (g.core q).pid = (g.core i).pid) ∨
      ∀ q, q ≠ i → g.Begun q → (g.core q).pid ≠ (g.core i).pid) :
    g'.Endings { l with ended := ((g.core i).pid, i) :: l.ended } := by
  obtain ⟨hi, hi', hphase, hpid, _, _⟩ := hd
  have hfree : ∀ q, (g'.core q).phase ≠ .free ↔ (g.core q).phase ≠ .free := by
    intro q
    by_cases hqi : q = i
    · subst hqi; simp [hi, hi']
    · rw [hphase q hqi]
  have hne : ∀ q, (g'.core q).phase ≠ .zombie → (g'.core q).phase ≠ .active → q ≠ i := by
    rintro q hq _ rfl
    exact hq hi'
  refine ⟨?_, ?_, ?_, ?_, ?_, ?_⟩
  · intro z hz hnone
    rw [hpid, Ledger.last_cons]
    by_cases hzi : z = i
    · simp [hzi]
    · rw [hphase z hzi] at hz
      have hactive : ∀ q, q ≠ i → (g.core q).phase = .active → (g.core q).pid ≠ (g.core z).pid := by
        intro q hqi hq
        have := hnone q (by rw [hphase q hqi]; exact hq)
        rwa [hpid, hpid] at this
      have hiz : (g.core i).pid ≠ (g.core z).pid := by
        rcases hcase with ⟨q, hqi, hq, hqp⟩ | hlast
        · rw [← hqp]
          exact hactive q hqi hq
        · exact (hlast z hzi (Or.inr hz)).symm
      rw [if_neg hiz]
      refine h.last z hz ?_
      intro q hq
      by_cases hqi : q = i
      · rw [hqi]; exact hiz
      · exact hactive q hqi hq
  · intro q hq
    rw [hpid]
    exact h.pos q ((hfree q).mp hq)
  · intro x hx
    rw [hnext]
    rcases List.mem_cons.mp hx with rfl | hx
    · exact ⟨h.pos i (by simp [hi]), hp.below i (by simp [hi])⟩
    · exact h.ended x hx
  · intro q hq x hx
    have hqi := hne q (by simp [hq]) (by simp [hq])
    rw [hphase q hqi] at hq
    rw [hpid]
    rcases List.mem_cons.mp hx with rfl | hx
    · exact hp.fresh q i hq (by simp [hi]) hqi.symm
    · exact h.embryo q hq x hx
  · intro q hq
    have hqi := hne q (by simp [hq]) (by simp [hq])
    rw [hphase q hqi] at hq
    rw [hpid, hnext]
    exact h.below q hq
  · intro q hq
    have hqi := hne q (by simp [hq]) (by simp [hq])
    rw [hphase q hqi] at hq
    rw [hpid]
    refine (h.stale q hq).imp_right ?_
    rintro ⟨hnone, hend⟩
    refine ⟨?_, ?_⟩
    · intro r hr
      rw [hpid]
      exact hnone r ((hfree r).mp hr)
    · intro x hx
      rcases List.mem_cons.mp hx with rfl | hx
      · exact hnone i (by simp [hi])
      · exact hend x hx

theorem Endings.sweep {g g' : Groups n} {l : Ledger n} {i : Fin n} (h : g.Endings l)
    (hpos : 0 < g.nextpid) (hg : g'.core = g.sweep i) (hnext : g'.nextpid = g.nextpid) :
    g'.Endings l := by
  have hkept : ∀ p, (g'.core p).phase ≠ .free → g'.core p = g.core p := by
    intro p hp
    rw [hg] at hp ⊢
    exact sweep_kept hp
  have hfreed : ∀ p, (g'.core p).phase = .free →
      (g'.core p).pid = 0 ∨ (g.core p).phase = .free ∧ (g'.core p).pid = (g.core p).pid := by
    intro p hp
    rw [hg, Groups.sweep] at hp ⊢
    split
    · exact Or.inl rfl
    · rename_i hz
      rw [if_neg hz] at hp
      exact Or.inr ⟨hp, rfl⟩
  have hactive : ∀ q, (g.core q).phase = .active → g'.core q = g.core q := by
    intro q hq
    rw [hg]
    exact sweep_of_ne_zombie (by simp [hq])
  refine ⟨?_, ?_, ?_, ?_, ?_, ?_⟩
  · intro z hz hnone
    have hcore := hkept z (by simp [hz])
    rw [hcore] at hz hnone ⊢
    refine h.last z hz ?_
    intro q hq
    have := hnone q (by rw [hactive q hq]; exact hq)
    rwa [hactive q hq] at this
  · intro p hp
    have hcore := hkept p hp
    rw [hcore] at hp ⊢
    exact h.pos p hp
  · rw [hnext]; exact h.ended
  · intro p hp
    have hcore := hkept p (by simp [hp])
    rw [hcore] at hp ⊢
    exact h.embryo p hp
  · intro p hp
    rw [hnext]
    rcases hfreed p hp with h0 | ⟨hf, heq⟩
    · rw [h0]; exact hpos
    · rw [heq]; exact h.below p hf
  · intro p hp
    rcases hfreed p hp with h0 | ⟨hf, heq⟩
    · exact Or.inl h0
    · rw [heq]
      refine (h.stale p hf).imp_right ?_
      rintro ⟨hnone, hend⟩
      refine ⟨?_, hend⟩
      intro q hq
      have hcore := hkept q hq
      rw [hcore] at hq ⊢
      exact hnone q hq

theorem endings_step {g g' : Groups n} {l : Ledger n} {i : Fin n} {a : GroupOp n}
    (h : g.Endings l) (hs : g.Spawning) (hp : g.Pids) (he : g.Exits)
    (hnext : a = .spawn → g.nextpid < 2 ^ 31 - 1) (hk : GStep g i a g') :
    g'.Endings (g.record i l a) := by
  cases hk with
  | idle | count | load | build | abort => exact h.same (fun _ => rfl) (fun _ => rfl) rfl
  | @prepare k np hi hpc =>
    refine h.same ?_ ?_ rfl <;> intro p <;> by_cases hpn : p = np
    all_goals first | (subst hpn; simp) | simp [hpn]
  | @copy k np d hi hpc hd =>
    refine h.same ?_ ?_ rfl <;> intro p <;> by_cases hpn : p = np
    all_goals first | (subst hpn; simp) | simp [hpn]
  | commit hi hpc =>
    refine h.same ?_ ?_ rfl <;> intro p <;> by_cases hpi : p = i
    all_goals first | (subst hpi; simp) | simp [hpi]
  | @reap z hi hpc hz hpar =>
    have hfreed : (g.setCore z (g.core z).freed).Endings l := h.update hp.pos rfl le_rfl
      (by simp [hz]) (by simp [Core.freed]) (by simp [Core.freed]) (by simp [Core.freed])
      (fun _ => hp.pos) (fun _ => Or.inl rfl)
    obtain ⟨h1, h2, h3, h4, h5, h6⟩ := hfreed
    exact ⟨h1, h2, h3, h4, h5, h6⟩
  | @spawn k np hi hpc hnp =>
    have hsucc := int32_succ hp.pos.le (hnext rfl)
    refine h.update hp.pos rfl ?_ (by simp [hnp]) (by simp) (fun _ => Or.inl rfl) ?_ (by simp)
      (by simp)
    · simp only [setPc, setCore, hsucc]
      omega
    · intro _ x hx
      have := (h.ended x hx).2
      simp only
      omega
  | @discard k np d hi hpc =>
    have hembryo := (hs.slot i np (by rcases hpc with hpc | hpc <;> simp [hpc, ProcPc.spawning])).2
    refine h.update hp.pos rfl le_rfl (by simp [hembryo]) (by simp) (by simp) (by simp)
      (fun _ => hp.below np (by simp [hembryo])) (fun _ => Or.inr ⟨?_, h.embryo np hembryo⟩)
    intro q hq hqf
    exact hp.fresh np q hembryo hqf hq
  | @publishFork np hi hpc =>
    have hembryo := (hs.slot i np (by simp [hpc, ProcPc.spawning])).2
    simp only [record, hpc]
    have hnew : (((g.setCore np { g.core np with
        phase := .active
        parent := some i
        forker := (g.core i).pid }).setPc np .user).setPc i
          (.forkClear np (g.core np).pid)).Endings l := h.update hp.pos rfl le_rfl
      (by simp [hembryo]) (by simp) (fun _ => Or.inr ⟨np, by simp [hembryo], rfl⟩) (by simp)
      (by simp) (by simp)
    obtain ⟨h1, h2, h3, h4, h5, h6⟩ := hnew
    exact ⟨h1, h2, h3, h4, h5, h6⟩
  | @publishThread np parent hi hpc =>
    have hembryo := (hs.slot i np (by simp [hpc, ProcPc.spawning])).2
    exact h.update hp.pos rfl le_rfl (by simp [hembryo]) (by simp)
      (fun _ => Or.inr ⟨i, by simp [hi], rfl⟩) (by simp) (by simp) (by simp)
  | exitLast hi hpc hinit halone => exact h.sweep hp.pos rfl rfl
  | @exitThread q hi hpc hinit hq =>
    exact h.die hp (.exitThread hi) rfl (Or.inl ⟨q, hq.1, hq.active hp hi, hq.2.1⟩)
  | newExit hi hpc hinit => exact h.die hp (.newExit hi) rfl (Or.inr (he.last i hi hpc))

theorem free_step {g g' : Groups n} {i p : Fin n} {a : GroupOp n} (hs : g.Spawning)
    (ha : a ≠ .spawn) (hp : (g.core p).phase = .free) (hk : GStep g i a g') :
    (g'.core p).phase = .free := by
  cases slot_step hk p with
  | kept hphase => exact hphase.trans hp
  | spawned => exact absurd rfl ha
  | discarded _ hnew | reaped _ _ hnew => exact hnew
  | forked hpc | created hpc => simp [(hs.slot i p (by simp [hpc, ProcPc.spawning])).2] at hp
  | exited _ _ hold => simp [hold] at hp

theorem zombie_step {g g' : Groups n} {i p : Fin n} {a : GroupOp n} (hs : g.Spawning)
    (hp : (g.core p).phase = .zombie) (hk : GStep g i a g') :
    (g'.core p).phase = .zombie ∧ (g'.core p).pid = (g.core p).pid ∨
      (g'.core p).phase = .free := by
  cases slot_step hk p with
  | kept hphase hpid => exact Or.inl ⟨hphase.trans hp, hpid⟩
  | discarded _ hnew | reaped _ _ hnew => exact Or.inr hnew
  | forked hpc | created hpc => simp [(hs.slot i p (by simp [hpc, ProcPc.spawning])).2] at hp
  | spawned hold | exited _ _ hold => simp [hold] at hp

theorem reap_frees {g g' : Groups n} {i z : Fin n} (hk : GStep g i (.reap z) g') :
    (g.core z).phase = .zombie ∧ (g'.core z).phase = .free := by
  cases hk with
  | reap hi hpc hz hpar => exact ⟨hz, by simp [Core.freed]⟩

theorem exitLast_sweeps {g g' : Groups n} {i : Fin n} (hk : GStep g i .exitLast g') :
    g'.core = g.sweep i := by
  cases hk with
  | exitLast => rfl

theorem discard_frees {g g' : Groups n} {i p : Fin n} (hk : GStep g i .discard g')
    (hp : (g.pc i).spawning = some p) : (g'.core p).phase = .free := by
  cases hk with
  | @discard k np d hi hpc =>
    obtain rfl : np = p := by
      rcases hpc with hpc | hpc <;> simpa [hpc, ProcPc.spawning] using hp
    simp

theorem ending_dies {g g' : Groups n} {i : Fin n} {a : GroupOp n} (hk : GStep g i a g')
    (ha : a = .exitThread ∨ a = .newExit) :
    (g'.core i).phase = .zombie ∧ (g'.core i).pid = (g.core i).pid := by
  cases hk with
  | exitThread | newExit => simp
  | _ => simp at ha

end Groups

namespace Procs

def Outcome (s : Procs n) (i : Fin n) (t : Procs n) : GroupOp n → Prop
  | .spawn => ∃ k np, allocSlot s.ptable = some np ∧
      t = (s.allocproc np).goto i (.spawnInit k np)
  | .reap z => ∃ p : Proc n, t.ptable z = p.reaped
  | .exitLast => t.ptable = reapSiblings (wakeJoiners s.ptable i) i
  | _ => True

theorem outcome_groupOp {s t : Procs n} {i : Fin n} {op : ProcOp} (h : PStep s i op t) :
    s.Outcome i t (s.groupOp i op) := by
  cases h with
  | @spawn k np hs hpc halloc =>
    rw [show s.groupOp i (.spawn k) = .spawn from if_neg (by simp [halloc])]
    exact ⟨k, np, halloc, rfl⟩
  | @spawnFull k hs hpc halloc =>
    rw [show s.groupOp i (.spawn k) = .idle from if_pos halloc]
    trivial
  | @waitReap op b z he hz =>
    rw [groupOp_reap he hz]
    exact ⟨b.ptable z, by simp [reap]⟩
  | waitNone he hz hk | waitBlock he hz hk =>
    rw [groupOp_idle he hz]
    trivial
  | resume hs hw hj =>
    rw [groupOp_schedule hw]
    trivial
  | joinReturn hs hpc =>
    rw [groupOp_schedule (by simp [hpc])]
    trivial
  | exitLast hs hpc hi hc =>
    rw [show s.groupOp i .exit = .exitLast from if_pos hc]
    exact rfl
  | exitThread hs hpc hi hc =>
    rw [show s.groupOp i .exit = .exitThread from if_neg hc]
    trivial
  | _ => trivial

theorem groupOp_spawn {s t : Procs n} {i : Fin n} {op : ProcOp} (h : PStep s i op t)
    (ha : s.groupOp i op = .spawn) :
    ∃ k np, allocSlot s.ptable = some np ∧ t = (s.allocproc np).goto i (.spawnInit k np) := by
  have := outcome_groupOp h
  rwa [ha] at this

def Calls (op : ProcOp) : GroupOp n → Prop
  | .spawn => ∃ k, op = .spawn k
  | .discard => op = .spawnInit none ∨ op = .spawnCopy none
  | .copy => ∃ d, op = .spawnCopy (some d)
  | .publishFork => op = .forkPublish
  | .publishThread => op = .createPublish
  | .exitThread => op = .exit
  | .newExit => op = .newExit
  | _ => True

theorem calls_scanOp (op : ProcOp) (pt : Ptable n) (i : Fin n) : Calls op (scanOp pt i) := by
  unfold scanOp
  cases zombieChild pt i <;> trivial

theorem calls_groupOp (s : Procs n) (i : Fin n) (op : ProcOp) : Calls op (s.groupOp i op) := by
  cases op with
  | schedule =>
    simp only [groupOp]
    by_cases hpc : s.pc i = .waitSleep
    · rw [if_pos hpc]
      exact calls_scanOp _ _ _
    · rw [if_neg hpc]
      trivial
  | wait => exact calls_scanOp _ _ _
  | spawn k =>
    simp only [groupOp]
    by_cases ha : allocSlot s.ptable = none
    · rw [if_pos ha]
      trivial
    · rw [if_neg ha]
      exact ⟨k, rfl⟩
  | exit =>
    simp only [groupOp]
    by_cases hc : threadsCounter (wakeJoiners s.ptable i) i = 1
    · rw [if_pos hc]
      trivial
    · rw [if_neg hc]
      exact rfl
  | spawnInit k =>
    cases k with
    | none => exact Or.inl rfl
    | some k => trivial
  | spawnCopy k =>
    cases k with
    | none => exact Or.inr rfl
    | some d => exact ⟨d, rfl⟩
  | exec k => cases k <;> trivial
  | yield | forkClear | join | kill | createCount | createLoad | execAbort | execCommit => trivial
  | forkPublish | createPublish | newExit => exact rfl

theorem groupOp_publishThread {s : Procs n} {i : Fin n} {op : ProcOp}
    (h : s.groupOp i op = .publishThread) : op = .createPublish := by
  have := calls_groupOp s i op
  rwa [h] at this

theorem free_stays {s t : Procs n} {i p : Fin n} {op : ProcOp} (hs : s.groups.Spawning)
    (h : PStep s i op t) (hp : (s.groups.core p).phase = .free) :
    (t.groups.core p).phase = .free ∨ s.allocs i op p = true := by
  by_cases ha : s.groupOp i op = .spawn
  · obtain ⟨k, np, halloc, rfl⟩ := groupOp_spawn h ha
    by_cases hpn : p = np
    · subst hpn
      exact Or.inr (by simp [allocs, ha, halloc])
    · left
      have hcore : ((s.allocproc np).goto i (.spawnInit k np)).groups.core p = s.groups.core p := by
        simp [groups, allocproc, hpn]
      rw [hcore]
      exact hp
  · exact Or.inl (Groups.free_step hs ha hp (pstep_groupOp h))

theorem kfrees_phase {s t : Procs n} {i p : Fin n} {op : ProcOp} (hs : s.groups.Spawning)
    (h : PStep s i op t) (hf : s.kfrees i op p = true) :
    (s.groups.core p).phase ≠ .free ∧ (t.groups.core p).phase = .free := by
  have hk := pstep_groupOp h
  unfold kfrees at hf
  split at hf
  · rename_i z ha
    rw [ha] at hk
    obtain rfl := of_decide_eq_true hf
    obtain ⟨hz, hfree⟩ := Groups.reap_frees hk
    exact ⟨by simp [hz], hfree⟩
  · rename_i ha
    rw [ha] at hk
    obtain ⟨hz, hpid, htid⟩ := of_decide_eq_true hf
    have hzombie : (s.groups.core p).phase = .zombie := congrArg ProcState.phase hz
    refine ⟨by simp [hzombie], ?_⟩
    rw [Groups.exitLast_sweeps hk, Groups.sweep, if_pos ⟨hzombie, hpid, htid⟩]
    rfl
  · rename_i ha
    rw [ha] at hk
    obtain ⟨_, hsp⟩ := of_decide_eq_true hf
    exact ⟨by simp [(hs.slot i p hsp).2], Groups.discard_frees hk hsp⟩
  · cases hf

end Procs

namespace History

structure Slots (h : History n) : Prop where
  kfreed : ∀ p, h.kfreed p ≤ 1
  inUse : ∀ p, (h.procs.groups.core p).phase ≠ .free → h.kfreed p = 0
  left : ∀ p v, h.left p = some v →
    (h.procs.groups.core p).phase = .zombie ∧ (h.procs.groups.core p).pid = v ∨
      (h.procs.groups.core p).phase = .free

theorem slots_step {h t : History n} {e : Fin n × ProcOp} (hi : h.Slots)
    (hs : h.procs.groups.Spawning) (hstep : h.step e = some t) : t.Slots := by
  have hp := step_procs hstep
  obtain ⟨procs, hprocs, rfl⟩ := Option.map_eq_some_iff.mp hstep
  simp only at hp
  refine ⟨?_, ?_, ?_⟩
  · intro p
    simp only
    split
    · omega
    · split
      · rename_i hf
        rw [hi.inUse p (Procs.kfrees_phase hs hp hf).1]
      · exact hi.kfreed p
  · intro p hused
    simp only at hused ⊢
    split
    · rfl
    · rename_i ha
      split
      · rename_i hf
        exact absurd (Procs.kfrees_phase hs hp hf).2 hused
      · refine hi.inUse p ?_
        intro hfree
        exact (Procs.free_stays hs hp hfree).elim hused ha
  · intro p v hv
    simp only at hv ⊢
    split at hv
    · cases hv
    · rename_i ha
      split at hv
      · rename_i hend
        obtain ⟨rfl, hop⟩ := of_decide_eq_true hend
        obtain ⟨hz, hpid⟩ := Groups.ending_dies (Procs.pstep_groupOp hp) hop
        rw [Option.some.injEq] at hv
        exact Or.inl ⟨hz, hpid.trans hv⟩
      · rcases hi.left p v hv with ⟨hz, rfl⟩ | hfree
        · exact Groups.zombie_step hs hz (Procs.pstep_groupOp hp)
        · exact Or.inr ((Procs.free_stays hs hp hfree).resolve_right ha)

def UniquePid (h : History n) (e : Fin n × ProcOp) : Prop :=
  e.2 = .spawn .fork ∨ e.2 = .spawn .thread → h.procs.nextpid < 2 ^ 31 - 1

instance (h : History n) (e : Fin n × ProcOp) : Decidable (h.UniquePid e) := by
  unfold UniquePid; infer_instance

def UniqueThreadId (h : History n) (e : Fin n × ProcOp) : Prop :=
  e.2 = .createPublish → ∀ q, (h.procs.ptable q).state ≠ .unused →
    (h.procs.ptable q).state ≠ .embryo → (h.procs.ptable q).pid = (h.procs.ptable e.1).pid →
      (h.procs.ptable q).threadId ≠ h.procs.nextThread

instance (h : History n) (e : Fin n × ProcOp) : Decidable (h.UniqueThreadId e) := by
  unfold UniqueThreadId; infer_instance

structure Accounted (h : History n) : Prop where
  spawning : h.procs.groups.Spawning
  pids : h.procs.groups.Pids
  distinct : h.procs.groups.Distinct
  exits : h.procs.groups.Exits
  endings : h.procs.groups.Endings h.ledger
  slots : h.Slots

theorem begun_state {s : Procs n} {p : Fin n} :
    s.groups.Begun p ↔ (s.ptable p).state ≠ .unused ∧ (s.ptable p).state ≠ .embryo := by
  simp only [Groups.Begun, Procs.groups, Proc.core]
  cases (s.ptable p).state <;> simp [ProcState.phase]

theorem phase_zombie {s : Procs n} {p : Fin n} :
    (s.groups.core p).phase = .zombie ↔ (s.ptable p).state = .zombie := by
  simp only [Procs.groups, Proc.core]
  cases (s.ptable p).state <;> simp [ProcState.phase]

theorem phase_free {s : Procs n} {p : Fin n} :
    (s.groups.core p).phase = .free ↔ (s.ptable p).state = .unused := by
  simp only [Procs.groups, Proc.core]
  cases (s.ptable p).state <;> simp [ProcState.phase]

theorem boot_accounted {h : History n} (hb : h.Boot) : h.Accounted := by
  have hsound := Procs.boot_sound hb.procs
  have hfree : ∀ p, p ≠ h.procs.initproc → (h.procs.groups.core p).phase = .free ∧
      (h.procs.groups.core p).pid = 0 := by
    intro p hp
    change (h.procs.ptable p).state.phase = _ ∧ (h.procs.ptable p).pid = _
    rw [hb.procs.others p hp]
    exact ⟨rfl, rfl⟩
  have hinit : (h.procs.groups.core h.procs.initproc).phase = .active ∧
      (h.procs.groups.core h.procs.initproc).pid = 1 := by
    change (h.procs.ptable h.procs.initproc).state.phase = _ ∧
      (h.procs.ptable h.procs.initproc).pid = _
    rw [hb.procs.init]
    exact ⟨rfl, rfl⟩
  have hcases : ∀ p, (h.procs.groups.core p).phase = .active ∧ (h.procs.groups.core p).pid = 1 ∨
      (h.procs.groups.core p).phase = .free ∧ (h.procs.groups.core p).pid = 0 := by
    intro p
    by_cases hp : p = h.procs.initproc
    · rw [hp]; exact Or.inl hinit
    · exact Or.inr (hfree p hp)
  refine ⟨hsound.spawning, hsound.pids, hsound.threads.distinct, hsound.exits,
    ⟨?_, ?_, ?_, ?_, ?_, ?_⟩, ⟨?_, ?_, ?_⟩⟩
  · intro z hz
    rcases hcases z with ⟨hp, _⟩ | ⟨hp, _⟩ <;> simp [hp] at hz
  · intro p hp
    rcases hcases p with ⟨_, hpid⟩ | ⟨hf, _⟩
    · rw [hpid]; omega
    · exact absurd hf hp
  · simp [hb.ledger, Ledger.empty]
  · simp [hb.ledger, Ledger.empty]
  · intro p hp
    rcases hcases p with ⟨ha, _⟩ | ⟨_, hpid⟩
    · simp [ha] at hp
    · rw [hpid]; exact hsound.pids.pos
  · intro p hp
    rcases hcases p with ⟨ha, _⟩ | ⟨_, hpid⟩
    · simp [ha] at hp
    · exact Or.inl hpid
  · simp [hb.kfreed]
  · simp [hb.kfreed]
  · simp [hb.left]

theorem UniquePid.spawn {h t : History n} {e : Fin n × ProcOp} (hpid : h.UniquePid e)
    (hs : h.step e = some t) (ha : h.procs.groupOp e.1 e.2 = .spawn) :
    h.procs.groups.nextpid < 2 ^ 31 - 1 := by
  have hdoes := Procs.does_groupOp (step_procs hs)
  rw [ha] at hdoes
  obtain ⟨k, hop⟩ := hdoes
  exact hpid (by cases k <;> simp [hop])

theorem accounted_step {h t : History n} {e : Fin n × ProcOp} (hi : h.Accounted)
    (hpid : h.UniquePid e) (htid : h.UniqueThreadId e) (hs : h.step e = some t) : t.Accounted := by
  have hk := Procs.pstep_groupOp (step_procs hs)
  have hspawn := hpid.spawn hs
  refine ⟨Groups.spawning_step hi.spawning hk, Groups.pids_step hi.pids hi.spawning hspawn hk,
    Groups.distinct_step hi.distinct hi.spawning hi.pids ?_ hk,
    Groups.exits_step hi.exits hi.spawning hi.pids hi.distinct hk, ?_,
    slots_step hi.slots hi.spawning hs⟩
  · intro ha q hq
    obtain ⟨hu, he⟩ := begun_state.mp hq
    exact htid (Procs.groupOp_publishThread ha) q hu he
  · rw [step_ledger hs]
    exact Groups.endings_step hi.endings hi.spawning hi.pids hi.exits hspawn hk

structure OneZombie (h : History n) (v : Int) : Prop where
  carried : ∀ q, (h.procs.ptable q).pid = v →
    (h.procs.ptable q).state = .zombie ∧ h.ledger.last v = some q
  others : ∀ q, h.left q = some v → h.ledger.last v ≠ some q → (h.procs.ptable q).state = .unused

theorem group_exit_leaves_one_zombie {h t : History n} {es : List (Fin n × ProcOp)} (hb : h.Boot)
    (hc : GuardedRun.along step (fun h e => h.UniquePid e ∧ h.UniqueThreadId e) h es)
    (hr : h.run es = some t) :
    (∀ v q, (v, q) ∈ t.ledger.ended →
      (∀ p, (t.procs.ptable p).live → (t.procs.ptable p).pid ≠ v) → t.OneZombie v) ∧
      ∀ p, t.kfreed p ≤ 1 := by
  have hinv : t.Accounted := GuardedRun.run_invariant
    (fun s e t hs hc => accounted_step hs hc.1 hc.2) (boot_accounted hb) hc hr
  refine ⟨?_, hinv.slots.kfreed⟩
  intro v x hx hnone
  have hactive : ∀ q, (t.procs.groups.core q).phase = .active →
      (t.procs.groups.core q).pid ≠ v := fun q hq => hnone q (Procs.phase_active.mp hq).1
  refine ⟨?_, ?_⟩
  · rintro q rfl
    cases hphase : (t.procs.groups.core q).phase with
    | free =>
      rcases hinv.endings.stale q hphase with h0 | ⟨_, hend⟩
      · exact absurd h0 (hinv.endings.ended _ hx).1.ne'
      · exact absurd rfl (hend _ hx)
    | embryo => exact absurd rfl (hnone q ((t.procs.ptable q).live_iff.mpr (Or.inr hphase)))
    | active => exact absurd rfl (hactive q hphase)
    | zombie => exact ⟨phase_zombie.mp hphase, hinv.endings.last q hphase hactive⟩
  · intro q hleft hlast
    rcases hinv.slots.left q v hleft with ⟨hz, rfl⟩ | hfree
    · exact absurd (hinv.endings.last q hz hactive) hlast
    · exact phase_free.mp hfree

def samePidExits : List (Fin nproc × ProcOp) :=
  Procs.forkOps 0 2 5 6 ++ [(2, .exit), (1, .exit), (1, .newExit)]

-- nextpid wraps: after 2^32 - 1 forks that fail for want of memory the second child gets the pid of
-- the first one.
theorem group_exit_leaves_two_zombies :
    ∃ t, (userinit (0 : Fin nproc) 1 2).Boot ∧
      (userinit (0 : Fin nproc) 1 2).run ((0, .schedule) :: Procs.forkOps 0 1 3 4 ++
        failedForks 0 4294967295 ++ samePidExits) = some t ∧
      (2, 1) ∈ t.ledger.ended ∧ (∀ p, (t.procs.ptable p).live → (t.procs.ptable p).pid ≠ 2) ∧
      (t.procs.ptable 1).state = .zombie ∧ (t.procs.ptable 1).pid = 2 ∧
      (t.procs.ptable 2).state = .zombie ∧ (t.procs.ptable 2).pid = 2 ∧ ¬ t.OneZombie 2 := by
  have hburnt := oneChild_burnt (v := 1) (k := 4294967295) (m := 4294967294) (by norm_num)
    (by norm_num [int32, Int.bmod])
  have hrest : ∃ t, (oneChild.burnt 0 2 1 4294967295).run samePidExits = some t ∧
      (2, 1) ∈ t.ledger.ended ∧ (∀ p, (t.procs.ptable p).live → (t.procs.ptable p).pid ≠ 2) ∧
      (t.procs.ptable 1).state = .zombie ∧ (t.procs.ptable 1).pid = 2 ∧
      (t.procs.ptable 2).state = .zombie ∧ (t.procs.ptable 2).pid = 2 :=
    GuardedRun.exists_of_any (by decide +kernel)
  obtain ⟨t, hrun, hend, hlive, h1, hp1, h2, hp2⟩ := hrest
  refine ⟨t, userinit_boot 0 1 (by decide), (GuardedRun.run_append step).mpr ⟨_, hburnt, hrun⟩,
    hend, hlive, h1, hp1, h2, hp2, ?_⟩
  intro hone
  have hlast := (hone.carried 1 hp1).2
  rw [(hone.carried 2 hp2).2] at hlast
  cases hlast

theorem group_exit_leaves_one_zombie_thread :
    ∃ t, (userinit (0 : Fin nproc) 1 2).run (Procs.threadExits ++ [(1, .exit), (1, .newExit)]) =
        some t ∧ (t.procs.ptable 1).pid = 2 ∧ t.OneZombie 2 := by
  have hrun : ∃ t, (userinit (0 : Fin nproc) 1 2).run
      (Procs.threadExits ++ [(1, .exit), (1, .newExit)]) = some t ∧
      (t.procs.ptable 1).pid = 2 ∧ (2, 1) ∈ t.ledger.ended ∧
      ∀ p, (t.procs.ptable p).live → (t.procs.ptable p).pid ≠ 2 :=
    GuardedRun.exists_of_any (by decide +kernel)
  have hes : GuardedRun.along step (fun h e => h.UniquePid e ∧ h.UniqueThreadId e)
      (userinit (0 : Fin nproc) 1 2) (Procs.threadExits ++ [(1, .exit), (1, .newExit)]) :=
    GuardedRun.along_of_checks (by decide +kernel)
  obtain ⟨t, hrun, hpid, hend, hnone⟩ := hrun
  exact ⟨t, hrun, hpid, (group_exit_leaves_one_zombie (userinit_boot 0 1 (by decide)) hes hrun).1
    2 1 hend hnone⟩

end History
end Xv6
