import Xv6.Proc.Identity

namespace Xv6

variable {n : Nat}

namespace Groups

def pcClaim (f : Fin n → Core n) (i : Fin n) : ProcPc n → Option (Nat × Holder n)
  | .forkPublish np => some ((f np).pgdir, .group (f np).pid)
  | .createCount np | .createLoad np | .createPublish np _ => some ((f np).pgdir, .leaked)
  | .execCommit d _ => some (d, .building i)
  | _ => none

inductive Claim (g : Groups n) : Nat → Holder n → Prop
  | active {p : Fin n} (hp : (g.core p).phase = .active) :
      Claim g (g.core p).pgdir (.group (g.core p).pid)
  | pc {i : Fin n} {d : Nat} {h : Holder n} (hi : pcClaim g.core i (g.pc i) = some (d, h)) :
      Claim g d h
  | zombie {z : Fin n} (hz : (g.core z).phase = .zombie)
      (hfinal : ∀ q, (g.core q).phase = .active → (g.core q).pid ≠ (g.core z).pid) :
      Claim g (g.core z).pgdir (.group (g.core z).pid)

def Held (g : Groups n) : Prop := ∀ d h, g.Claim d h → g.holder d = some h

def Distinct (g : Groups n) : Prop :=
  ∀ p q, g.Begun p → g.Begun q → p ≠ q → (g.core p).pid = (g.core q).pid →
    (g.core p).threadId ≠ (g.core q).threadId

structure Exits (g : Groups n) : Prop where
  alone : ∀ z z', (g.core z).phase = .zombie → (g.core z').phase = .zombie → z ≠ z' →
    (g.core z).pid = (g.core z').pid →
      ∃ q, (g.core q).phase = .active ∧ (g.core q).pid = (g.core z).pid
  last : ∀ i, (g.core i).phase = .active → g.pc i = .newExit → ∀ q, q ≠ i → g.Begun q →
    (g.core q).pid ≠ (g.core i).pid

def GroupStep (g : Groups n) (i : Fin n) : GroupOp n → Prop
  | .spawn => g.nextpid < 2 ^ 31 - 1
  | .count => g.nextThread < 2 ^ 31 - 1 ∧ ∀ j, (g.pc j).counting = false
  | .reap z => ∀ q, (g.core q).phase = .active → (g.core q).pid ≠ (g.core z).pid
  | .commit => ∀ q, q ≠ i → (g.core q).phase = .active → (g.core q).pid ≠ (g.core i).pid
  | _ => True

structure SameBegun (g g' : Groups n) : Prop where
  active : ∀ q, (g'.core q).phase = .active ↔ (g.core q).phase = .active
  zombie : ∀ q, (g'.core q).phase = .zombie → (g.core q).phase = .zombie
  pid : ∀ q, g'.Begun q → (g'.core q).pid = (g.core q).pid

theorem SameBegun.begun {g g' : Groups n} (h : SameBegun g g') {q : Fin n} (hq : g'.Begun q) :
    g.Begun q := hq.imp (h.active q).mp (h.zombie q)

theorem SameBegun.update {g g' : Groups n} {p : Fin n} {c : Core n}
    (hg : g'.core = Function.update g.core p c)
    (hactive : c.phase = .active ↔ (g.core p).phase = .active)
    (hzombie : c.phase = .zombie → (g.core p).phase = .zombie)
    (hpid : c.phase = .active ∨ c.phase = .zombie → c.pid = (g.core p).pid) : SameBegun g g' := by
  refine ⟨?_, ?_, ?_⟩ <;> intro q <;> by_cases hq : q = p
  · subst hq; simpa [hg] using hactive
  · simp [hg, hq]
  · subst hq; simpa [hg] using hzombie
  · simp [hg, hq]
  · subst hq; simpa [Begun, hg] using hpid
  · simp [hg, hq]

theorem SameBegun.refl {g g' : Groups n} (hg : g'.core = g.core) : SameBegun g g' :=
  ⟨fun q => by rw [hg], fun q hq => hg ▸ hq, fun q _ => by rw [hg]⟩

theorem SameBegun.final {g g' : Groups n} (h : SameBegun g g') {z : Fin n}
    (hz : (g'.core z).phase = .zombie)
    (hfinal : ∀ q, (g'.core q).phase = .active → (g'.core q).pid ≠ (g'.core z).pid) (q : Fin n)
    (hq : (g.core q).phase = .active) : (g.core q).pid ≠ (g.core z).pid := by
  have hq' := (h.active q).mpr hq
  rw [← h.pid q (Or.inl hq'), ← h.pid z (Or.inr hz)]
  exact hfinal q hq'

theorem Exits.frame {g g' : Groups n} (h : g.Exits) (hsame : SameBegun g g')
    (hexit : ∀ j, g'.pc j = .newExit → g.pc j = .newExit ∨
      ∀ q, q ≠ j → g'.Begun q → (g'.core q).pid ≠ (g'.core j).pid) : g'.Exits where
  alone z z' hz hz' hne hpid := by
    rw [hsame.pid z (Or.inr hz), hsame.pid z' (Or.inr hz')] at hpid
    obtain ⟨q, hq, hqp⟩ := h.alone z z' (hsame.zombie z hz) (hsame.zombie z' hz') hne hpid
    have hq' := (hsame.active q).mpr hq
    exact ⟨q, hq', by rw [hsame.pid q (Or.inl hq'), hsame.pid z (Or.inr hz), hqp]⟩
  last i hi hpc q hne hq := by
    rcases hexit i hpc with hpc | hlast
    · rw [hsame.pid q hq, hsame.pid i (Or.inl hi)]
      exact h.last i ((hsame.active i).mp hi) hpc q hne (hsame.begun hq)
    · exact hlast q hne hq

theorem Exits.publish {g g' : Groups n} (h : g.Exits) (np : Fin n)
    (hnp : (g.core np).phase = .embryo) (hnp' : (g'.core np).phase = .active)
    (hother : ∀ q, q ≠ np → g'.core q = g.core q)
    (hexit : ∀ j, g'.pc j = .newExit → j ≠ np ∧ g.pc j = .newExit)
    (hlast : ∀ i, (g.core i).phase = .active → g.pc i = .newExit →
      (g'.core np).pid ≠ (g.core i).pid) : g'.Exits := by
  have hzombie : ∀ z, (g'.core z).phase = .zombie → z ≠ np := by
    rintro z hz rfl
    simp [hnp'] at hz
  refine ⟨?_, ?_⟩
  · intro z z' hz hz' hne hpid
    have hcz := hother z (hzombie z hz)
    have hcz' := hother z' (hzombie z' hz')
    rw [hcz] at hz hpid ⊢
    rw [hcz'] at hz' hpid
    obtain ⟨q, hq, hqp⟩ := h.alone z z' hz hz' hne hpid
    have hqn : q ≠ np := by
      rintro rfl
      simp [hnp] at hq
    exact ⟨q, by rw [hother q hqn]; exact ⟨hq, hqp⟩⟩
  · intro i hi hpc q hne hq
    obtain ⟨hin, hpc⟩ := hexit i hpc
    rw [hother i hin] at hi ⊢
    by_cases hqn : q = np
    · rw [hqn]
      exact hlast i hi hpc
    · rw [Begun, hother q hqn] at hq
      rw [hother q hqn]
      exact h.last i hi hpc q hne hq

structure Dies (g g' : Groups n) (i : Fin n) : Prop where
  before : (g.core i).phase = .active
  after : (g'.core i).phase = .zombie
  phase : ∀ q, q ≠ i → (g'.core q).phase = (g.core q).phase
  pid : ∀ q, (g'.core q).pid = (g.core q).pid
  pgdir : ∀ q, (g'.core q).pgdir = (g.core q).pgdir
  pc : g'.pc = g.pc

theorem Dies.exitThread {g : Groups n} {i : Fin n} (hi : (g.core i).phase = .active) :
    Dies g (g.setCore i { g.core i with phase := .zombie }) i := by
  refine ⟨hi, by simp, fun q hq => by simp [hq], ?_, ?_, rfl⟩ <;> intro q <;> by_cases hq : q = i
  · subst hq; simp
  · simp [hq]
  · subst hq; simp
  · simp [hq]

theorem Dies.newExit {g : Groups n} {i : Fin n} (hi : (g.core i).phase = .active) :
    Dies g ({ g with core := fun p => (g.core p).adopted i g.initproc }.setCore i
      { (g.core i).adopted i g.initproc with phase := .zombie }) i := by
  refine ⟨hi, by simp, fun q hq => by simp [hq], ?_, ?_, rfl⟩ <;> intro q <;> by_cases hq : q = i
  · subst hq; simp
  · simp [hq]
  · subst hq; simp
  · simp [hq]

theorem Exits.die {g g' : Groups n} {i : Fin n} (h : g.Exits) (hd : Dies g g' i)
    (hcase : (∃ q, q ≠ i ∧ (g.core q).phase = .active ∧ (g.core q).pid = (g.core i).pid) ∨
      ∀ q, q ≠ i → g.Begun q → (g.core q).pid ≠ (g.core i).pid) : g'.Exits := by
  obtain ⟨hi, hi', hphase, hpid, _, hpc⟩ := hd
  refine ⟨?_, ?_⟩
  · intro z z' hz hz' hne hzz
    simp only [hpid] at hzz ⊢
    have hfind : ∀ q, (g.core q).phase = .active → (g.core q).pid = (g.core z).pid →
        ∃ q, (g'.core q).phase = .active ∧ (g.core q).pid = (g.core z).pid := by
      intro q hq hqz
      by_cases hqi : q = i
      · subst hqi
        rcases hcase with ⟨q', hq', ha, hp⟩ | hlast
        · exact ⟨q', by rw [hphase q' hq']; exact ha, hp.trans hqz⟩
        · by_cases hzi : z = q
          · subst hzi
            refine absurd hzz.symm (hlast z' hne.symm (Or.inr ?_))
            rw [← hphase z' hne.symm]; exact hz'
          · refine absurd hqz.symm (hlast z hzi (Or.inr ?_))
            rw [← hphase z hzi]; exact hz
      · exact ⟨q, by rw [hphase q hqi]; exact hq, hqz⟩
    by_cases hzi : z = i
    · exact hfind i hi (by rw [hzi])
    · by_cases hzi' : z' = i
      · exact hfind i hi (by rw [hzz, hzi'])
      · rw [hphase z hzi] at hz
        rw [hphase z' hzi'] at hz'
        obtain ⟨q, hq, hqp⟩ := h.alone z z' hz hz' hne hzz
        exact hfind q hq hqp
  · intro j hj hpcj q hne hq
    have hji : j ≠ i := by
      rintro rfl
      simp [hi'] at hj
    rw [hphase j hji] at hj
    rw [hpc] at hpcj
    rw [hpid, hpid]
    refine h.last j hj hpcj q hne ?_
    by_cases hqi : q = i
    · rw [hqi]; exact Or.inl hi
    · rwa [Begun, hphase q hqi] at hq

theorem sweep_of_ne_zombie {g : Groups n} {i p : Fin n} (hp : (g.core p).phase ≠ .zombie) :
    g.sweep i p = g.core p := by
  rw [sweep, if_neg]
  simp [hp]

theorem Sibling.active {g : Groups n} {i q : Fin n} (hq : g.Sibling i q) (hp : g.Pids)
    (hi : (g.core i).phase = .active) : (g.core q).phase = .active := by
  obtain ⟨hqi, hqp, hq⟩ := hq
  refine hq.resolve_right ?_
  intro he
  exact hp.fresh q i he (by simp [hi]) hqi.symm hqp.symm

theorem sweep_sameBegun {g g' : Groups n} {i : Fin n} (hg : g'.core = g.sweep i) :
    SameBegun g g' where
  active q := by
    rw [hg]
    rcases sweep_cases g i q with hq | ⟨hz, hq⟩
    · rw [hq]
    · simp [hq, hz]
  zombie q hq := by
    rw [hg] at hq
    rcases sweep_cases g i q with h | ⟨hz, h⟩
    · rw [← h]; exact hq
    · exact hz
  pid q hq := by
    rw [Begun, hg] at hq
    rw [hg, sweep_kept (by rcases hq with hq | hq <;> simp [hq])]

theorem newExit_setPc {g : Groups n} {i : Fin n} {x : ProcPc n} (hx : x ≠ .newExit) (j : Fin n)
    (hj : (g.setPc i x).pc j = .newExit) : j ≠ i ∧ g.pc j = .newExit := by
  have hji : j ≠ i := by
    rintro rfl
    exact hx (by simpa using hj)
  exact ⟨hji, by simpa [hji] using hj⟩

theorem exits_step {g g' : Groups n} {i : Fin n} {a : GroupOp n} (h : g.Exits) (hs : g.Spawning)
    (hp : g.Pids) (hd : g.Distinct) (hk : GStep g i a g') : g'.Exits := by
  cases hk with
  | @idle x hi hx =>
    refine h.frame (.refl rfl) ?_
    intro j hj
    left
    rcases hx with rfl | ⟨_, hx⟩
    · simpa using hj
    · exact (newExit_setPc (by rintro rfl; cases hx) j hj).2
  | reap hi hpc hz hpar =>
    exact h.frame (.update rfl (by simp [Core.freed, hz]) (by simp [Core.freed])
      (by simp [Core.freed])) (fun j hj => .inl (newExit_setPc (by simp) j hj).2)
  | spawn hi hpc hnp =>
    exact h.frame (.update rfl (by simp [hnp]) (by simp) (by simp))
      (fun j hj => .inl (newExit_setPc (by simp) j hj).2)
  | @discard k np d hi hpc =>
    have hembryo := (hs.slot i np (by rcases hpc with hpc | hpc <;> simp [hpc, ProcPc.spawning])).2
    exact h.frame (.update rfl (by simp [hembryo]) (by simp) (by simp))
      (fun j hj => .inl (newExit_setPc (by simp) j hj).2)
  | prepare hi hpc =>
    exact h.frame (.update rfl Iff.rfl id (fun _ => rfl))
      (fun j hj => .inl (newExit_setPc (by simp) j hj).2)
  | @copy k np d hi hpc hfresh =>
    exact h.frame (.update rfl Iff.rfl id (fun _ => rfl))
      (fun j hj => .inl (newExit_setPc (by cases k <;> simp [Procs.afterCopy]) j hj).2)
  | @publishFork np hi hpc =>
    have hembryo := (hs.slot i np (by simp [hpc, ProcPc.spawning])).2
    refine h.publish np hembryo (by simp) (fun q hq => by simp [hq]) ?_ ?_
    · intro j hj
      exact newExit_setPc (by simp) j (newExit_setPc (by simp) j hj).2
    · intro j hj _
      simpa using (hp.fresh np j hembryo (by simp [hj]) (by rintro rfl; simp [hj] at hembryo)).symm
  | count | load | build | abort =>
    exact h.frame (.refl rfl) (fun j hj => .inl (newExit_setPc (by simp) j hj).2)
  | @publishThread np parent hi hpc =>
    have hembryo := (hs.slot i np (by simp [hpc, ProcPc.spawning])).2
    refine h.publish np hembryo (by simp) (fun q hq => by simp [hq]) ?_ ?_
    · intro j hj
      exact newExit_setPc (by simp) j (newExit_setPc (by simp) j hj).2
    · intro j hj hpc'
      simpa using h.last j hj hpc' i (by rintro rfl; simp [hpc] at hpc') (Or.inl hi)
  | commit hi hpc =>
    exact h.frame (.update rfl Iff.rfl id (fun _ => rfl))
      (fun j hj => .inl (newExit_setPc (by simp) j hj).2)
  | exitLast hi hpc hinit halone =>
    refine h.frame (sweep_sameBegun rfl) ?_
    intro j hj
    by_cases hji : j = i
    · subst hji
      refine Or.inr ?_
      intro q hq hb
      have hkept : g.sweep j q = g.core q := sweep_kept (by rcases hb with hb | hb <;> simp_all)
      simp only [Begun, setPc, hkept, sweep_of_ne_zombie (by simp [hi] : (g.core j).phase ≠ .zombie)] at hb ⊢
      intro hpid
      rcases hb with hb | hb
      · exact halone q ⟨hq, hpid, Or.inl hb⟩
      · refine hd q j (Or.inr hb) (Or.inl hi) hq hpid ?_
        by_contra hne
        have hfreed : (g.sweep j q).phase = .free := by
          rw [sweep, if_pos ⟨hb, hpid, Ne.symm hne⟩]
          rfl
        simp [hkept, hb] at hfreed
    · exact Or.inl (by simpa [hji] using hj)
  | @exitThread q hi hpc hinit hq =>
    exact h.die (.exitThread hi)
      (Or.inl ⟨q, hq.1, hq.active hp hi, hq.2.1⟩)
  | newExit hi hpc hinit =>
    exact h.die (.newExit hi) (Or.inr (h.last i hi hpc))

theorem pcClaim_congr {f f' : Fin n → Core n} {i : Fin n} {x : ProcPc n}
    (h : ∀ np, x.spawning = some np → (f' np).pgdir = (f np).pgdir ∧ (f' np).pid = (f np).pid) :
    pcClaim f' i x = pcClaim f i x := by
  cases x <;> simp_all [pcClaim, ProcPc.spawning]

theorem pcClaim_group {f : Fin n → Core n} {i : Fin n} {x : ProcPc n} {d : Nat} {v : Int}
    (h : pcClaim f i x = some (d, .group v)) :
    ∃ np, x.spawning = some np ∧ (f np).pid = v := by
  cases x <;> simp_all [pcClaim, ProcPc.spawning]

theorem pcClaim_building {f : Fin n → Core n} {i j : Fin n} {x : ProcPc n} {d : Nat}
    (h : pcClaim f i x = some (d, .building j)) : j = i := by
  cases x <;> simp_all [pcClaim]

theorem pcClaim_neutral {f : Fin n → Core n} {i : Fin n} {x : ProcPc n} (h : x.neutral = true) :
    pcClaim f i x = none := by
  cases x <;> simp_all [pcClaim, ProcPc.neutral]

theorem Claim.frame {g g' : Groups n} {P : Nat → Holder n → Prop} (hsame : SameBegun g g')
    (hdir : ∀ q, g'.Begun q → (g'.core q).pgdir = (g.core q).pgdir)
    (hpc : ∀ j d h, pcClaim g'.core j (g'.pc j) = some (d, h) → g.Claim d h ∨ P d h) {d : Nat}
    {h : Holder n} (hc : g'.Claim d h) : g.Claim d h ∨ P d h := by
  cases hc with
  | @active p hp =>
    rw [hsame.pid p (Or.inl hp), hdir p (Or.inl hp)]
    exact Or.inl (.active ((hsame.active p).mp hp))
  | @pc j d h hj => exact hpc j d h hj
  | @zombie z hz hfinal =>
    rw [hsame.pid z (Or.inr hz), hdir z (Or.inr hz)]
    exact Or.inl (.zombie (hsame.zombie z hz) (hsame.final hz hfinal))

theorem Claim.step {g g' : Groups n} {i : Fin n} {x : ProcPc n} {P : Nat → Holder n → Prop}
    (hsame : SameBegun g g') (hdir : ∀ q, g'.Begun q → (g'.core q).pgdir = (g.core q).pgdir)
    (hpc : g'.pc = Function.update g.pc i x)
    (hkeep : ∀ j np, j ≠ i → (g.pc j).spawning = some np →
      (g'.core np).pgdir = (g.core np).pgdir ∧ (g'.core np).pid = (g.core np).pid)
    (hx : ∀ d h, pcClaim g'.core i x = some (d, h) → g.Claim d h ∨ P d h) (d : Nat)
    (h : Holder n) (hc : g'.Claim d h) : g.Claim d h ∨ P d h := by
  refine Claim.frame hsame hdir ?_ hc
  intro j d h hj
  rw [hpc] at hj
  by_cases hji : j = i
  · subst hji
    rw [Function.update_self] at hj
    exact hx d h hj
  · rw [Function.update_of_ne hji] at hj
    refine Or.inl (.pc (i := j) ?_)
    rw [← hj]
    exact (pcClaim_congr (fun np => hkeep j np hji)).symm

theorem pgdir_update {g g' : Groups n} {p : Fin n} {c : Core n}
    (hg : g'.core = Function.update g.core p c)
    (hc : c.phase = .active ∨ c.phase = .zombie → c.pgdir = (g.core p).pgdir) (q : Fin n)
    (hq : g'.Begun q) : (g'.core q).pgdir = (g.core q).pgdir := by
  by_cases hqp : q = p
  · subst hqp
    rw [Begun, hg, Function.update_self] at hq
    rw [hg, Function.update_self]
    exact hc hq
  · rw [hg, Function.update_of_ne hqp]

theorem Spawning.keeps {g : Groups n} (hs : g.Spawning) {p : Fin n} {c : Core n}
    (hp : (g.core p).phase ≠ .embryo) (j np : Fin n)
    (hj : (g.pc j).spawning = some np) :
    (Function.update g.core p c np).pgdir = (g.core np).pgdir ∧
      (Function.update g.core p c np).pid = (g.core np).pid := by
  have hne : np ≠ p := by
    rintro rfl
    exact hp (hs.slot j np hj).2
  simp [hne]

theorem Spawning.keeps_own {g : Groups n} (hs : g.Spawning) {i p : Fin n} {c : Core n}
    (hi : (g.pc i).spawning = some p) (j np : Fin n) (hji : j ≠ i)
    (hj : (g.pc j).spawning = some np) :
    (Function.update g.core p c np).pgdir = (g.core np).pgdir ∧
      (Function.update g.core p c np).pid = (g.core np).pid := by
  have hne : np ≠ p := by
    rintro rfl
    exact hji (hs.unique j i np hj hi)
  simp [hne]

theorem Held.of_claims {g g' : Groups n} (hg : g.Held) (hholder : g'.holder = g.holder)
    (hclaim : ∀ d h, g'.Claim d h → g.Claim d h ∨ False) : g'.Held := by
  intro d h hc
  rw [hholder]
  exact hg d h ((hclaim d h hc).resolve_right id)

theorem Held.take {g g' : Groups n} (hg : g.Held) {d : Nat} {h : Holder n}
    (hd : g.holder d = none) (hholder : g'.holder = Function.update g.holder d (some h))
    (hclaim : ∀ d' h', g'.Claim d' h' → g.Claim d' h' ∨ d' = d ∧ h' = h) : g'.Held := by
  intro d' h' hc
  rw [hholder]
  rcases hclaim d' h' hc with hc | ⟨rfl, rfl⟩
  · have hd' := hg d' h' hc
    rw [Function.update_of_ne]
    · exact hd'
    · rintro rfl
      simp [hd'] at hd
  · simp

theorem Held.release {g g' : Groups n} (hg : g.Held) {d : Nat} {h : Holder n}
    (hd : g.holder d = some h) (hholder : g'.holder = Function.update g.holder d none)
    (hclaim : ∀ d' h', g'.Claim d' h' → g.Claim d' h' ∨ False)
    (hne : ∀ d' h', g'.Claim d' h' → h' ≠ h) : g'.Held := by
  intro d' h' hc
  have hd' := hg d' h' ((hclaim d' h' hc).resolve_right id)
  rw [hholder, Function.update_of_ne]
  · exact hd'
  · rintro rfl
    rw [hd, Option.some.injEq] at hd'
    exact hne d' h' hc hd'.symm

theorem held_reap {g g' : Groups n} {i z : Fin n} (hg : g.Held) (hs : g.Spawning) (hp : g.Pids)
    (he : g.Exits) (hz : (g.core z).phase = .zombie)
    (hc : ∀ q, (g.core q).phase = .active → (g.core q).pid ≠ (g.core z).pid)
    (hcore : g'.core = Function.update g.core z (g.core z).freed)
    (hpc : g'.pc = Function.update g.pc i .user)
    (hholder : g'.holder = Function.update g.holder (g.core z).pgdir none) : g'.Held := by
  have hsame : SameBegun g g' :=
    .update hcore (by simp [Core.freed, hz]) (by simp [Core.freed]) (by simp [Core.freed])
  have hdir := pgdir_update hcore (by simp [Core.freed])
  have hkeep : ∀ j np, j ≠ i → (g.pc j).spawning = some np →
      (g'.core np).pgdir = (g.core np).pgdir ∧ (g'.core np).pid = (g.core np).pid := by
    intro j np _ hj
    rw [hcore]
    exact hs.keeps (by simp [hz]) j np hj
  refine hg.release (hg _ _ (.zombie hz hc)) hholder
    (Claim.step hsame hdir hpc hkeep (by simp [pcClaim])) ?_
  rintro d h hcl rfl
  generalize heq : Holder.group (n := n) (g.core z).pid = h at hcl
  cases hcl with
  | @active p hact =>
    rw [hsame.pid p (Or.inl hact), Holder.group.injEq] at heq
    exact hc p ((hsame.active p).mp hact) heq.symm
  | @pc j d h hj =>
    have hji : j ≠ i := by
      rintro rfl
      simp [hpc, pcClaim] at hj
    rw [hpc, Function.update_of_ne hji, pcClaim_congr (fun np => hkeep j np hji), ← heq] at hj
    obtain ⟨np, hnp, hpid⟩ := pcClaim_group hj
    have hembryo := (hs.slot j np hnp).2
    exact hp.fresh np z hembryo (by simp [hz]) (by rintro rfl; simp [hz] at hembryo) hpid.symm
  | @zombie z' hzz hfinal =>
    have hne : z ≠ z' := by
      rintro rfl
      simp [hcore, Core.freed] at hzz
    rw [hsame.pid z' (Or.inr hzz), Holder.group.injEq] at heq
    obtain ⟨q, hq, hqp⟩ := he.alone z z' hz (hsame.zombie z' hzz) hne heq
    exact hc q hq hqp

theorem held_publish {g g' : Groups n} {i np : Fin n} {x : ProcPc n} (hg : g.Held)
    (hs : g.Spawning) (hi : (g.pc i).spawning = some np) (hnp' : (g'.core np).phase = .active)
    (hother : ∀ q, q ≠ np → g'.core q = g.core q) (hholder : g'.holder = g.holder)
    (hclaim : g.Claim (g'.core np).pgdir (.group (g'.core np).pid))
    (hpc : g'.pc = Function.update (Function.update g.pc np .user) i x)
    (hx : x.neutral = true) : g'.Held := by
  have hnp := (hs.slot i np hi).2
  refine hg.of_claims hholder ?_
  intro d h hc
  cases hc with
  | @active p hp =>
    by_cases hpn : p = np
    · rw [hpn]; exact Or.inl hclaim
    · rw [hother p hpn] at hp ⊢
      exact Or.inl (.active hp)
  | @pc j d h hj =>
    rw [hpc] at hj
    by_cases hji : j = i
    · subst hji
      simp [pcClaim_neutral hx] at hj
    · rw [Function.update_of_ne hji] at hj
      by_cases hjn : j = np
      · subst hjn
        simp [pcClaim] at hj
      · rw [Function.update_of_ne hjn] at hj
        refine Or.inl (.pc (i := j) ?_)
        rw [← hj]
        refine (pcClaim_congr ?_).symm
        intro q hq
        rw [hother q]
        · exact ⟨rfl, rfl⟩
        · rintro rfl
          exact hji (hs.unique j i q hq hi)
  | @zombie z hz hfinal =>
    have hzn : z ≠ np := by
      rintro rfl
      simp [hnp'] at hz
    rw [hother z hzn] at hz hfinal ⊢
    refine Or.inl (.zombie hz ?_)
    intro q hq
    have hqn : q ≠ np := by
      rintro rfl
      simp [hnp] at hq
    have := hfinal q (by rw [hother q hqn]; exact hq)
    rwa [hother q hqn] at this

theorem held_die {g g' : Groups n} {i : Fin n} (hg : g.Held) (hd : Dies g g' i)
    (hholder : g'.holder = g.holder)
    (hcase : (∃ q, q ≠ i ∧ (g.core q).phase = .active ∧ (g.core q).pid = (g.core i).pid) ∨
      ∀ q, q ≠ i → g.Begun q → (g.core q).pid ≠ (g.core i).pid) : g'.Held := by
  obtain ⟨hi, hi', hphase, hpid, hdir, hpc⟩ := hd
  refine hg.of_claims hholder ?_
  intro d h hc
  left
  cases hc with
  | @active p hp =>
    have hpi : p ≠ i := by
      rintro rfl
      simp [hi'] at hp
    rw [hphase p hpi] at hp
    rw [hpid p, hdir p]
    exact .active hp
  | @pc j d h hj =>
    refine .pc (i := j) ?_
    rw [← hj, hpc]
    exact (pcClaim_congr (fun np _ => ⟨hdir np, hpid np⟩)).symm
  | @zombie z hz hfinal =>
    rw [hpid z, hdir z]
    by_cases hzi : z = i
    · rw [hzi]
      exact .active hi
    · rw [hphase z hzi] at hz
      have hold : ∀ q, q ≠ i → (g.core q).phase = .active → (g.core q).pid ≠ (g.core z).pid := by
        intro q hqi hq
        have := hfinal q (by rw [hphase q hqi]; exact hq)
        rwa [hpid q, hpid z] at this
      refine .zombie hz ?_
      intro q hq
      by_cases hqi : q = i
      · subst hqi
        rcases hcase with ⟨q', hne, ha, hp⟩ | hlast
        · rw [← hp]
          exact hold q' hne ha
        · exact (hlast z hzi (Or.inr hz)).symm
      · exact hold q hqi hq

theorem held_commit {g g' : Groups n} {i : Fin n} {d sz : Nat} (hg : g.Held) (hs : g.Spawning)
    (hp : g.Pids) (hi : (g.core i).phase = .active) (hpci : g.pc i = .execCommit d sz)
    (hc : ∀ q, q ≠ i → (g.core q).phase = .active → (g.core q).pid ≠ (g.core i).pid)
    (hcore : g'.core = Function.update g.core i { g.core i with pgdir := d })
    (hpc : g'.pc = Function.update g.pc i .user)
    (hholder : g'.holder = Function.update (Function.update g.holder (g.core i).pgdir none) d
      (some (.group (g.core i).pid))) : g'.Held := by
  have hold := hg _ _ (.active hi)
  have hbuild := hg _ _ (.pc (i := i) (by rw [hpci]; rfl))
  have hkeep : ∀ d' h', g.Claim d' h' → h' ≠ .group (g.core i).pid → h' ≠ .building i →
      g'.holder d' = some h' := by
    intro d' h' hcl h1 h2
    have hd' := hg d' h' hcl
    rw [hholder, Function.update_of_ne, Function.update_of_ne]
    · exact hd'
    · rintro rfl
      rw [hold, Option.some.injEq] at hd'
      exact h1 hd'.symm
    · rintro rfl
      rw [hbuild, Option.some.injEq] at hd'
      exact h2 hd'.symm
  intro d' h' hcl
  cases hcl with
  | @active p hact =>
    by_cases hpi : p = i
    · subst hpi
      simp [hcore, hholder]
    · simp only [hcore, Function.update_of_ne hpi] at hact ⊢
      exact hkeep _ _ (.active hact) (by simpa using hc p hpi hact) (by simp)
  | @pc j d' h' hj =>
    have hji : j ≠ i := by
      rintro rfl
      simp [hpc, pcClaim] at hj
    have hj' : pcClaim g.core j (g.pc j) = some (d', h') := by
      rw [← hj, hpc, hcore, Function.update_of_ne hji]
      exact (pcClaim_congr (fun np hnp => hs.keeps (by simp [hi]) j np hnp)).symm
    refine hkeep d' h' (.pc hj') ?_ ?_
    · rintro rfl
      obtain ⟨np, hnp, hpid⟩ := pcClaim_group hj'
      have hembryo := (hs.slot j np hnp).2
      exact hp.fresh np i hembryo (by simp [hi]) (by rintro rfl; simp [hi] at hembryo) hpid.symm
    · rintro rfl
      exact hji (pcClaim_building hj').symm
  | @zombie z hz hfinal =>
    have hsame : SameBegun g g' := .update hcore Iff.rfl id (fun _ => rfl)
    have hzi : z ≠ i := by
      rintro rfl
      simp [hcore, hi] at hz
    have hfin := hsame.final hz hfinal
    simp only [hcore, Function.update_of_ne hzi] at hz ⊢
    exact hkeep _ _ (.zombie hz hfin) (by simpa using (hfin i hi).symm) (by simp)

theorem held_step {g g' : Groups n} {i : Fin n} {a : GroupOp n} (hg : g.Held) (hs : g.Spawning)
    (hp : g.Pids) (he : g.Exits) (hc : g.GroupStep i a) (hk : GStep g i a g') : g'.Held := by
  cases hk with
  | @idle x hi hx =>
    refine hg.of_claims rfl (Claim.step (.refl rfl) (fun _ _ => rfl) rfl (fun _ _ _ _ => ⟨rfl, rfl⟩) ?_)
    rcases hx with rfl | ⟨_, hx⟩
    · exact fun d h hd => Or.inl (.pc hd)
    · simp [pcClaim_neutral hx]
  | @reap z hi hpc hz hpar => exact held_reap hg hs hp he hz hc rfl rfl rfl
  | @spawn k np hi hpc hnp =>
    refine hg.of_claims rfl (Claim.step (.update rfl (by simp [hnp]) (by simp) (by simp))
      (pgdir_update rfl (by simp)) rfl (fun j np _ => hs.keeps (by simp [hnp]) j np) ?_)
    simp [pcClaim]
  | @discard k np d hi hpc =>
    have hown : (g.pc i).spawning = some np := by
      rcases hpc with hpc | hpc <;> simp [hpc, ProcPc.spawning]
    have hembryo := (hs.slot i np hown).2
    refine hg.of_claims rfl (Claim.step (.update rfl (by simp [hembryo]) (by simp) (by simp))
      (pgdir_update rfl (by simp)) rfl (hs.keeps_own hown) ?_)
    simp [pcClaim]
  | @prepare k np hi hpc =>
    refine hg.of_claims rfl (Claim.step (.update rfl Iff.rfl id (fun _ => rfl))
      (pgdir_update rfl (fun _ => rfl)) rfl (hs.keeps_own (by simp [hpc, ProcPc.spawning])) ?_)
    simp [pcClaim]
  | @copy k np d hi hpc hd =>
    have hown : (g.pc i).spawning = some np := by simp [hpc, ProcPc.spawning]
    have hembryo := (hs.slot i np hown).2
    refine hg.take hd rfl (Claim.step (.update rfl Iff.rfl id (fun _ => rfl))
      (pgdir_update rfl (by simp [hembryo])) rfl (hs.keeps_own hown) ?_)
    intro d' h' hj
    right
    cases k <;> simp_all [Procs.afterCopy, pcClaim, Spawn.holder]
  | @publishFork np hi hpc =>
    have hown : (g.pc i).spawning = some np := by simp [hpc, ProcPc.spawning]
    refine held_publish hg hs hown (by simp) (fun q hq => by simp [hq]) rfl ?_ rfl rfl
    refine .pc (i := i) ?_
    simp [hpc, pcClaim]
  | count hi hpc | load hi hpc =>
    refine hg.of_claims rfl (Claim.step (.refl rfl) (fun _ _ => rfl) rfl (fun _ _ _ _ => ⟨rfl, rfl⟩) ?_)
    intro d h hd
    refine Or.inl (.pc (i := i) ?_)
    rw [hpc, ← hd]
    rfl
  | @publishThread np parent hi hpc =>
    have hown : (g.pc i).spawning = some np := by simp [hpc, ProcPc.spawning]
    refine held_publish hg hs hown (by simp) (fun q hq => by simp [hq]) rfl ?_ rfl rfl
    simpa using Claim.active hi
  | @build d sz hi hpc hd =>
    refine hg.take hd rfl (Claim.step (.refl rfl) (fun _ _ => rfl) rfl (fun _ _ _ _ => ⟨rfl, rfl⟩) ?_)
    intro d' h' hj
    right
    simp_all [pcClaim]
  | @abort d sz hi hpc =>
    refine hg.release (hg _ _ (.pc (i := i) (by rw [hpc]; rfl))) rfl
      (Claim.step (.refl rfl) (fun _ _ => rfl) rfl (fun _ _ _ _ => ⟨rfl, rfl⟩) (by simp [pcClaim])) ?_
    rintro d' h' hcl rfl
    generalize heq : Holder.building i = h at hcl
    cases hcl with
    | active hp => cases heq
    | @pc j d' h' hj =>
      rw [← heq] at hj
      obtain rfl := pcClaim_building hj
      simp [pcClaim] at hj
    | zombie hz hfinal => cases heq
  | @commit d sz hi hpc =>
    exact held_commit hg hs hp hi hpc hc rfl rfl rfl
  | exitLast hi hpc hinit halone =>
    refine hg.of_claims rfl (Claim.step (sweep_sameBegun rfl) ?_ rfl ?_ (by simp [pcClaim]))
    · intro q hq
      exact congrArg Core.pgdir (sweep_kept (by rcases hq with hq | hq <;> simp_all))
    · intro j np _ hj
      have hkept : g.sweep i np = g.core np := sweep_of_ne_zombie (by simp [hs.slot j np hj])
      simp [hkept]
  | @exitThread q hi hpc hinit hq =>
    exact held_die hg (.exitThread hi) rfl
      (Or.inl ⟨q, hq.1, hq.active hp hi, hq.2.1⟩)
  | newExit hi hpc hinit =>
    exact held_die hg (.newExit hi) rfl (Or.inr (he.last i hi hpc))

structure Sound (g : Groups n) : Prop where
  spawning : g.Spawning
  pids : g.Pids
  threads : g.Threads
  exits : g.Exits
  held : g.Held

theorem sound_step {g g' : Groups n} {i : Fin n} {a : GroupOp n} (h : g.Sound)
    (hc : g.GroupStep i a) (hk : GStep g i a g') : g'.Sound where
  spawning := spawning_step h.spawning hk
  pids := pids_step h.pids h.spawning (by rintro rfl; exact hc) hk
  threads := threads_step h.threads h.spawning h.pids (by rintro rfl; exact hc) hk
  exits := exits_step h.exits h.spawning h.pids h.threads.distinct hk
  held := held_step h.held h.spawning h.pids h.exits hc hk

theorem Sound.assigned {g : Groups n} (h : g.Sound) {q : Fin n}
    (hq : (g.core q).phase = .active ∨ (g.core q).phase = .embryo)
    (hcopy : ∀ j, (g.pc j).copying ≠ some q) :
    g.holder (g.core q).pgdir = some (.group (g.core q).pid) ∨
      g.holder (g.core q).pgdir = some .leaked := by
  rcases hq with hq | hq
  · exact Or.inl (h.held _ _ (.active hq))
  · obtain ⟨j, hj⟩ := h.spawning.spawner q hq
    cases hpc : g.pc j with
    | spawnInit k np | spawnCopy k np =>
      refine absurd ?_ (hcopy j)
      simpa [hpc, ProcPc.spawning, ProcPc.copying] using hj
    | forkPublish np =>
      obtain rfl : np = q := by simpa [hpc, ProcPc.spawning] using hj
      exact Or.inl (h.held _ _ (.pc (i := j) (by rw [hpc]; rfl)))
    | createCount np | createLoad np | createPublish np =>
      obtain rfl : np = q := by simpa [hpc, ProcPc.spawning] using hj
      exact Or.inr (h.held _ _ (.pc (i := j) (by rw [hpc]; rfl)))
    | _ => simp [hpc, ProcPc.spawning] at hj

theorem Sound.separate {g : Groups n} (h : g.Sound) {z q : Fin n}
    (hz : g.holder (g.core z).pgdir = some (.group (g.core z).pid))
    (hq : (g.core q).phase = .active ∨ (g.core q).phase = .embryo)
    (hcopy : ∀ j, (g.pc j).copying ≠ some q)
    (hpid : (g.core q).pid ≠ (g.core z).pid) : (g.core q).pgdir ≠ (g.core z).pgdir := by
  intro heq
  rcases h.assigned hq hcopy with hq | hq <;> simp [heq, hz] at hq
  exact hpid hq.symm

theorem Sound.pid_ne {g : Groups n} (h : g.Sound) {z q : Fin n} (hz : g.Begun z)
    (hc : (g.core q).phase = .active → (g.core q).pid ≠ (g.core z).pid)
    (hq : (g.core q).phase = .active ∨ (g.core q).phase = .embryo) :
    (g.core q).pid ≠ (g.core z).pid := by
  rcases hq with hq | hq
  · exact hc hq
  · have hzq : z ≠ q := by
      rintro rfl
      rcases hz with hz | hz <;> simp [hz] at hq
    exact (h.pids.fresh q z hq (by rcases hz with hz | hz <;> simp [hz]) hzq).symm

end Groups

namespace Procs

def Counts (s : Procs n) (e : Fin n × ProcOp) : Prop :=
  (e.2 = .spawn .fork ∨ e.2 = .spawn .thread → s.nextpid < 2 ^ 31 - 1) ∧
  (e.2 = .createCount → s.nextThread < 2 ^ 31 - 1 ∧ ∀ j, (s.pc j).counting = false)

instance (s : Procs n) (e : Fin n × ProcOp) : Decidable (s.Counts e) := by
  unfold Counts; infer_instance

def Scans (s : Procs n) (e : Fin n × ProcOp) : Prop :=
  e.2 = .wait ∨ e.2 = .schedule ∧ s.pc e.1 = .waitSleep

instance (s : Procs n) (e : Fin n × ProcOp) : Decidable (s.Scans e) := by
  unfold Scans; infer_instance

def Copied (s : Procs n) : Prop := ∀ j, (s.pc j).copying = none

instance (s : Procs n) : Decidable s.Copied := by unfold Copied; infer_instance

def ChildrenOver (s : Procs n) (i : Fin n) : Prop :=
  ∀ z, (s.ptable z).parent = some i → (s.ptable z).state = .zombie →
    ∀ q, (s.ptable q).active → (s.ptable q).pid ≠ (s.ptable z).pid

instance (s : Procs n) (i : Fin n) : Decidable (s.ChildrenOver i) := by
  unfold ChildrenOver; infer_instance

def OnlyThread (s : Procs n) (i : Fin n) : Prop :=
  ∀ q, q ≠ i → (s.ptable q).active → (s.ptable q).pid ≠ (s.ptable i).pid

instance (s : Procs n) (i : Fin n) : Decidable (s.OnlyThread i) := by
  unfold OnlyThread; infer_instance

def ReapStep (s : Procs n) (e : Fin n × ProcOp) : Prop :=
  s.Counts e ∧ (s.Scans e → s.Copied ∧ s.ChildrenOver e.1) ∧
    (e.2 = .execCommit → s.Copied ∧ s.OnlyThread e.1)

instance (s : Procs n) (e : Fin n × ProcOp) : Decidable (s.ReapStep e) := by
  unfold ReapStep; infer_instance

structure FreesAlone (s : Procs n) (e : Fin n × ProcOp) : Prop where
  wait : ∀ z, s.Reaps e.1 e.2 z → ∀ q, q ≠ z → (s.ptable q).live →
    (s.ptable q).pgdir ≠ (s.ptable z).pgdir ∧ (s.ptable q).pid ≠ (s.ptable z).pid
  exec : ∀ pgdir sz, e.2 = .execCommit → (s.ptable e.1).state = .running →
    s.pc e.1 = .execCommit pgdir sz → ∀ q, q ≠ e.1 → (s.ptable q).live →
      (s.ptable q).pgdir ≠ (s.ptable e.1).pgdir

theorem phase_active {s : Procs n} {p : Fin n} :
    (s.groups.core p).phase = .active ↔ (s.ptable p).active := by
  simp only [groups, Proc.core, Proc.active, Proc.live]
  cases (s.ptable p).state <;> simp [ProcState.phase]

theorem reaps_child {s : Procs n} {i z : Fin n} {op : ProcOp} (h : s.Reaps i op z) :
    s.Scans (i, op) ∧ (s.ptable z).parent = some i ∧ (s.ptable z).state = .zombie := by
  obtain ⟨b, he, hz⟩ := h
  have hz := zombieChild_some hz
  rcases he with ⟨hop, _, _, rfl⟩ | ⟨hop, _, hpc, rfl⟩
  · exact ⟨Or.inl hop, hz⟩
  · refine ⟨Or.inr ⟨hop, hpc⟩, ?_⟩
    by_cases hzi : z = i
    · subst hzi
      simp [awake] at hz
    · simpa [awake, hzi] using hz

theorem groupStep {s : Procs n} {i : Fin n} {op : ProcOp} {a : GroupOp n} (hc : s.ReapStep (i, op))
    (ha : s.Does i op a) : s.groups.GroupStep i a := by
  obtain ⟨⟨hspawn, hcount⟩, hwait, hcommit⟩ := hc
  cases a with
  | spawn =>
    obtain ⟨k, hk⟩ := ha
    exact hspawn (by cases k <;> simp [hk])
  | count => exact hcount ha
  | reap z =>
    obtain ⟨hscan, hpar, hz⟩ := reaps_child ha
    intro q hq
    exact (hwait hscan).2 z hpar hz q (phase_active.mp hq)
  | commit =>
    intro q hqi hq
    exact (hcommit ha).2 q hqi (phase_active.mp hq)
  | _ => trivial

theorem boot_sound {s : Procs n} (h : s.Boot) : s.groups.Sound := by
  have hinit : s.groups.core s.initproc =
      ⟨.active, 1, (s.ptable s.initproc).pgdir, 0, none, s.forker s.initproc⟩ := by
    change (s.ptable s.initproc).core _ = _
    rw [h.init]
    rfl
  have hfree : ∀ p, p ≠ s.initproc → (s.groups.core p).phase = .free := by
    intro p hp
    simp only [groups, h.others p hp, Proc.core]
    rfl
  have hpc : ∀ p, s.groups.pc p = .user := h.pc
  have honly : ∀ p, (s.groups.core p).phase ≠ .free → p = s.initproc := by
    intro p hp
    by_contra hne
    exact hp (hfree p hne)
  have hphase : ∀ p, (s.groups.core p).phase = .active ∨ (s.groups.core p).phase = .free := by
    intro p
    by_cases hp : p = s.initproc
    · subst hp
      simp [hinit]
    · exact Or.inr (hfree p hp)
  have hembryo : ∀ p, (s.groups.core p).phase ≠ .embryo := by
    intro p
    rcases hphase p with hp | hp <;> simp [hp]
  have hbegun : ∀ p, s.groups.Begun p → p = s.initproc := by
    intro p hp
    exact honly p (by rcases hp with hp | hp <;> simp [hp])
  refine ⟨⟨?_, ?_, ?_⟩, ⟨?_, ?_, ?_⟩, ⟨?_, ?_, ?_, ?_, ?_, ?_⟩, ⟨?_, ?_⟩, ?_⟩
  · simp [hpc, ProcPc.spawning]
  · simp [hpc, ProcPc.spawning]
  · exact fun np hnp => absurd hnp (hembryo np)
  · simp [groups, h.nextpid]
  · intro p hp
    obtain rfl := honly p hp
    simp [hinit, show s.groups.nextpid = 2 from h.nextpid]
  · exact fun p _ hp => absurd hp (hembryo p)
  · simp [groups, h.nextThread]
  · intro p hp
    obtain rfl := hbegun p hp
    simp [hinit, show s.groups.nextThread = 0 from h.nextThread]
  · simp [hpc, ProcPc.counting]
  · simp [hpc, ProcPc.counting]
  · simp [hpc, ProcPc.forking]
  · intro p q hp hq hne
    exact absurd ((hbegun p hp).trans (hbegun q hq).symm) hne
  · intro z z' hz hz' hne
    exact absurd ((hbegun z (Or.inr hz)).trans (hbegun z' (Or.inr hz')).symm) hne
  · simp [hpc]
  · intro d v hcl
    cases hcl with
    | @active p hp =>
      obtain rfl := hbegun p (Or.inl hp)
      simp [hinit, show s.groups.holder = _ from h.holder]
    | pc hi => simp [hpc, Groups.pcClaim] at hi
    | @zombie z hz hfinal =>
      obtain rfl := hbegun z (Or.inr hz)
      simp [hinit] at hz

theorem reapStep_sound {s t : Procs n} {e : Fin n × ProcOp} (h : s.groups.Sound)
    (hc : s.ReapStep e) (hs : s.step e = some t) : t.groups.Sound := by
  obtain ⟨a, hk, ha⟩ := pstep_gstep (step_pstep hs)
  exact Groups.sound_step h (groupStep hc ha) hk

theorem reapStep_freesAlone {s : Procs n} {e : Fin n × ProcOp} (h : s.groups.Sound)
    (hc : s.ReapStep e) : s.FreesAlone e where
  wait z hz q hqz hq := by
    obtain ⟨hscan, hpar, hzombie⟩ := reaps_child hz
    obtain ⟨hcopy, hpid⟩ := hc.2.1 hscan
    have hz : (s.groups.core z).phase = .zombie := congrArg ProcState.phase hzombie
    have hq : (s.groups.core q).phase = .active ∨ (s.groups.core q).phase = .embryo :=
      (s.ptable q).live_iff.mp hq
    have hfinal : ∀ q, (s.groups.core q).phase = .active →
        (s.groups.core q).pid ≠ (s.groups.core z).pid :=
      fun q hq => hpid z hpar hzombie q (phase_active.mp hq)
    have hne := h.pid_ne (Or.inr hz) (hfinal q) hq
    exact ⟨h.separate (h.held _ _ (.zombie hz hfinal)) hq (fun j => by simp [groups, hcopy j]) hne, hne⟩
  exec pgdir sz hop hrun hpc q hqi hq := by
    obtain ⟨hcopy, hpid⟩ := hc.2.2 hop
    have hi : (s.groups.core e.1).phase = .active := phase_running hrun
    have hq : (s.groups.core q).phase = .active ∨ (s.groups.core q).phase = .embryo :=
      (s.ptable q).live_iff.mp hq
    have hne := h.pid_ne (Or.inl hi) (fun hq => hpid q hqi (phase_active.mp hq)) hq
    exact h.separate (h.held _ _ (.active hi)) hq (fun j => by simp [groups, hcopy j]) hne

def forkOps (i np : Fin n) (kstack pgdir : Nat) : List (Fin n × ProcOp) :=
  [(i, .spawn .fork), (i, .spawnInit (some kstack)), (i, .spawnCopy (some pgdir)),
    (i, .forkPublish), (i, .forkClear), (np, .schedule)]

def createOps (i np : Fin n) (kstack pgdir : Nat) : List (Fin n × ProcOp) :=
  [(i, .spawn .thread), (i, .spawnInit (some kstack)), (i, .spawnCopy (some pgdir)),
    (i, .createCount), (i, .createLoad), (i, .createPublish), (np, .schedule)]

def threadExits : List (Fin nproc × ProcOp) :=
  (0, .schedule) :: forkOps 0 1 3 4 ++ createOps 1 2 5 6 ++ [(2, .exit)]

def processExits : List (Fin nproc × ProcOp) :=
  threadExits ++ [(1, .exit), (1, .newExit), (0, .wait)]

end Procs
end Xv6
