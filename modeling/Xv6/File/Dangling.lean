import Xv6.File.Refs

namespace Xv6

open RefCount

variable {n : Nat}

namespace Files

variable {s t : Files n} {i : Fin n}

theorem procEffect_cases {i : Fin n} {op : ProcOp} {pc : ProcPc n} {fpc : FilePc}
    (h : s.procEffect i op pc fpc = some t) :
    (∃ np ip, op = .forkPublish ∧ pc = .forkPublish np ∧ fpc = .forkDup nofile ∧
        s.cwd i = some ip ∧
        t = (((s.setIcache (idup s.icache ip)).setCwd np (some ip)).setHome np ip).goto i .idle) ∨
      (∃ np, op = .createPublish ∧ (∃ q, pc = .createPublish np q) ∧ fpc = .idle ∧
        t = s.inherit i np) ∨
      (op = .newExit ∧ fpc = .exited ∧ t = s.goto i .idle) ∨
      (op ≠ .forkPublish ∧ op ≠ .newExit ∧
        (op = .createPublish → ∀ np, ¬ ∃ q, pc = .createPublish np q) ∧
        (fpc = .idle ∨ op = .schedule ∨ op = .yield) ∧ ∃ kills, t = { s with kills := kills }) := by
  unfold procEffect at h
  split at h
  · cases h
    exact Or.inr (Or.inr (Or.inr ⟨by simp, by simp, by simp, by simp, s.kills, rfl⟩))
  · cases h
    exact Or.inr (Or.inr (Or.inr ⟨by simp, by simp, by simp, by simp, s.kills, rfl⟩))
  · rename_i np k
    split at h
    · rename_i hk
      obtain ⟨ip, hip, rfl⟩ := Option.map_eq_some_iff.mp h
      subst hk
      exact Or.inl ⟨np, ip, rfl, rfl, rfl, hip, rfl⟩
    · cases h
  · cases h
  · rename_i np q
    cases h
    exact Or.inr (Or.inl ⟨np, rfl, ⟨_, rfl⟩, rfl, rfl⟩)
  · cases h
    exact Or.inr (Or.inr (Or.inl ⟨rfl, rfl, rfl⟩))
  · cases h
  · rename_i pid
    cases h
    exact Or.inr (Or.inr (Or.inr ⟨by simp, by simp, by simp, by simp, _, rfl⟩))
  · cases h
    exact Or.inr (Or.inr (Or.inr ⟨by simp_all, by simp_all, by simp_all, by simp, s.kills, rfl⟩))
  · cases h

theorem Vacant.held {p : Fin n} (h : s.Vacant p) (fd : Fin nofile) (f : Fin nfile) :
    s.held p fd ≠ some f := by
  rw [Ne, held_some]
  simp [h.1 fd]

theorem Vacant.workdir {p : Fin n} (h : s.Vacant p) (j : Fin ninode) : s.workdir p ≠ some j := by
  intro hj
  have hcwd := workdir_cwd hj
  rw [h.2] at hcwd
  cases hcwd

theorem goto_idle_le (s : Files n) (i p : Fin n) :
    (∀ f, ((s.goto i .idle).fpc p).file f ≤ (s.fpc p).file f) ∧
      ∀ j, ((s.goto i .idle).fpc p).inode j ≤ (s.fpc p).inode j := by
  by_cases hpi : p = i
  · subst hpi
    simp [FilePc.file, FilePc.inode]
  · simp [hpi]

section Proc

variable {procs : Procs n} {pop : ProcOp}

theorem procEffect_ofile {pc : ProcPc n} {fpc : FilePc} (h : s.procEffect i pop pc fpc = some t)
    (p : Fin n) : t.ofile p = s.ofile p ∨ pop = .createPublish ∧ ∃ q, pc = .createPublish p q := by
  rcases procEffect_cases h with ⟨np, ip, _, _, _, _, rfl⟩ | ⟨np, hop, hpc, _, rfl⟩ |
    ⟨_, _, rfl⟩ | ⟨_, _, _, _, kills, rfl⟩
  · exact Or.inl rfl
  · by_cases hpn : p = np
    · subst hpn
      exact Or.inr ⟨hop, hpc⟩
    · exact Or.inl (by simp [inherit, hpn])
  · exact Or.inl rfl
  · exact Or.inl rfl

theorem procEffect_idle {pc : ProcPc n} {fpc : FilePc} (h : s.procEffect i pop pc fpc = some t)
    (hswitch : pop ≠ .schedule ∧ pop ≠ .yield) (hend : pop ≠ .forkPublish ∧ pop ≠ .newExit) :
    fpc = .idle := by
  rcases procEffect_cases h with ⟨np, ip, hop, _⟩ | ⟨np, _, _, hf, _⟩ | ⟨hop, _⟩ |
    ⟨_, _, _, hf | hop | hop, _⟩
  · exact absurd hop hend.1
  · exact hf
  · exact absurd hop hend.2
  · exact hf
  · exact absurd hop hswitch.1
  · exact absurd hop hswitch.2

theorem procEffect_fpc {pc : ProcPc n} {fpc : FilePc} (h : s.procEffect i pop pc fpc = some t)
    (p : Fin n) : t.fpc p = s.fpc p ∨
      p = i ∧ t.fpc p = .idle ∧ (pop = .forkPublish ∨ pop = .newExit ∧ fpc = .exited) := by
  rcases procEffect_cases h with ⟨np, ip, hop, _, _, _, rfl⟩ | ⟨np, _, _, _, rfl⟩ |
    ⟨hop, hf, rfl⟩ | ⟨_, _, _, _, kills, rfl⟩
  · by_cases hpi : p = i
    · subst hpi
      exact Or.inr ⟨rfl, by simp, Or.inl hop⟩
    · exact Or.inl (by simp [hpi])
  · exact Or.inl rfl
  · by_cases hpi : p = i
    · subst hpi
      exact Or.inr ⟨rfl, by simp, Or.inr ⟨hop, hf⟩⟩
    · exact Or.inl (by simp [hpi])
  · exact Or.inl rfl

theorem proc_tidy (h : s.Tidy) (hp : Procs.PStep s.procs i pop procs)
    (he : s.procEffect i pop (s.procs.pc i) (s.fpc i) = some t)
    (hvacant : ∀ k, pop = .spawn k → ∀ np, allocSlot s.procs.ptable = some np →
      ∀ fd, s.ofile np fd = none) : (t.setProcs procs).Tidy := by
  refine ⟨Groups.spawning_step h.spawning (Procs.pstep_groupOp hp), ?_, ?_⟩
  · intro p (hact : ¬ (procs.ptable p).active)
    change t.fpc p = .idle
    rcases procEffect_fpc he p with hf | ⟨_, hf, _⟩
    · rw [hf]
      by_cases hold : (s.procs.ptable p).active
      · rcases Procs.active_stays h.spawning hp hold with hnew | ⟨rfl, rfl | rfl⟩
        · exact absurd hnew hact
        · exact procEffect_idle he (by simp) (by simp)
        · rcases procEffect_cases he with ⟨_, _, hop, _⟩ | ⟨_, hop, _⟩ | ⟨_, _, rfl⟩ | ⟨_, hop, _⟩
          · cases hop
          · cases hop
          · simpa using hf.symm
          · exact absurd rfl hop
      · exact h.idle p hold
    · exact hf
  · intro p (hp' : (procs.ptable p).state = .embryo) (hno : ∀ j, procs.pc j ≠ .forkPublish p) fd
    change t.ofile p fd = none
    rw [(procEffect_ofile he p).resolve_right (by
      rintro ⟨rfl, q, hpc⟩
      simp [(Procs.createPublish_pid hp hpc).2] at hp')]
    rcases Procs.embryo_step h.spawning hp hp' with hold | ⟨⟨k, hk⟩, ha⟩
    · refine h.embryo p hold (fun j hj => ?_) fd
      rcases Procs.forking_step h.spawning hp hj with hpc | ⟨rfl, rfl⟩
      · exact hno j hpc
      · simp [(Procs.forkPublish_state hp hj).1] at hp'
    · exact hvacant k hk p ha fd

theorem live_kept (h : s.Tidy) (hp : Procs.PStep s.procs i pop procs)
    (hspawn : ∀ k, pop ≠ .spawn k) (hcreate : pop ≠ .createPublish) {p : Fin n}
    (hl : (procs.ptable p).live) : s.live p ∧ (procs.ptable p).pid = s.pid p := by
  rcases Procs.live_step h.spawning hp hl with hold | ⟨⟨k, hk⟩, _⟩ | ⟨hc, _⟩
  · exact hold
  · exact absurd hk (hspawn k)
  · exact absurd hc hcreate

theorem switch_refs (h : s.Refs) (hp : Procs.PStep s.procs i pop procs)
    (hvacant : ∀ k, pop = .spawn k → ∀ np, allocSlot s.procs.ptable = some np → s.Vacant np)
    (hfork : pop ≠ .forkPublish)
    (hcreate : pop = .createPublish → ∀ np, ¬ ∃ q, s.procs.pc i = .createPublish np q)
    {kills : List Int} (ht : t = { s with kills := kills }) (htidy : (t.setProcs procs).Tidy) :
    (t.setProcs procs).Refs := by
  subst ht
  have hlive : ∀ p, (procs.ptable p).live →
      s.live p ∧ (procs.ptable p).pid = s.pid p ∨ s.Vacant p := by
    intro p hl
    rcases Procs.live_step h.spawning hp hl with hold | ⟨⟨k, hk⟩, ha⟩ | ⟨hc, hpc, _⟩
    · exact Or.inl hold
    · exact Or.inr (hvacant k hk p ha)
    · exact absurd hpc (hcreate hc p)
  refine ⟨htidy, ?_, ?_, ?_, ?_, ?_⟩
  · refine h.files.weaken (fun _ => le_rfl) fun a hact => ?_
    cases a with
    | proc p =>
      rcases hlive p hact with ⟨hl, hpid⟩ | hv
      · exact Or.inr ⟨.proc p, hl, congrArg Owner.group hpid, fun _ => le_rfl⟩
      · exact Or.inl fun f => tally_eq_zero fun fd => hv.held fd f
    | call p => exact Or.inr ⟨.call p, trivial, rfl, fun _ => le_rfl⟩
    | file f => exact Or.inl fun _ => rfl
  · refine h.inodes.weaken (fun _ => le_rfl) fun a hact => ?_
    cases a with
    | proc p =>
      rcases hlive p hact with ⟨hl, hpid⟩ | hv
      · exact Or.inr ⟨.proc p, hl, congrArg Owner.group hpid, fun _ => le_rfl⟩
      · exact Or.inl fun j => if_neg (hv.workdir j)
    | call p => exact Or.inr ⟨.call p, trivial, rfl, fun _ => le_rfl⟩
    | file f => exact Or.inr ⟨.file f, trivial, rfl, fun _ => le_rfl⟩
  · intro p fd f hl hf
    rcases hlive p hl with ⟨hl, _⟩ | hv
    · exact h.since p fd f hl hf
    · exact absurd hf (hv.held fd f)
  · intro p j hl hj
    rcases hlive p hl with ⟨hl, _⟩ | hv
    · exact h.home p j hl hj
    · exact absurd hj (hv.workdir j)
  · intro p hact hnone
    rcases Procs.active_step hp hact with hact | ⟨hop, _⟩ | ⟨hop, hpc⟩
    · exact h.cwd p hact hnone
    · exact absurd hop hfork
    · exact absurd hpc (hcreate hop p)

theorem fork_refs {np : Fin n} {ip : Fin ninode} (h : s.Refs) (hb : s.Bounded)
    (hp : Procs.PStep s.procs i .forkPublish procs) (hpc : s.procs.pc i = .forkPublish np)
    (hf : s.fpc i = .forkDup nofile) (hip : s.cwd i = some ip)
    (ht : t = (((s.setIcache (idup s.icache ip)).setCwd np (some ip)).setHome np ip).goto i .idle)
    (htidy : (t.setProcs procs).Tidy) : (t.setProcs procs).Refs := by
  have hslot := h.spawning.slot i np (by simp [Procs.groups, hpc, ProcPc.spawning])
  have hacti := Procs.phase_active.mp hslot.1
  have hw : s.workdir i = s.cwd i := by simp [workdir, hf]
  have hlive : ∀ p, (procs.ptable p).live → s.live p ∧ (procs.ptable p).pid = s.pid p :=
    fun p => live_kept h.toTidy hp (by simp) (by simp)
  have hheld : ∀ p, (t.setProcs procs).held p = s.held p := by
    intro p
    by_cases hpi : p = i
    · subst hpi; simp [held, setProcs, ht, hf]
    · simp [held, setProcs, ht, hpi]
  have hwd : ∀ p j, p ≠ np → (t.setProcs procs).workdir p = some j → s.workdir p = some j := by
    intro p j hpn hj
    by_cases hpi : p = i
    · subst hpi
      simpa [hw, setProcs, ht, hpn] using workdir_cwd hj
    · rwa [workdir_congr (s := s) (by simp [setProcs, ht, hpi]) (by simp [setProcs, ht, hpn])] at hj
  have hnp : ∀ j, (t.setProcs procs).workdir np = some j → ip = j := by
    intro j hj
    simpa [setProcs, ht] using workdir_cwd hj
  have href := takes_ref (hb.2 ip)
    (Or.inl ⟨h.inode_alive hacti.1 (hw.trans hip), rfl⟩ : Takes s.icache ip _)
  refine ⟨htidy, ?_, ?_, ?_, ?_, ?_⟩
  · refine h.files.weaken (fun _ => by simp [setProcs, ht]) fun a hact => Or.inr ⟨a, ?_⟩
    cases a with
    | proc p =>
      obtain ⟨hl, hpid⟩ := hlive p hact
      exact ⟨hl, congrArg Owner.group hpid, fun f => le_of_eq (congrArg (tally · f) (hheld p))⟩
    | call p =>
      subst ht
      exact ⟨trivial, rfl, (goto_idle_le s i p).1⟩
    | file f => exact hact.elim
  · refine h.inodes.take (.proc np) ip (by simpa [setProcs, ht] using href.1)
      (by simpa [setProcs, ht] using href.2) (fun a ha hact => Or.inr ⟨a, ?_⟩)
      (fun hl => ⟨(hlive np hl).1, congrArg Owner.group (hlive np hl).2⟩) (fun k => ?_)
    · cases a with
      | proc p =>
        obtain ⟨hl, hpid⟩ := hlive p hact
        have hpn : p ≠ np := fun hpn => ha (congrArg Account.proc hpn)
        exact ⟨hl, congrArg Owner.group hpid, fun j => workdir_le (hwd p j hpn)⟩
      | call p =>
        subst ht
        exact ⟨trivial, rfl, (goto_idle_le s i p).2⟩
      | file f => exact ⟨trivial, rfl, fun _ => by simp [inodeBooks, setProcs, ht]⟩
    · by_cases hk : (t.setProcs procs).workdir np = some k
      · simp [inodeBooks, hk, hnp k hk]
      · simp [inodeBooks, hk]
  · intro p fd f hl hf'
    rw [hheld] at hf'
    simpa [setProcs, ht] using h.since p fd f (hlive p hl).1 hf'
  · intro p j hl hj
    by_cases hpn : p = np
    · subst hpn
      obtain rfl := hnp j hj
      simp [setProcs, ht]
    · simpa [setProcs, ht, hpn, idup_inum] using h.home p j (hlive p hl).1 (hwd p j hpn hj)
  · intro p hact hnone
    have hpn : p ≠ np := by
      rintro rfl
      simp [setProcs, ht] at hnone
    rcases Procs.active_step hp hact with hold | ⟨_, hpc'⟩ | ⟨hop, _⟩
    · have hx := h.cwd p hold (by simpa [setProcs, ht, hpn] using hnone)
      have hpi : p ≠ i := by
        rintro rfl
        simp [hf] at hx
      simpa [setProcs, ht, hpi] using hx
    · rw [hpc] at hpc'
      exact absurd (ProcPc.forkPublish.inj hpc').symm hpn
    · cases hop

theorem create_refs {np : Fin n} {q : Option (Fin n)} (h : s.Refs)
    (hp : Procs.PStep s.procs i .createPublish procs)
    (hpc : s.procs.pc i = .createPublish np q) (hf : s.fpc i = .idle) (ht : t = s.inherit i np)
    (htidy : (t.setProcs procs).Tidy) : (t.setProcs procs).Refs := by
  subst ht
  have hspawn : (s.procs.groups.pc i).spawning = some np := by
    simp [Procs.groups, hpc, ProcPc.spawning]
  have hslot := h.spawning.slot i np hspawn
  have hacti := Procs.phase_active.mp hslot.1
  have hembryo := Procs.phase_embryo.mp hslot.2
  have hempty : ∀ fd, s.ofile np fd = none := by
    refine h.embryo np hembryo fun j hj => ?_
    have hji := h.spawning.unique j i np (by simp [Procs.groups, hj, ProcPc.spawning]) hspawn
    subst hji
    simp [hpc] at hj
  have hpid := (Procs.createPublish_pid hp hpc).1
  have hrow : (s.inherit i np).ofile np = s.ofile i := by
    funext fd
    simp [inherit, hempty fd]
  have hnp : s.fpc np = .idle := h.idle np (by simp [Proc.active, hembryo])
  have hheld : ∀ p, p ≠ np → ((s.inherit i np).setProcs procs).held p = s.held p := by
    intro p hpn
    simp [held, setProcs, inherit, hpn]
  have hheldnp : ((s.inherit i np).setProcs procs).held np = s.held i := by
    simp only [held, setProcs, hrow, hf]
    simp only [inherit, hnp]
  have hwd : ∀ p, p ≠ np → ((s.inherit i np).setProcs procs).workdir p = s.workdir p := by
    intro p hpn
    simp [workdir, setProcs, inherit, hpn]
  have hwdnp : ((s.inherit i np).setProcs procs).workdir np = s.workdir i := by
    simp [workdir, setProcs, inherit, hf, hnp]
  have hlive : ∀ p, (procs.ptable p).live → p ≠ np →
      s.live p ∧ (procs.ptable p).pid = s.pid p := by
    intro p hl hpn
    rcases Procs.live_step h.spawning hp hl with hold | ⟨⟨k, hk⟩, _⟩ | ⟨_, ⟨_, hpc'⟩, _⟩
    · exact hold
    · cases hk
    · rw [hpc] at hpc'
      cases hpc'
      exact absurd rfl hpn
  refine ⟨htidy, ?_, ?_, ?_, ?_, ?_⟩
  · refine h.files.weaken (fun _ => le_rfl) fun a hact => Or.inr ?_
    cases a with
    | proc p =>
      by_cases hpn : p = np
      · subst hpn
        exact ⟨.proc i, hacti.1, congrArg Owner.group hpid,
          fun f => le_of_eq (congrArg (tally · f) hheldnp)⟩
      · obtain ⟨hl, hpid⟩ := hlive p hact hpn
        exact ⟨.proc p, hl, congrArg Owner.group hpid,
          fun f => le_of_eq (congrArg (tally · f) (hheld p hpn))⟩
    | call p => exact ⟨.call p, trivial, rfl, fun _ => le_rfl⟩
    | file f => exact hact.elim
  · refine h.inodes.weaken (fun _ => le_rfl) fun a hact => Or.inr ?_
    cases a with
    | proc p =>
      by_cases hpn : p = np
      · subst hpn
        exact ⟨.proc i, hacti.1, congrArg Owner.group hpid, fun j => workdir_le (hwdnp ▸ id)⟩
      · obtain ⟨hl, hpid⟩ := hlive p hact hpn
        exact ⟨.proc p, hl, congrArg Owner.group hpid, fun j => workdir_le (hwd p hpn ▸ id)⟩
    | call p => exact ⟨.call p, trivial, rfl, fun _ => le_rfl⟩
    | file f => exact ⟨.file f, trivial, rfl, fun _ => le_rfl⟩
  · intro p fd f hl hfd
    by_cases hpn : p = np
    · subst hpn
      rw [hheldnp, held_some] at hfd
      simp [setProcs, inherit, hfd.1]
    · rw [hheld p hpn] at hfd
      simpa [setProcs, inherit, hpn] using h.since p fd f (hlive p hl hpn).1 hfd
  · intro p j hl hj
    by_cases hpn : p = np
    · subst hpn
      simpa [setProcs, inherit] using h.home i j hacti.1 (hwdnp ▸ hj)
    · simpa [setProcs, inherit, hpn] using h.home p j (hlive p hl hpn).1 (hwd p hpn ▸ hj)
  · intro p hact hnone
    by_cases hpn : p = np
    · subst hpn
      have hx := h.cwd i hacti (by simpa [setProcs, inherit] using hnone)
      simp [hf] at hx
    · rcases Procs.active_step hp hact with hold | ⟨hop, _⟩ | ⟨_, _, hpc'⟩
      · exact h.cwd p hold (by simpa [setProcs, inherit, hpn] using hnone)
      · cases hop
      · rw [hpc] at hpc'
        cases hpc'
        exact absurd rfl hpn

theorem exit_refs (h : s.Refs) (hp : Procs.PStep s.procs i .newExit procs)
    (ht : t = s.goto i .idle) (htidy : (t.setProcs procs).Tidy) : (t.setProcs procs).Refs := by
  subst ht
  have hzombie := (Procs.newExit_state hp).1
  have hne : ∀ p, (procs.ptable p).live → p ≠ i := by
    rintro p hl rfl
    simp [Proc.live, hzombie] at hl
  have hfpc : ∀ p, p ≠ i → ((s.goto i .idle).setProcs procs).fpc p = s.fpc p := by
    intro p hpi
    simp [setProcs, hpi]
  have hheld : ∀ p, p ≠ i → ((s.goto i .idle).setProcs procs).held p = s.held p := by
    intro p hpi
    simp [held, setProcs, hpi]
  have hlive : ∀ p, (procs.ptable p).live → s.live p ∧ (procs.ptable p).pid = s.pid p :=
    fun p => live_kept h.toTidy hp (by simp) (by simp)
  refine ⟨htidy, ?_, ?_, ?_, ?_, ?_⟩
  · refine h.files.weaken (fun _ => le_rfl) fun a hact => Or.inr ⟨a, ?_⟩
    cases a with
    | proc p =>
      obtain ⟨hl, hpid⟩ := hlive p hact
      exact ⟨hl, congrArg Owner.group hpid,
        fun f => le_of_eq (congrArg (tally · f) (hheld p (hne p hact)))⟩
    | call p => exact ⟨trivial, rfl, (goto_idle_le s i p).1⟩
    | file f => exact hact.elim
  · refine h.inodes.weaken (fun _ => le_rfl) fun a hact => Or.inr ⟨a, ?_⟩
    cases a with
    | proc p =>
      obtain ⟨hl, hpid⟩ := hlive p hact
      have hwd := workdir_congr (hfpc p (hne p hact)) rfl
      exact ⟨hl, congrArg Owner.group hpid, fun _ => workdir_le (hwd ▸ id)⟩
    | call p => exact ⟨trivial, rfl, (goto_idle_le s i p).2⟩
    | file f => exact ⟨trivial, rfl, fun _ => le_rfl⟩
  · intro p fd f hl hf
    rw [hheld p (hne p hl)] at hf
    exact h.since p fd f (hlive p hl).1 hf
  · intro p j hl hj
    rw [workdir_congr (hfpc p (hne p hl)) rfl] at hj
    exact h.home p j (hlive p hl).1 hj
  · intro p hact hnone
    rcases Procs.active_step hp hact with hold | ⟨hop, _⟩ | ⟨hop, _⟩
    · rw [hfpc p (hne p hact.1)]
      exact h.cwd p hold hnone
    · cases hop
    · cases hop

theorem proc_refs (h : s.Refs) (hb : s.Bounded) (hu : s.Unshared (i, .proc pop))
    (hp : Procs.PStep s.procs i pop procs)
    (he : s.procEffect i pop (s.procs.pc i) (s.fpc i) = some t) : (t.setProcs procs).Refs := by
  have hvacant : ∀ k, pop = .spawn k → ∀ np, allocSlot s.procs.ptable = some np → s.Vacant np := by
    rintro k rfl
    exact hu.2.2 (by cases k <;> simp)
  have htidy := proc_tidy h.toTidy hp he fun k hk np ha => (hvacant k hk np ha).1
  rcases procEffect_cases he with ⟨np, ip, rfl, hpc, hf, hip, ht⟩ | ⟨np, rfl, ⟨q, hpc⟩, hf, ht⟩ |
    ⟨rfl, _, ht⟩ | ⟨hfork, _, hcreate, _, kills, ht⟩
  · exact fork_refs h hb hp hpc hf hip ht htidy
  · exact create_refs h hp hpc hf ht htidy
  · exact exit_refs h hp ht htidy
  · exact switch_refs h hp hvacant hfork hcreate ht htidy

end Proc

def FileStep (s : Files n) (e : Fin n × FileOp) : Prop := s.Bounded ∧ s.Unshared e

instance (s : Files n) (e : Fin n × FileOp) : Decidable (s.FileStep e) := by
  unfold FileStep; infer_instance

theorem refs_step {e : Fin n × FileOp} (h : s.Refs) (hc : s.FileStep e) (hs : s.step e = some t) :
    t.Refs := by
  obtain ⟨i, op⟩ := e
  have hk := step_fstep hs
  by_cases hop : ∃ pop, op = .proc pop
  · obtain ⟨pop, rfl⟩ := hop
    cases hk with
    | proc hp he => exact proc_refs h hc.1 hc.2 hp he
    | refused hpc hf hop => exact absurd rfl (hop pop)
  · have hop' : ∀ pop, op ≠ .proc pop := fun pop hp => hop ⟨pop, hp⟩
    exact running_refs h hc.1 hc.2 (step_running hs hop') hop' hk

theorem boot_tidy (h : s.Boot) : s.Tidy :=
  ⟨(Procs.boot_sound h.procs).spawning, by simp [h.fpc], by simp [h.ofile]⟩

theorem boot_refs (h : s.Boot) : s.Refs := by
  have hother : ∀ p, p ≠ s.procs.initproc → (s.procs.ptable p).state = .unused := by
    intro p hp
    rw [h.procs.others p hp]
  have hlive : ∀ p, s.live p → p = s.procs.initproc := by
    intro p hl
    by_contra hp
    simp [Files.live, Proc.live, hother p hp] at hl
  have hheld : ∀ p fd, s.held p fd = none := by
    intro p fd
    simp [held, h.fpc, h.ofile]
  have hwd : ∀ p, s.workdir p = s.cwd p := fun p => by simp [workdir, h.fpc]
  have hcwd : ∀ p j, s.cwd p = some j → p = s.procs.initproc ∧ j = 0 := by
    intro p j hj
    rw [h.cwd] at hj
    by_cases hp : p = s.procs.initproc
    · subst hp
      exact ⟨rfl, by simpa using hj.symm⟩
    · simp [hp] at hj
  refine ⟨boot_tidy h, ?_, ?_, ?_, ?_, ?_⟩
  · refine ⟨fun _ => 0, fun f => by simp [h.ftable], fun a _ f => ?_⟩
    cases a with
    | proc p => exact le_of_eq (tally_eq_zero fun fd => by simp [hheld])
    | call p => simp [fileBooks, h.fpc, FilePc.file]
    | file g => exact le_rfl
  · refine ⟨Function.update (fun _ => 0) 0 {.group 1}, fun j => ?_, fun a hact j => ?_⟩
    · by_cases hj : j = 0
      · subst hj; simp [h.icache]
      · simp [h.icache, hj]
    · cases a with
      | proc p =>
        obtain rfl := hlive p hact
        have hpid : s.pid s.procs.initproc = 1 := by rw [Files.pid, h.procs.init]
        by_cases hj : j = 0
        · subst hj; simp [inodeBooks, Files.owner, hpid, hwd, h.cwd]
        · simp [inodeBooks, hj, hwd, h.cwd, Ne.symm hj]
      | call p => simp [inodeBooks, h.fpc, FilePc.inode]
      | file g => simp [inodeBooks, h.ftable, File.inode]
  · intro p fd f _ hf
    simp [hheld] at hf
  · intro p j _ hj
    obtain ⟨rfl, rfl⟩ := hcwd p j ((hwd p).symm.trans hj)
    simp [h.icache, h.home]
  · intro p hact hnone
    have hp := hlive p hact.1
    simp [h.cwd, hp] at hnone

structure NoDangling (s : Files n) : Prop where
  ofile : ∀ p fd f, s.live p → s.ofile p fd = some f → (∀ ip, s.fpc p ≠ .exitPut fd ip) →
    1 ≤ (s.ftable f).ref ∧ s.since p fd = s.opened f
  cwd : ∀ p ip, s.live p → s.workdir p = some ip →
    1 ≤ (s.icache ip).ref ∧ (s.icache ip).inum = s.home p
  present : ∀ p, (s.procs.ptable p).active → s.cwd p = none → s.fpc p = .exited

def counted (s : Files n) (i : Fin n) : FileOp → ProcPc n → FilePc → Option (Fin nfile)
  | .dup fd, .user, .idle => if fdalloc (s.ofile i) = none then none else s.ofile i fd
  | .drop, .user, .drops (.file f :: _) _ => some f
  | .forkDup, .forkPublish _, .idle => s.ofile i 0
  | .forkDup, .forkPublish _, .forkDup k => if hk : k < nofile then s.ofile i ⟨k, hk⟩ else none
  | .exitClose, .newExit, .idle => (s.openFd i).map Prod.snd
  | _, _, _ => none

def NoPanic (s : Files n) (e : Fin n × FileOp) : Prop :=
  (s.procs.ptable e.1).state = .running →
    ∀ f, s.counted e.1 e.2 (s.procs.pc e.1) (s.fpc e.1) = some f → 1 ≤ (s.ftable f).ref

theorem refs_noDangling (h : s.Refs) : s.NoDangling where
  ofile p fd f hp hf hx := by
    have hheld := held_some.mpr ⟨hf, hx⟩
    exact ⟨h.file_alive hp hheld, h.since p fd f hp hheld⟩
  cwd p ip hp hip := ⟨h.inode_alive hp hip, h.home p ip hp hip⟩
  present := h.cwd

theorem refs_noPanic (h : s.Refs) (e : Fin n × FileOp) : s.NoPanic e := by
  obtain ⟨i, op⟩ := e
  intro hs f hf
  have hlive : s.live i := by simp [Files.live, Proc.live, show (s.procs.ptable i).state = _ from hs]
  have halive : ∀ fd, s.ofile i fd = some f → (∀ ip, s.fpc i ≠ .exitPut fd ip) →
      1 ≤ (s.ftable f).ref := fun fd ho hx => h.file_alive hlive (held_some.mpr ⟨ho, hx⟩)
  dsimp only at hf
  generalize hpc : s.procs.pc i = pc at hf
  generalize hfpc : s.fpc i = fpc at hf
  unfold counted at hf
  split at hf
  · split at hf
    · cases hf
    · exact halive _ hf (by simp [hfpc])
  · cases hf
    exact h.files.alive (a := .call i) trivial (by simp [fileBooks, hfpc, FilePc.file])
  · exact halive _ hf (by simp [hfpc])
  · split at hf
    · exact halive _ hf (by simp [hfpc])
    · cases hf
  · obtain ⟨⟨fd, g⟩, ho, rfl⟩ := Option.map_eq_some_iff.mp hf
    exact halive fd (openFd_some ho) (by simp [hfpc])
  · cases hf

theorem no_dangling_descriptor {es : List (Fin n × FileOp)} (hb : s.Boot)
    (hc : GuardedRun.along step FileStep s es) :
    (∀ t, s.run es = some t → t.NoDangling) ∧ GuardedRun.along step NoPanic s es := by
  have hstep : ∀ (s : Files n) e t, s.Refs → s.FileStep e → s.step e = some t → t.Refs :=
    fun s e t => refs_step
  refine ⟨fun t ht => refs_noDangling (GuardedRun.run_invariant hstep (boot_refs hb) hc ht), ?_⟩
  exact GuardedRun.along_of_invariant hstep (fun s e hr _ => refs_noPanic hr e) (boot_refs hb) hc

def procOps (es : List (Fin n × ProcOp)) : List (Fin n × FileOp) :=
  es.map fun e => (e.1, .proc e.2)

def openRoot (i : Fin n) : List (Fin n × FileOp) :=
  [(i, .lookup .open true), (i, .openAlloc), (i, .openStore)]

def closeFd (i : Fin n) (fd : Fin nofile) (drops : Nat) : List (Fin n × FileOp) :=
  (i, .close fd) :: List.replicate drops (i, .drop)

def threadCloses : List (Fin nproc × FileOp) :=
  (0, .proc .schedule) :: openRoot 0 ++ procOps (Procs.createOps 0 1 3 4) ++ closeFd 0 0 3

theorem thread_descriptor_dangles :
    ∃ t, (userinit (0 : Fin nproc) 1 2).Boot ∧ (userinit 0 1 2).run threadCloses = some t ∧
      ¬ t.NoDangling ∧ ¬ t.NoPanic (1, .dup 0) := by
  have hrun : ∃ t, (userinit (0 : Fin nproc) 1 2).run threadCloses = some t ∧
      (t.procs.ptable 1).state = .running ∧ t.ofile 1 0 = some 0 ∧ t.fpc 1 = .idle ∧
      t.procs.pc 1 = .user ∧ fdalloc (t.ofile 1) = some 1 ∧ (t.ftable 0).ref = 0 :=
    GuardedRun.exists_of_any (by decide +kernel)
  obtain ⟨t, ht, hlive, hf, hidle, hpc, hfd, href⟩ := hrun
  refine ⟨t, userinit_boot 0 1 (by decide), ht, fun h => ?_, fun h => ?_⟩
  · have := (h.ofile 1 0 0 (by simp [Files.live, Proc.live, hlive]) hf (by simp [hidle])).1
    omega
  · have := h hlive 0 (by simp [counted, hpc, hidle, hfd, hf])
    omega

def forkFiles (i np : Fin n) (kstack pgdir : Nat) : List (Fin n × FileOp) :=
  procOps ((Procs.forkOps i np kstack pgdir).take 3) ++ List.replicate nofile (i, .forkDup) ++
    procOps ((Procs.forkOps i np kstack pgdir).drop 3)

def childCloses : List (Fin nproc × FileOp) :=
  (0, .proc .schedule) :: openRoot 0 ++ (0, .dup 0) :: forkFiles 0 1 3 4 ++ closeFd 1 0 2 ++
    [(1, .proc .exit), (1, .exitClose), (1, .exitCwd), (1, .exitStore), (1, .proc .newExit),
      (0, .proc .wait)]

theorem no_dangling_descriptor_forked :
    ∃ t, (userinit (0 : Fin nproc) 1 2).run childCloses = some t ∧ t.procs.eax 0 = 2 ∧
      t.ofile 0 1 = some 0 ∧ (t.ftable 0).ref = 2 ∧ t.NoDangling := by
  have hrun : ∃ t, (userinit (0 : Fin nproc) 1 2).run childCloses = some t ∧
      t.procs.eax 0 = 2 ∧ t.ofile 0 1 = some 0 ∧ (t.ftable 0).ref = 2 :=
    GuardedRun.exists_of_any (by decide +kernel)
  obtain ⟨t, ht, heax, hfd, href⟩ := hrun
  have hc : GuardedRun.along step FileStep (userinit (0 : Fin nproc) 1 2) childCloses :=
    GuardedRun.along_of_checks (by decide +kernel)
  exact ⟨t, ht, heax, hfd, href, (no_dangling_descriptor (userinit_boot 0 1 (by decide)) hc).1 t ht⟩

end Files
end Xv6
