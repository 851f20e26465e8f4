import Xv6.Proc.Sizes

namespace Xv6

open Vm (Mapped Ok Keeps Works)

namespace Kernel

variable {n : Nat} {L : Layout} {s : Kernel n} {role : Nat → Role} {vm : Vm} {i : Fin n}

def Alone (s : Procs n) (i : Fin n) : Prop :=
  ∀ q, q ≠ i → (s.ptable q).active → (s.ptable q).pgdir ≠ (s.ptable i).pgdir

def SizeStep (s : Kernel n) (e : Fin n × KernelOp) : Prop :=
  ∀ k, e.2 = .sbrk k → k ≠ 0 → Alone s.procs e.1 ∧
    s.vm.GrowthExact (s.procs.ptable e.1).pgdir (s.procs.ptable e.1).sz k

theorem phase_iff (s : Procs n) (p : Fin n) :
    (s.ptable p).state.phase = .active ↔ (s.ptable p).active := Procs.phase_active

theorem resize_ptable (i : Fin n) (vm : Vm) (r : Option Nat) :
    (s.resize i vm r).procs.ptable = Function.update s.procs.ptable i
      { s.procs.ptable i with sz := r.getD (s.procs.ptable i).sz } := by
  cases r with
  | none => exact (Function.update_eq_self i s.procs.ptable).symm
  | some sz => rfl

theorem resize_pc (hpc : s.procs.pc i = .user) (vm : Vm) (r : Option Nat) :
    (s.resize i vm r).procs.pc = s.procs.pc := by
  have hsame : Function.update s.procs.pc i .user = s.procs.pc := by
    rw [← hpc, Function.update_eq_self]
  cases r <;> exact hsame

theorem resize_groups (hpc : s.procs.pc i = .user) (vm : Vm) (r : Option Nat) :
    (s.resize i vm r).procs.groups = s.procs.groups := by
  have hcores : cores (s.resize i vm r).procs.ptable (s.resize i vm r).procs.forker =
      cores s.procs.ptable (s.resize i vm r).procs.forker := by
    rw [resize_ptable]
    exact cores_update_same _ _ i rfl
  refine Procs.groups_eq (hcores.trans ?_) (resize_pc hpc vm r) ?_ ?_ ?_ ?_ <;> cases r <;> rfl

theorem resize_slot (vm : Vm) (r : Option Nat) (p : Fin n) :
    ((s.resize i vm r).procs.ptable p).pgdir = (s.procs.ptable p).pgdir ∧
      ((s.resize i vm r).procs.ptable p).kstack = (s.procs.ptable p).kstack ∧
      ((s.resize i vm r).procs.ptable p).state = (s.procs.ptable p).state ∧
      (p ≠ i → ((s.resize i vm r).procs.ptable p).sz = (s.procs.ptable p).sz) := by
  rw [resize_ptable]
  by_cases hp : p = i
  · subst hp
    simp
  · simp [hp]

theorem Sized.unshared (h : Sized L s role) (hs : (s.procs.ptable i).state = .running)
    {j np : Fin n} (hj : s.procs.pc j = .forkPublish np) :
    np ≠ i ∧ (s.procs.ptable np).pgdir ≠ (s.procs.ptable i).pgdir := by
  have hembryo := (h.spawning.slot j np (congrArg ProcPc.spawning hj)).2
  have hactive : (s.procs.ptable i).state.phase = .active := by rw [hs]; rfl
  have hne : np ≠ i := by
    rintro rfl
    exact absurd (hembryo.symm.trans hactive) (by simp)
  refine ⟨hne, fun hpgdir => hne (h.own j np i (s.procs.ptable i).sz hj ?_).symm⟩
  rw [hpgdir]
  exact .active hactive

theorem Sized.resize_space (h : Sized L s role) (hs : (s.procs.ptable i).state = .running)
    (hpc : s.procs.pc i = .user) (halone : Alone s.procs i) (vm : Vm) (r : Option Nat) {p : Fin n}
    {d z : Nat} (hp : (s.resize i vm r).procs.Space p d z) :
    p = i ∧ d = (s.procs.ptable i).pgdir ∧ z = r.getD (s.procs.ptable i).sz ∨
      d ≠ (s.procs.ptable i).pgdir ∧ s.procs.Space p d z := by
  have hslot := resize_slot (s := s) (i := i) vm r
  cases hp with
  | active hp =>
    by_cases hpi : p = i
    · subst hpi
      refine Or.inl ⟨rfl, (hslot p).1, ?_⟩
      rw [resize_ptable, Function.update_self]
    · rw [(hslot p).2.2.1] at hp
      rw [(hslot p).1, (hslot p).2.2.2 hpi]
      exact Or.inr ⟨halone p hpi ((phase_iff _ p).mp hp), .active hp⟩
  | @copied j _ hj =>
    rw [resize_pc hpc] at hj
    have hji : j ≠ i := by
      rintro rfl
      simp [hpc] at hj
    rw [(hslot p).1, (hslot j).2.2.2 hji]
    exact Or.inr ⟨(h.unshared hs hj).2, .copied hj⟩

theorem Sized.resize_stacked (hpc : s.procs.pc i = .user) (vm : Vm) (r : Option Nat) {p : Fin n}
    (hp : (s.resize i vm r).procs.Stacked p) : s.procs.Stacked p := by
  unfold Procs.Stacked at hp
  rwa [(resize_slot vm r p).2.2.1, resize_pc hpc] at hp

theorem Sized.grow (h : Sized L s role) (hs : (s.procs.ptable i).state = .running)
    (hpc : s.procs.pc i = .user) (halone : Alone s.procs i) {k : Int} {r : Option Nat}
    (hexact : s.vm.GrowthExact (s.procs.ptable i).pgdir (s.procs.ptable i).sz k)
    (hgrow : s.vm.growproc L (s.procs.ptable i).pgdir (s.procs.ptable i).sz k = .ok (vm, r)) :
    ∃ role', Sized L (s.resize i vm r) role' := by
  have hactive : (s.procs.ptable i).state.phase = .active := by rw [hs]; rfl
  obtain ⟨hdir, hm, hsz⟩ := h.space i _ _ (.active hactive)
  obtain ⟨vm', role', r', hgrow', hworks, hgrown⟩ := Vm.growproc_spec h.ok hdir hm hsz k
  rw [hgrow, Except.ok.injEq, Prod.mk.injEq] at hgrow'
  obtain ⟨rfl, rfl⟩ := hgrow'
  have hslot := resize_slot (s := s) (i := i) vm r
  have hvm : (s.resize i vm r).vm = vm := by cases r <;> rfl
  have hholder : (s.resize i vm r).procs.holder = s.procs.holder := by cases r <;> rfl
  have hspace := fun {p d z} => h.resize_space hs hpc halone vm r (p := p) (d := d) (z := z)
  refine ⟨role', ?_, ?_, ?_, ?_, ?_, ?_, ?_, ?_⟩
  · rw [hvm]
    exact hworks.ok
  · rw [resize_groups hpc]
    exact h.spawning
  · rw [resize_pc hpc]
    exact h.basic
  · intro p d z hp
    rw [hvm]
    rcases hspace hp with ⟨_, rfl, rfl⟩ | ⟨hd, hp⟩
    · exact ⟨hworks.dir, hgrown hexact⟩
    · obtain ⟨hrole, hmapped, hz⟩ := h.space p d z hp
      obtain ⟨hrole', hpage⟩ := hworks.keeps.dir d hd hrole
      exact ⟨hrole', fun v hv => by rw [hpage, hmapped v hv], hz⟩
  · intro p q d z z' hp hq
    rcases hspace hp with ⟨_, hd, hz⟩ | ⟨hd, hp'⟩ <;> rcases hspace hq with ⟨_, hd', hz'⟩ | ⟨hd', hq'⟩
    · rw [hz, hz']
    · exact absurd hd hd'
    · exact absurd hd' hd
    · exact h.same p q d z z' hp' hq'
  · intro j np q z hj hq
    rw [resize_pc hpc] at hj
    rw [(hslot np).1] at hq
    rcases hspace hq with ⟨_, hd, _⟩ | ⟨_, hq⟩
    · exact absurd hd (h.unshared hs hj).2
    · exact h.own j np q z hj hq
  · intro p hp
    have hrole := h.stack p (Sized.resize_stacked hpc vm r hp)
    rw [(hslot p).2.1]
    refine hworks.keeps.stack _ ?_ _ hrole
    rintro heq
    rw [heq, hdir] at hrole
    cases hrole
  · intro d hd
    rw [hholder] at hd
    by_cases hdi : d = (s.procs.ptable i).pgdir
    · rw [hdi]
      exact hworks.dir
    · exact (hworks.keeps.dir d hdi (h.holder d hd)).1

theorem Sized.sbrk (h : Sized L s role) (hs : (s.procs.ptable i).state = .running)
    (hpc : s.procs.pc i = .user) {k : Int} {r : Option Nat} (hc : SizeStep s (i, .sbrk k))
    (hgrow : s.vm.growproc L (s.procs.ptable i).pgdir (s.procs.ptable i).sz k = .ok (vm, r)) :
    ∃ role', Sized L (s.resize i vm r) role' := by
  by_cases hk : k = 0
  · subst hk
    cases hgrow
    have hspawn : (s.resize i s.vm (some (s.procs.ptable i).sz)).procs.groups.Spawning := by
      rw [resize_groups hpc]
      exact h.spawning
    refine ⟨role, h.fades hspawn ⟨?_, ?_, rfl⟩ h.ok (.refl _ _) fun _ _ hp => hp⟩
    · exact fades_update (.refl _)
    · intro j
      exact Or.inl (congrFun (resize_pc hpc s.vm (some (s.procs.ptable i).sz)) j)
  · obtain ⟨halone, hexact⟩ := hc k rfl hk
    exact h.grow hs hpc halone hexact hgrow

theorem step_sized {t : Kernel n} {e : Fin n × KernelOp} (h : ∃ role, Sized L s role)
    (hc : SizeStep s e) (hstep : s.step L e = some t) : ∃ role, Sized L t role := by
  obtain ⟨role, h⟩ := h
  obtain ⟨i, op⟩ := e
  have hk := step_kstep L hstep
  cases hk with
  | plain hop hp => exact ⟨role, h.plain hop hp⟩
  | stackFail hk hp =>
    obtain ⟨rfl, _⟩ := Vm.kalloc_none hk
    exact ⟨role, h.fades (pstep_spawning h.spawning hp) (Procs.pstep_fades hp rfl h.basic) h.ok
      (.refl _ _) fun _ _ hrole => hrole⟩
  | stack hk hp => exact h.allocStack hk hp
  | copyFail hs hpc hcopy hfree hp => exact h.copyFail hs hpc hcopy hfree hp
  | copy hs hpc hcopy => exact h.copy hs hpc hcopy
  | exit hstacks hp => exact h.exit hstacks hp
  | sbrk hs hpc hgrow => exact h.sbrk hs hpc hc hgrow

theorem userinit_space {initproc : Fin n} {kstack pgdir : Nat} {p : Fin n} {d k : Nat}
    (h : (Procs.userinit initproc kstack pgdir).Space p d k) :
    p = initproc ∧ d = pgdir ∧ k = 4096 := by
  cases h with
  | active hp =>
    have hpi : p = initproc := by
      by_contra hpi
      simp [Procs.userinit, hpi, ProcState.phase] at hp
    subst hpi
    simp [Procs.userinit]
  | copied hj => simp [Procs.userinit] at hj

theorem userinit_stacked {initproc : Fin n} {kstack pgdir : Nat} {p : Fin n}
    (h : (Procs.userinit initproc kstack pgdir).Stacked p) : p = initproc := by
  by_contra hpi
  rcases h with hp | hp | ⟨j, hj⟩
  · simp [Procs.userinit, hpi, ProcState.phase] at hp
  · simp [Procs.userinit, hpi, ProcState.phase] at hp
  · simp [Procs.userinit, ProcPc.stacked] at hj

theorem userinit_sized (initproc : Fin n) (code : List UInt8) (h : vm.Boot L)
    (hcode : code.length < pgsize) :
    ∃ kstack pgdir vm' role, userinit L initproc code vm =
        .ok ⟨Procs.userinit initproc kstack pgdir, vm'⟩ ∧
      Sized L ⟨Procs.userinit initproc kstack pgdir, vm'⟩ role ∧
      vm.freelist.length ≤ vm'.freelist.length + 2052 := by
  have henough := h.enough
  cases hk : vm.kalloc with
  | mk vm₁ r =>
    cases r with
    | none =>
      rw [(Vm.kalloc_none hk).2] at henough
      simp at henough
    | some kstack =>
      have hp := Vm.kalloc_some hk
      have hok := h.ok.popped hp (r := .stack initproc) (by simp) rfl
      have hlen₁ := hp.length
      obtain ⟨vm₂, role₂, r, hsetup, hok₂, hkeeps₂, hnil, hnew, hlen₂⟩ := Vm.setupkvm_spec hok
      cases r with
      | none =>
        rw [hnil rfl, List.length_nil] at hlen₂
        omega
      | some pgdir =>
        have hdir := hnew pgdir rfl
        obtain ⟨vm₃, role₃, hinit, hworks, hmapped, hlen₃⟩ := Vm.inituvm_spec code hok₂
          hdir.dir (fun w hw => by simp [hdir.page w hw]) hcode (by omega)
        have hboot : (Procs.userinit initproc kstack pgdir).Boot :=
          Procs.userinit_boot initproc kstack (hok₂.ne_zero (by simp [hdir.dir]))
        refine ⟨kstack, pgdir, vm₃, role₃, ?_, ⟨hworks.ok, (Procs.boot_sound hboot).spawning,
          fun j => rfl, ?_, ?_, ?_, ?_, ?_⟩, by omega⟩
        · rw [userinit, hk]
          simp only [hsetup]
          change (vm₂.inituvm pgdir code >>= fun vm => _) = _
          rw [hinit]
          rfl
        · intro p d k hspace
          obtain ⟨_, rfl, rfl⟩ := userinit_space hspace
          exact ⟨hworks.dir, hmapped, by simp⟩
        · intro p q d k k' hp hq
          rw [(userinit_space hp).2.2, (userinit_space hq).2.2]
        · intro j np q k hj
          simp [Procs.userinit] at hj
        · intro p hstacked
          rw [userinit_stacked hstacked]
          have hrole := hkeeps₂.stack kstack trivial initproc (by simp)
          have hne : kstack ≠ pgdir := by
            rintro rfl
            simp [hdir.dir] at hrole
          simpa [Procs.userinit] using hworks.keeps.stack kstack hne initproc hrole
        · intro d hd
          by_cases hdp : d = pgdir
          · rw [hdp]
            exact hworks.dir
          · simp [Procs.userinit, hdp] at hd

structure SizesAgree (s : Kernel n) : Prop where
  same : ∀ p q, (s.procs.ptable p).active → (s.procs.ptable q).active →
    (s.procs.ptable p).pgdir = (s.procs.ptable q).pgdir →
    (s.procs.ptable p).sz = (s.procs.ptable q).sz
  mapped : ∀ p, (s.procs.ptable p).active → ∀ va < kernbase,
    (s.vm.mapped (s.procs.ptable p).pgdir va = true ↔ va < pgroundup (s.procs.ptable p).sz)

theorem Sized.sizesAgree (h : Sized L s role) : s.SizesAgree := by
  refine ⟨?_, ?_⟩
  · intro p q hp hq hpgdir
    refine h.same p q _ _ _ (.active ((phase_iff _ p).mpr hp)) ?_
    rw [hpgdir]
    exact .active ((phase_iff _ q).mpr hq)
  · intro p hp va hva
    obtain ⟨_, hm, hsz⟩ := h.space p _ _ (.active ((phase_iff _ p).mpr hp))
    exact hm.iff hsz hva

theorem Sized.growproc_ok (h : Sized L s role) {p : Fin n} (hp : (s.procs.ptable p).active)
    (k : Int) :
    ∃ r, s.vm.growproc L (s.procs.ptable p).pgdir (s.procs.ptable p).sz k = .ok r := by
  obtain ⟨hdir, hm, hsz⟩ := h.space p _ _ (.active ((phase_iff _ p).mpr hp))
  obtain ⟨vm', _, r, hgrow, _⟩ := Vm.growproc_spec h.ok hdir hm hsz k
  exact ⟨(vm', r), hgrow⟩

theorem userinit_code {initproc : Fin n} {code : List UInt8}
    (hs : userinit L initproc code vm = .ok s) : code.length < pgsize := by
  by_contra hcode
  unfold userinit at hs
  split at hs
  · cases hs
  · rename_i vm₁ kstack _
    cases hsetup : vm₁.setupkvm L with
    | error e =>
      rw [hsetup] at hs
      cases hs
    | ok x =>
      obtain ⟨vm₂, r⟩ := x
      rw [hsetup] at hs
      cases r with
      | none => cases hs
      | some pgdir =>
        have hinit : vm₂.inituvm pgdir code = .error .inituvmTooBig := by
          rw [Vm.inituvm, if_pos (by omega)]
        change (vm₂.inituvm pgdir code >>= fun vm => _) = _ at hs
        rw [hinit] at hs
        cases hs

theorem threads_agree_on_size {initproc : Fin n} {code : List UInt8}
    {es : List (Fin n × KernelOp)} (hvm : vm.Boot L) (hs : userinit L initproc code vm = .ok s)
    (hc : GuardedRun.along (step L) SizeStep s es) :
    ∀ t, run L s es = some t → t.SizesAgree ∧
      ∀ p, (t.procs.ptable p).active → ∀ k,
        ∃ r, t.vm.growproc L (t.procs.ptable p).pgdir (t.procs.ptable p).sz k = .ok r := by
  intro t ht
  obtain ⟨kstack, pgdir, vm', role, hs', hboot, _⟩ := userinit_sized initproc code hvm
    (userinit_code hs)
  rw [hs, Except.ok.injEq] at hs'
  subst hs'
  obtain ⟨role', hsized⟩ := GuardedRun.run_invariant (I := fun s => ∃ role, Sized L s role)
    (fun s e t => step_sized) ⟨role, hboot⟩ hc ht
  exact ⟨hsized.sizesAgree, fun p hp k => hsized.growproc_ok hp k⟩

def smallLayout : Layout := sampleLayout

def smallVm : Vm := ⟨List.range' 400 8000, ⟨fun _ _ => none, fun _ _ => none⟩, fun _ _ => 0⟩

theorem smallVm_boot : smallVm.Boot smallLayout := by
  refine ⟨?_, List.nodup_range', ?_⟩
  · intro p hp
    simp only [smallVm, List.mem_range'_1] at hp
    simp only [smallLayout, sampleLayout]
    omega
  · simp [smallVm]

def createThread : List (Fin nproc × KernelOp) :=
  [(0, .schedule), (0, .spawn .thread), (0, .spawnInit), (0, .spawnCopy), (0, .createCount),
    (0, .createLoad), (0, .createPublish), (1, .schedule)]

section

variable (kstack pgdir kstack' pgdir' : Nat)

def started : Procs nproc :=
  (Procs.userinit 0 kstack pgdir).setTable
    (setState (Procs.userinit 0 kstack pgdir).ptable 0 .running)

def allocated : Procs nproc := ((started kstack pgdir).allocproc 1).goto 0 (.spawnInit .thread 1)

def prepared : Procs nproc :=
  ((allocated kstack pgdir).prepare 1 kstack' .thread).goto 0 (.spawnCopy .thread 1)

def copied : Procs nproc :=
  ((prepared kstack pgdir kstack').install 1 pgdir' .thread).goto 0 (.createCount 1)

def counted : Procs nproc :=
  { copied kstack pgdir kstack' pgdir' with nextThread := 1 }.goto 0 (.createLoad 1)

def loaded : Procs nproc := (counted kstack pgdir kstack' pgdir').goto 0 (.createPublish 1 none)

def published : Procs nproc :=
  ((loaded kstack pgdir kstack' pgdir').publishThread 0 1 none).returns 0 1

def created : Procs nproc :=
  (published kstack pgdir kstack' pgdir').setTable
    (setState (published kstack pgdir kstack' pgdir').ptable 1 .running)

theorem createThread_run {vm vm₁ vm₂ : Vm} (hk : vm.kalloc = (vm₁, some kstack'))
    (hcopy : vm₁.copyuvm L pgdir 4096 = .ok (vm₂, some pgdir')) :
    run L ⟨Procs.userinit 0 kstack pgdir, vm⟩ createThread =
      some ⟨created kstack pgdir kstack' pgdir', vm₂⟩ := by
  refine (GuardedRun.run_cons _).mpr ⟨⟨started kstack pgdir, vm⟩, rfl, ?_⟩
  refine (GuardedRun.run_cons _).mpr ⟨⟨allocated kstack pgdir, vm⟩, rfl, ?_⟩
  refine (GuardedRun.run_cons _).mpr ⟨⟨prepared kstack pgdir kstack', vm₁⟩, ?_, ?_⟩
  · change allocStack ⟨allocated kstack pgdir, vm⟩ 0 = _
    rw [allocStack, hk]
    rfl
  refine (GuardedRun.run_cons _).mpr ⟨⟨copied kstack pgdir kstack' pgdir', vm₂⟩, ?_, ?_⟩
  · change copySpace L ⟨prepared kstack pgdir kstack', vm₁⟩ 0 = _
    rw [copySpace_ok L rfl rfl hcopy]
    rfl
  refine (GuardedRun.run_cons _).mpr ⟨⟨counted kstack pgdir kstack' pgdir', vm₂⟩, rfl, ?_⟩
  refine (GuardedRun.run_cons _).mpr ⟨⟨loaded kstack pgdir kstack' pgdir', vm₂⟩, rfl, ?_⟩
  refine (GuardedRun.run_cons _).mpr ⟨⟨published kstack pgdir kstack' pgdir', vm₂⟩, rfl, ?_⟩
  exact (GuardedRun.run_cons _).mpr ⟨⟨created kstack pgdir kstack' pgdir', vm₂⟩, rfl, rfl⟩

end

theorem createThread_boot : ∃ kstack pgdir kstack' pgdir' vm s role,
    userinit smallLayout (0 : Fin nproc) [] smallVm = .ok s ∧
      run smallLayout s createThread = some ⟨created kstack pgdir kstack' pgdir', vm⟩ ∧
      Sized smallLayout ⟨created kstack pgdir kstack' pgdir', vm⟩ role ∧
      2 < vm.freelist.length := by
  obtain ⟨kstack, pgdir, vm₀, role, hs, hboot, hlen⟩ := userinit_sized (0 : Fin nproc) []
    smallVm_boot (by simp)
  rw [smallVm, List.length_range'] at hlen
  obtain ⟨hdir, hm, _⟩ := hboot.space 0 pgdir 4096 (.active rfl)
  cases hk : vm₀.kalloc with
  | mk vm₁ r =>
    cases r with
    | none =>
      rw [(Vm.kalloc_none hk).2, List.length_nil] at hlen
      omega
    | some kstack' =>
      have hp := Vm.kalloc_some hk
      have hlen₁ := hp.length
      have hkeeps := hboot.ok.keeps_popped (D := Set.univ) (r := .held) hp
      obtain ⟨hdir₁, hpage⟩ := hkeeps.dir pgdir trivial hdir
      have hpages : pages 4096 = 1 := rfl
      obtain ⟨vm₂, role₂, r, hcopy, _, _, hnew, hnone⟩ := Vm.copyuvm_spec 4096
        (hboot.ok.popped hp (r := .held) (by simp) rfl) hdir₁ (by simp)
        (fun v hv => by rw [hpage, hm v hv])
      cases r with
      | none =>
        have := hnone rfl
        omega
      | some pgdir' =>
        have hlen₂ := (hnew pgdir' rfl).2
        have hrun := createThread_run (L := smallLayout) kstack pgdir kstack' pgdir' hk hcopy
        have hc : GuardedRun.along (step smallLayout) SizeStep
            ⟨Procs.userinit 0 kstack pgdir, vm₀⟩ createThread :=
          GuardedRun.along_of_forall (by simp [createThread, SizeStep]) _
        obtain ⟨role', hsized⟩ := GuardedRun.run_invariant
          (I := fun s => ∃ role, Sized smallLayout s role) (fun s e t => step_sized) ⟨role, hboot⟩ hc
          hrun
        exact ⟨kstack, pgdir, kstack', pgdir', vm₂, _, role', hs, hrun, hsized, by omega⟩

theorem demand_one (f : Nat → Bool) (v : Nat) : Vm.demand f v 1 ≤ 2 := by
  simp only [Vm.demand]
  split <;> omega

theorem growthExact_page {vm : Vm} (d : Nat) (hlen : 2 < vm.freelist.length) :
    vm.GrowthExact d 4096 4096 := by
  refine ⟨fun _ => ?_, by simp⟩
  have hsize : Vm.addInt 4096 4096 = 8192 := Vm.addInt_ofNat 4096 4096 (by simp)
  have hdemand := demand_one (vm.present d) 1
  rw [hsize]
  change vm.freelist.length + 1 ≠ Vm.demand (vm.present d) 1 1
  omega

theorem Sized.grows_page (h : Sized L s role) (hs : (s.procs.ptable i).state = .running)
    (hpc : s.procs.pc i = .user) (hsz : (s.procs.ptable i).sz = 4096)
    (hlen : 2 < s.vm.freelist.length) :
    ∃ vm' role', s.step L (i, .sbrk 4096) = some (s.resize i vm' (some 8192)) ∧
      Ok L vm' role' ∧ role' (s.procs.ptable i).pgdir = .dir ∧
      Mapped vm' (s.procs.ptable i).pgdir 2 ∧ vm'.freelist ≠ [] := by
  have hspace := Procs.Space.active (s := s.procs) (p := i) (by rw [hs]; rfl)
  rw [hsz] at hspace
  obtain ⟨hdir, hm, _⟩ := h.space i _ _ hspace
  have hdemand := demand_one (s.vm.present (s.procs.ptable i).pgdir) 1
  obtain ⟨vm', role', hgrow, hworks, hm', hlen'⟩ := Vm.growproc_grows 4096 4096
    h.ok hdir hm (by omega) (by simp) (hdemand.trans hlen.le)
  rw [Nat.cast_ofNat] at hgrow
  refine ⟨vm', role', ?_, hworks.ok, hworks.dir, hm', ?_⟩
  · change s.sbrk L i 4096 = _
    rw [Kernel.sbrk, hs, hpc, hsz]
    simp only [hgrow]
  · intro hnil
    have hdemand' := hlen'.trans (Nat.add_le_add_left hdemand _)
    rw [hnil, List.length_nil] at hdemand'
    omega

theorem sizes_diverge : ∃ s t, smallVm.Boot smallLayout ∧
    userinit smallLayout (0 : Fin nproc) [] smallVm = .ok s ∧
    run smallLayout s (createThread ++ [(0, .sbrk 4096)]) = some t ∧
    (t.procs.ptable 0).active ∧ (t.procs.ptable 1).active ∧
    (t.procs.ptable 0).pgdir = (t.procs.ptable 1).pgdir ∧
    (t.procs.ptable 0).sz = 8192 ∧ (t.procs.ptable 1).sz = 4096 ∧
    (t.procs.ptable 1).state = .running ∧ t.procs.pc 1 = .user ∧
    t.vm.growproc smallLayout (t.procs.ptable 1).pgdir (t.procs.ptable 1).sz 4096 =
      .error .remap := by
  obtain ⟨kstack, pgdir, kstack', pgdir', vm, s, role, hs, hrun, hsized, hlen⟩ := createThread_boot
  obtain ⟨vm', role', hstep, hok, hdir, hm, hmem⟩ := hsized.grows_page (i := 0) rfl rfl rfl hlen
  have hremap := Vm.growproc_remap 4096 4096 hok hdir
    (by rw [hm (pages 4096) (by simp [pages])]; simp [pages]) (by simp [pages]) (by simp) hmem
  rw [Nat.cast_ofNat] at hremap
  exact ⟨s, _, smallVm_boot, hs,
    (GuardedRun.run_append _).mpr ⟨_, hrun, (GuardedRun.run_cons _).mpr ⟨_, hstep, rfl⟩⟩,
    (phase_iff _ 0).mp rfl, (phase_iff _ 1).mp rfl, rfl, rfl, rfl, rfl, rfl, hremap⟩

def threadLeaves : List (Fin nproc × KernelOp) := createThread ++ [(1, .exit)]

def exited (kstack pgdir kstack' pgdir' : Nat) : Procs nproc :=
  (created kstack pgdir kstack' pgdir').setTable
    (setState (wakeJoiners (created kstack pgdir kstack' pgdir').ptable 1) 1 .zombie)

theorem exited_alone (kstack pgdir kstack' pgdir' : Nat) :
    Alone (exited kstack pgdir kstack' pgdir') 0 := by
  have hidle : ∀ q : Fin nproc, q ≠ 0 →
      ¬ ((exited kstack pgdir kstack' pgdir').ptable q).active := of_decide_eq_true (by rfl)
  exact fun q hq hactive => absurd hactive (hidle q hq)

theorem threads_agree_on_size_exited : ∃ s t,
    userinit smallLayout (0 : Fin nproc) [] smallVm = .ok s ∧
      run smallLayout s (threadLeaves ++ [(0, .sbrk 4096)]) = some t ∧
      (t.procs.ptable 0).sz = 8192 ∧ t.SizesAgree ∧
      ∃ r, t.vm.growproc smallLayout (t.procs.ptable 0).pgdir (t.procs.ptable 0).sz 4096 = .ok r := by
  obtain ⟨kstack, pgdir, kstack', pgdir', vm, s, role, hs, hrun, hsized, hlen⟩ := createThread_boot
  have hexit : run smallLayout s threadLeaves = some ⟨exited kstack pgdir kstack' pgdir', vm⟩ :=
    (GuardedRun.run_append _).mpr ⟨_, hrun, (GuardedRun.run_cons _).mpr ⟨_, rfl, rfl⟩⟩
  have hleaves : GuardedRun.along (step smallLayout) SizeStep s threadLeaves :=
    GuardedRun.along_of_forall (by simp [threadLeaves, createThread, SizeStep]) _
  obtain ⟨role', hsized'⟩ := step_sized (e := (1, .exit)) ⟨role, hsized⟩ (by simp [SizeStep])
    (show step smallLayout _ _ = some ⟨exited kstack pgdir kstack' pgdir', vm⟩ from rfl)
  obtain ⟨vm', _, hstep, _⟩ := hsized'.grows_page (i := 0) rfl rfl rfl hlen
  have hlast : SizeStep ⟨exited kstack pgdir kstack' pgdir', vm⟩ (0, .sbrk 4096) := by
    rintro k ⟨⟩ _
    exact ⟨exited_alone _ _ _ _, growthExact_page pgdir hlen⟩
  have hc : GuardedRun.along (step smallLayout) SizeStep s (threadLeaves ++ [(0, .sbrk 4096)]) := by
    refine GuardedRun.along_append hleaves fun t ht => ?_
    obtain rfl := Option.some.inj (ht.symm.trans hexit)
    exact ⟨hlast, fun _ _ => trivial⟩
  have hfinal : run smallLayout s (threadLeaves ++ [(0, .sbrk 4096)]) = some _ :=
    (GuardedRun.run_append _).mpr ⟨_, hexit, (GuardedRun.run_cons _).mpr ⟨_, hstep, rfl⟩⟩
  obtain ⟨hagree, hgrow⟩ := threads_agree_on_size smallVm_boot hs hc _ hfinal
  exact ⟨s, _, hs, hfinal, rfl, hagree, hgrow 0 ((phase_iff _ 0).mp rfl) 4096⟩

end Kernel
end Xv6
