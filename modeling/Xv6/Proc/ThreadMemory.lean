import Xv6.Proc.Memory
import Xv6.Vm.PrivateCopy

namespace Xv6
namespace Kernel

open Vm

variable {n : Nat} {L : Layout} {s t : Kernel n} {role : Nat → Role} {i np : Fin n}

def kthreadCreate (L : Layout) (s : Kernel n) (i : Fin n) :
    Except Panic (Kernel n × Option (Fin n)) :=
  match allocSlot s.procs.ptable with
  | none => pure (⟨s.procs.returns i (-1), s.vm⟩, none)
  | some np =>
    match s.vm.kalloc with
    | (vm, none) => pure (⟨((s.procs.allocproc np).discard np).returns i (-1), vm⟩, none)
    | (vm, some kstack) => do
      let procs := (s.procs.allocproc np).prepare np kstack .thread
      let (vm, pgdir) ← vm.copyuvm L (s.procs.ptable i).pgdir (s.procs.ptable i).sz
      match pgdir with
      | none => do
        let vm ← vm.kfree L kstack
        pure (⟨(procs.discardCopy np).returns i (-1), vm⟩, none)
      | some pgdir =>
        let procs := procs.install np pgdir .thread
        let procs := { procs with nextThread := int32 (procs.nextThread + 1) }
        let procs := procs.publishThread i np (procs.ptable i).parent
        pure (⟨procs.returns i (s.procs.ptable i).pid, vm⟩, some np)

def createSteps (i : Fin n) : List (Fin n × KernelOp) :=
  [(i, .spawn .thread), (i, .spawnInit), (i, .spawnCopy), (i, .createCount), (i, .createLoad),
    (i, .createPublish)]

structure StackOnly (s t : Kernel n) (i : Fin n) (slot : Option (Fin n)) : Prop where
  created : ∀ np, slot = some np → (t.procs.ptable np).kstack ∈ s.vm.freelist ∧
    ∀ p, p ∈ t.vm.freelist ↔ p ∈ s.vm.freelist ∧ p ≠ (t.procs.ptable np).kstack
  failed : slot = none → ∀ p, p ∈ t.vm.freelist ↔ p ∈ s.vm.freelist
  pgdir : (t.procs.ptable i).pgdir = (s.procs.ptable i).pgdir
  mappings : ∀ v, t.vm.page (s.procs.ptable i).pgdir v = s.vm.page (s.procs.ptable i).pgdir v

def CreatesStackOnly (L : Layout) (s : Kernel n) (i : Fin n) : Prop :=
  ∀ t slot, kthreadCreate L s i = .ok (t, slot) → StackOnly s t i slot

-- The call fails and has nothing to give back but the stack, or it does not return: the copy
-- panics at a page that the caller does not have.
def CopyHarmless (vm : Vm) (pgdir sz : Nat) : Prop :=
  vm.freelist.length ≤ 1 ∨
    (∃ m < pages sz, vm.freelist.length = 66 + m + (m + 1023) / 1024) ∨
    ∃ w < pages sz, vm.page pgdir w = none ∧ 66 + w + (w + 1023) / 1024 ≤ vm.freelist.length

theorem allocSlot_ne (hi : (s.procs.ptable i).state = .running)
    (hslot : allocSlot s.procs.ptable = some np) : i ≠ np := by
  rintro rfl
  rw [allocSlot_some hslot] at hi
  cases hi

theorem kthreadCreate_full (hslot : allocSlot s.procs.ptable = none) : CreatesStackOnly L s i := by
  intro t slot hcall
  rw [kthreadCreate, hslot] at hcall
  cases hcall
  exact ⟨by simp, fun _ _ => Iff.rfl, rfl, fun _ => rfl⟩

theorem kthreadCreate_empty (hi : (s.procs.ptable i).state = .running)
    (hslot : allocSlot s.procs.ptable = some np) (hnil : s.vm.freelist = []) :
    CreatesStackOnly L s i := by
  intro t slot hcall
  rw [kthreadCreate, hslot, kalloc, hnil] at hcall
  cases hcall
  refine ⟨by simp, fun _ _ => Iff.rfl, ?_, fun _ => rfl⟩
  simp [Procs.discard, Procs.allocproc, Function.update_of_ne (allocSlot_ne hi hslot)]

section

variable {vm₁ vm₂ : Vm} {kstack : Nat} {r : Option Nat}

theorem kthreadCreate_copy (hslot : allocSlot s.procs.ptable = some np)
    (hk : s.vm.kalloc = (vm₁, some kstack)) :
    kthreadCreate L s i =
      vm₁.copyuvm L (s.procs.ptable i).pgdir (s.procs.ptable i).sz >>= fun x =>
        match x.2 with
        | none =>
          let procs := (s.procs.allocproc np).prepare np kstack .thread
          x.1.kfree L kstack >>= fun vm => pure (⟨(procs.discardCopy np).returns i (-1), vm⟩, none)
        | some pgdir =>
          let procs := ((s.procs.allocproc np).prepare np kstack .thread).install np pgdir .thread
          let procs := { procs with nextThread := int32 (procs.nextThread + 1) }
          let procs := procs.publishThread i np (procs.ptable i).parent
          pure (⟨procs.returns i (s.procs.ptable i).pid, x.1⟩, some np) := by
  rw [kthreadCreate, hslot, hk]

-- The call is what the caller's own steps do when no other process takes one between them.
theorem kthreadCreate_steps {slot : Option (Fin n)} (hi : (s.procs.ptable i).state = .running)
    (hpc : s.procs.pc i = .user) (hcall : kthreadCreate L s i = .ok (t, slot)) :
    ∃ es, es <+: createSteps i ∧ s.run L es = some t := by
  cases hslot : allocSlot s.procs.ptable with
  | none =>
    rw [kthreadCreate, hslot] at hcall
    cases hcall
    refine ⟨[(i, .spawn .thread)], ⟨_, rfl⟩, ?_⟩
    simp [run, GuardedRun.run, step, KernelOp.plain, lift, Procs.step, hi, hpc, Procs.exec, hslot]
  | some np =>
    have hne := allocSlot_ne hi hslot
    cases hk : s.vm.kalloc with
    | mk vm₁ r =>
      cases r with
      | none =>
        rw [kthreadCreate, hslot, hk] at hcall
        cases hcall
        refine ⟨[(i, .spawn .thread), (i, .spawnInit)], ⟨_, rfl⟩, ?_⟩
        simp [run, GuardedRun.run, step, KernelOp.plain, lift, allocStack, Procs.step, hi, hpc,
          Procs.exec, hslot, hk, Procs.allocproc, Procs.discard, hne]
      | some kstack =>
        rw [kthreadCreate_copy hslot hk] at hcall
        cases hcopy : vm₁.copyuvm L (s.procs.ptable i).pgdir (s.procs.ptable i).sz with
        | error e =>
          rw [hcopy] at hcall
          cases hcall
        | ok x =>
          obtain ⟨vm₂, r⟩ := x
          rw [hcopy] at hcall
          cases r with
          | none =>
            change (vm₂.kfree L kstack >>= fun vm => pure (_, none)) = _ at hcall
            cases hkfree : vm₂.kfree L kstack with
            | error e =>
              rw [hkfree] at hcall
              cases hcall
            | ok vm₃ =>
              rw [hkfree] at hcall
              cases hcall
              refine ⟨[(i, .spawn .thread), (i, .spawnInit), (i, .spawnCopy)], ⟨_, rfl⟩, ?_⟩
              simp [run, GuardedRun.run, step, KernelOp.plain, lift, allocStack, copySpace,
                Procs.step, hi, hpc, Procs.exec, hslot, hk, Procs.allocproc, Procs.prepare,
                Procs.discardCopy, hne, hcopy, hkfree]
          | some pgdir =>
            cases hcall
            refine ⟨createSteps i, List.prefix_refl _, ?_⟩
            simp [createSteps, run, GuardedRun.run, step, KernelOp.plain, lift, allocStack,
              copySpace, Procs.step, hi, hpc, Procs.exec, hslot, hk, Procs.allocproc,
              Procs.prepare, Procs.install, Procs.afterCopy, Procs.publishThread, hne, hcopy,
              Function.update_comm hne]

theorem kthreadCreate_undone (h : Exact L s.vm role) (hi : (s.procs.ptable i).state = .running)
    (hd : role (s.procs.ptable i).pgdir = .dir) (hslot : allocSlot s.procs.ptable = some np)
    (hk : s.vm.kalloc = (vm₁, some kstack))
    (hcopy : vm₁.copyuvm L (s.procs.ptable i).pgdir (s.procs.ptable i).sz = .ok (vm₂, none))
    (hexact : Exact L vm₂ (Function.update role kstack (.stack 0)))
    (hsame : SameDirs vm₁ vm₂ (Function.update role kstack (.stack 0))) :
    CreatesStackOnly L s i := by
  intro t slot hcall
  have hp := kalloc_some hk
  have hfree := h.ok.free_of_popped hp
  have hne : (s.procs.ptable i).pgdir ≠ kstack := by
    intro heq
    rw [heq, hfree] at hd
    cases hd
  have hd₁ : Function.update role kstack (.stack 0) (s.procs.ptable i).pgdir = .dir := by
    rwa [Function.update_of_ne hne]
  obtain ⟨vm₃, hkfree, hexact₃, hsame₃⟩ := hexact.giveStack (Function.update_self ..)
  rw [Function.update_idem, ← hfree, Function.update_eq_self] at hexact₃
  rw [kthreadCreate_copy hslot hk, hcopy] at hcall
  change (vm₂.kfree L kstack >>= fun vm => pure (_, none)) = _ at hcall
  rw [hkfree] at hcall
  cases hcall
  refine ⟨nofun, fun _ p => ?_, ?_, fun v => ?_⟩
  · rw [hexact₃.ok.free, h.ok.free]
  · simp [Procs.discardCopy, Procs.prepare, Procs.allocproc,
      Function.update_of_ne (allocSlot_ne hi hslot)]
  · exact ((hsame₃ _ hd₁).2 v).trans (((hsame _ hd₁).2 v).trans (hp.page _ v))

theorem kthreadCreate_loses {p : Nat} (h : Exact L s.vm role)
    (hslot : allocSlot s.procs.ptable = some np) (hk : s.vm.kalloc = (vm₁, some kstack))
    (hcopy : vm₁.copyuvm L (s.procs.ptable i).pgdir (s.procs.ptable i).sz = .ok (vm₂, r))
    (hp : p ∈ vm₁.freelist) (hlost : p ∉ vm₂.freelist) : ¬ CreatesStackOnly L s i := by
  intro hall
  have hpop := kalloc_some hk
  have hfree := h.ok.free_of_popped hpop
  have hnodup := h.ok.nodup
  rw [hpop.freelist, List.nodup_cons] at hnodup
  have hne : p ≠ kstack := by
    rintro rfl
    exact hnodup.1 hp
  have hp' : p ∈ s.vm.freelist := by
    rw [hpop.freelist]
    exact List.mem_cons_of_mem _ hp
  have hcall := kthreadCreate_copy (L := L) (i := i) hslot hk
  rw [hcopy] at hcall
  cases r with
  | none =>
    have hvalid := h.ok.owned.valid kstack (by simp [hfree])
    have hkfree : ∃ vm₃, vm₂.kfree L kstack = .ok vm₃ ∧ vm₃.freelist = kstack :: vm₂.freelist := by
      rw [kfree, if_neg (by simp only [phystop, pgsize]; omega)]
      exact ⟨_, rfl, rfl⟩
    obtain ⟨vm₃, hkfree, hlist⟩ := hkfree
    change _ = (vm₂.kfree L kstack >>= fun vm => pure (_, none)) at hcall
    rw [hkfree] at hcall
    have hmem := ((hall _ _ hcall).failed rfl p).mpr hp'
    change p ∈ vm₃.freelist at hmem
    rw [hlist] at hmem
    exact (List.mem_cons.mp hmem).elim hne hlost
  | some pgdir =>
    have hmem := ((hall _ _ hcall).created np rfl).2 p
    refine hlost (hmem.mpr ⟨hp', ?_⟩)
    simpa [Procs.publishThread, Procs.install, Procs.prepare, Procs.allocproc] using hne

end

theorem kthread_create_stack_only_iff (L : Layout) (s : Kernel n) (role : Nat → Role) (i : Fin n)
    (h : Exact L s.vm role) (hi : (s.procs.ptable i).state = .running)
    (hd : role (s.procs.ptable i).pgdir = .dir) (hsz : (s.procs.ptable i).sz ≤ kernbase) :
    CreatesStackOnly L s i ↔ allocSlot s.procs.ptable = none ∨
      CopyHarmless s.vm (s.procs.ptable i).pgdir (s.procs.ptable i).sz := by
  cases hslot : allocSlot s.procs.ptable with
  | none => exact iff_of_true (kthreadCreate_full hslot) (.inl rfl)
  | some np =>
    rw [or_iff_right (by simp)]
    cases hk : s.vm.kalloc with
    | mk vm₁ r =>
      cases r with
      | none =>
        have hnil := (kalloc_none hk).2
        exact iff_of_true (kthreadCreate_empty hi hslot hnil) (.inl (by simp [hnil]))
      | some kstack =>
        have hpop := kalloc_some hk
        have hlen := hpop.length
        obtain ⟨he₁, -⟩ := h.takeStack (q := 0) hpop
        have hd₁ : Function.update role kstack (.stack 0) (s.procs.ptable i).pgdir = .dir := by
          rw [Function.update_of_ne, hd]
          intro heq
          rw [heq, h.ok.free_of_popped hpop] at hd
          cases hd
        have hout := copyuvm_outcome he₁ hd₁ hsz
        unfold CopyHarmless
        cases hcopy : vm₁.copyuvm L (s.procs.ptable i).pgdir (s.procs.ptable i).sz with
        | error e =>
          rw [hcopy] at hout
          cases hout with
          | missing hw hpage hroom =>
            rw [hpop.page] at hpage
            refine iff_of_true (fun t slot hcall => ?_) (.inr (.inr ⟨_, hw, hpage, by omega⟩))
            rw [kthreadCreate_copy hslot hk, hcopy] at hcall
            cases hcall
        | ok x =>
          rw [hcopy] at hout
          cases hout with
          | undone hfree hexact hsame =>
            refine iff_of_true (kthreadCreate_undone h hi hd hslot hk hcopy hexact hsame) ?_
            rcases hfree with hzero | ⟨m, hm, hfree⟩
            · exact .inl (by omega)
            · exact .inr (.inl ⟨m, hm, by omega⟩)
          | lost hfree hsrc hp hlost =>
            refine iff_of_false (kthreadCreate_loses h hslot hk hcopy
              ((he₁.ok.free _).mpr hp) hlost) ?_
            rintro (hone | ⟨m, hm, heq⟩ | ⟨w, hw, hpage, hle⟩)
            · rcases hfree with ⟨hpos, _⟩ | ⟨m, hm, hmod, hfree⟩ <;> omega
            · rcases hfree with ⟨hpos, _⟩ | ⟨m', hm', hmod, hfree⟩ <;> omega
            · exact hsrc w hw (by omega) ((hpop.page _ w).trans hpage)
          | copied hroom hsrc hf hacts hspans =>
            have hlost := (hf.exact.ok.free _).not.mpr (by rw [hf.dirs.2]; nofun)
            refine iff_of_false (kthreadCreate_loses h hslot hk hcopy
              ((he₁.ok.free _).mpr hf.free) hlost) ?_
            unfold copyCost at hroom
            rintro (hone | ⟨m, hm, heq⟩ | ⟨w, hw, hpage, hle⟩)
            · omega
            · omega
            · exact hsrc w hw ((hpop.page _ w).trans hpage)

def initKernel (free : List Nat) : Kernel nproc :=
  ⟨(Procs.userinit 0 1 500).resume 0, pageVm 0 userPerm free⟩

theorem kthread_create_stack_only_short :
    CreatesStackOnly sampleLayout (initKernel (List.range' 503 66)) 0 :=
  (kthread_create_stack_only_iff sampleLayout (initKernel (List.range' 503 66))
    (pageRole 0 (List.range' 503 66)) 0 (pageVm_exact (by decide) (by decide) (by decide)) rfl rfl
    (by decide)).mpr (.inr (.inr (.inl ⟨0, by decide, by decide⟩)))

-- The copy of the caller's memory is made, and no slot refers to it.
theorem kthread_create_loses_copy : ¬ ∀ (L : Layout) (s : Kernel nproc) (role : Nat → Role)
    (i : Fin nproc), Exact L s.vm role → (s.procs.ptable i).state = .running →
    role (s.procs.ptable i).pgdir = .dir → (s.procs.ptable i).sz ≤ kernbase →
    CreatesStackOnly L s i := by
  intro hall
  have hexact : Exact sampleLayout (initKernel (600 :: somePages)).vm
      (pageRole 0 (600 :: somePages)) := pageVm_exact (by decide) (by decide) (by decide)
  have hcreates := hall sampleLayout (initKernel (600 :: somePages)) (pageRole 0 (600 :: somePages))
    0 hexact rfl rfl (by decide)
  obtain ⟨vm', c, role', hcopy, hf⟩ := pageVm_forks userPerm
  have hslot : allocSlot (initKernel (600 :: somePages)).procs.ptable = some 1 := by decide +kernel
  have hkalloc : (initKernel (600 :: somePages)).vm.kalloc =
      (pageVm 0 userPerm somePages, some 600) := rfl
  have hcopied : Exact sampleLayout (pageVm 0 userPerm somePages) (pageRole 0 somePages) :=
    pageVm_exact (by decide) (by decide) (by decide)
  have hpgdir : ((initKernel (600 :: somePages)).procs.ptable 0).pgdir = 500 := rfl
  have hsz : ((initKernel (600 :: somePages)).procs.ptable 0).sz = 0x1000 := rfl
  rw [← hpgdir, ← hsz] at hcopy
  exact kthreadCreate_loses hexact hslot hkalloc hcopy ((hcopied.ok.free c).mpr hf.free)
    ((hf.exact.ok.free c).not.mpr (by rw [hf.dirs.2]; nofun)) hcreates

end Kernel
end Xv6
