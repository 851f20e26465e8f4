import Xv6.Proc.Calls

namespace Xv6
namespace Calls

open Vm

variable {n : Nat} {L : Layout} {managed : Nat → Prop} {s t : Kernel n} {role : Nat → Role}
  {i : Fin n} {pt pt' : Ptable n}

structure Still (a b : Proc n) : Prop where
  unused : b.state = .unused ↔ a.state = .unused
  zombie : b.state = .zombie → a.state = .zombie
  kstack : b.kstack = a.kstack
  pgdir : b.pgdir = a.pgdir
  sz : b.sz = a.sz
  threadId : b.threadId = a.threadId

theorem Still.refl (a : Proc n) : Still a a := ⟨Iff.rfl, id, rfl, rfl, rfl, rfl⟩

theorem Still.trans {a b c : Proc n} (h : Still a b) (h' : Still b c) : Still a c :=
  ⟨h'.unused.trans h.unused, fun hz => h.zombie (h'.zombie hz), h'.kstack.trans h.kstack,
    h'.pgdir.trans h.pgdir, h'.sz.trans h.sz, h'.threadId.trans h.threadId⟩

theorem Still.wake {a : Proc n} (h : a.state = .sleeping) : Still a { a with state := .runnable } := by
  refine ⟨?_, ?_, rfl, rfl, rfl, rfl⟩ <;> simp [h]

theorem Still.moves {a : Proc n} {st : ProcState} (chan : Option (Fin n)) (h : a.state ≠ .unused)
    (hu : st ≠ .unused) (hz : st ≠ .zombie) : Still a { a with state := st, chan := chan } :=
  ⟨iff_of_false hu h, fun hc => absurd hc hz, rfl, rfl, rfl, rfl⟩

theorem held_still (h : ∀ q, Still (pt q) (pt' q)) : held pt' = held pt := by
  funext q
  unfold held
  rw [(h q).kstack, (h q).pgdir, (h q).sz]
  simp only [(h q).unused]

theorem wakeup1_still (pt : Ptable n) (chan : Option (Fin n)) (q : Fin n) :
    Still (pt q) (wakeup1 pt chan q) := by
  unfold wakeup1
  split
  · rename_i hc
    exact .wake hc.1
  · exact .refl _

theorem wakeJoiners_still (pt : Ptable n) (proc q : Fin n) :
    Still (pt q) (wakeJoiners pt proc q) := by
  unfold wakeJoiners
  split
  · rename_i hc
    exact .wake hc.1
  · exact .refl _

theorem abandonChildren_still (pt : Ptable n) (proc initproc q : Fin n) :
    Still (pt q) (abandonChildren pt proc initproc q) := by
  have hparent : ∀ pt' : Ptable n, pt' = (fun p => if (pt p).parent = some proc then
      { pt p with parent := some initproc } else pt p) → Still (pt q) (pt' q) := by
    rintro _ rfl
    dsimp only
    split
    · exact ⟨Iff.rfl, id, rfl, rfl, rfl, rfl⟩
    · exact .refl _
  unfold abandonChildren
  split
  · refine Still.trans ?_ (wakeup1_still _ _ q)
    exact hparent _ rfl
  · exact hparent _ rfl

structure Accounts (L : Layout) (managed : Nat → Prop) (s : Kernel n) (role : Nat → Role) :
    Prop where
  books : Books L managed s.vm (held s.procs.ptable) role
  main : ∀ q, (s.procs.ptable q).state ≠ .unused → q ≠ s.procs.initproc →
    (s.procs.ptable q).threadId = -1
  init : (s.procs.ptable s.procs.initproc).state ≠ .zombie

theorem Accounts.still (h : Accounts L managed s role) {procs : Procs n}
    (hinit : procs.initproc = s.procs.initproc)
    (hs : ∀ q, Still (s.procs.ptable q) (procs.ptable q)) :
    Accounts L managed ⟨procs, s.vm⟩ role := by
  refine ⟨?_, fun q hq hne => ?_, fun hz => ?_⟩
  · rw [held_still hs]
    exact h.books
  · rw [(hs q).threadId]
    exact h.main q (fun hc => hq ((hs q).unused.mpr hc)) (hinit ▸ hne)
  · dsimp only at hz
    rw [hinit] at hz
    exact h.init ((hs _).zombie hz)

theorem held_eq (h : (pt i).state ≠ .unused) :
    held pt i = some ⟨(pt i).kstack, (pt i).pgdir, (pt i).sz⟩ := if_neg h

theorem setState_still {st : ProcState} (h : (pt i).state ≠ .unused) (hu : st ≠ .unused)
    (hz : st ≠ .zombie) (q : Fin n) : Still (pt q) (setState pt i st q) := by
  by_cases hq : q = i
  · subst hq
    unfold setState
    rw [Function.update_self]
    exact ⟨iff_of_false hu h, fun hc => absurd hc hz, rfl, rfl, rfl, rfl⟩
  · unfold setState
    rw [Function.update_of_ne hq]
    exact .refl _

theorem Accounts.no_siblings (h : Accounts L managed s role) (hi : i ≠ s.procs.initproc)
    (hs : (s.procs.ptable i).state = .running) (q : Fin n) :
    ¬ ((wakeJoiners s.procs.ptable i q).state = .zombie ∧
      (wakeJoiners s.procs.ptable i q).pid = (wakeJoiners s.procs.ptable i i).pid ∧
      (wakeJoiners s.procs.ptable i i).threadId ≠ (wakeJoiners s.procs.ptable i q).threadId) := by
  rintro ⟨hz, _, hne⟩
  rw [(wakeJoiners_still _ i q).threadId, (wakeJoiners_still _ i i).threadId] at hne
  have hz' := (wakeJoiners_still _ i q).zombie hz
  have hq : q ≠ s.procs.initproc := by
    rintro rfl
    exact h.init hz'
  rw [h.main i (by simp [hs]) hi, h.main q (by simp [hz']) hq] at hne
  exact hne rfl

theorem reapedSlots_nil {pt : Ptable n} {proc : Fin n} (h : ∀ q, ¬ ((pt q).state = .zombie ∧
    (pt q).pid = (pt proc).pid ∧ (pt proc).threadId ≠ (pt q).threadId)) :
    Kernel.reapedSlots pt proc = [] ∧ reapSiblings pt proc = pt := by
  refine ⟨List.filter_eq_nil_iff.mpr fun q _ => ?_, funext fun q => if_neg (h q)⟩
  rw [decide_eq_true_eq]
  exact h q

theorem Accounts.die (h : Accounts L managed s role) (hi : i ≠ s.procs.initproc)
    (hs : (s.procs.ptable i).state ≠ .unused) {procs : Procs n}
    (hinit : procs.initproc = s.procs.initproc)
    (hpt : procs.ptable = setState s.procs.ptable i .zombie) :
    Accounts L managed ⟨procs, s.vm⟩ role := by
  have hheld : held (setState s.procs.ptable i .zombie) = held s.procs.ptable := by
    funext q
    by_cases hq : q = i
    · subst hq
      rw [held_eq hs, held_eq (by simp)]
      simp [setState]
    · unfold held setState
      rw [Function.update_of_ne hq]
  refine ⟨?_, fun q hq hne => ?_, ?_⟩
  · rw [hpt, hheld]
    exact h.books
  · dsimp only at hq hne ⊢
    rw [hpt] at hq ⊢
    rw [setState_threadId]
    refine h.main q (fun hc => ?_) (hinit ▸ hne)
    rw [setState_state] at hq
    split at hq
    · rename_i hqi
      exact hs (hqi ▸ hc)
    · exact hq hc
  · dsimp only
    rw [hpt, hinit, setState_other _ _ (Ne.symm hi)]
    exact h.init

theorem Accounts.exit (h : Accounts L managed s role) (hs : (s.procs.ptable i).state = .running)
    (hstep : exit L s i = some t) : Accounts L managed t role := by
  unfold Calls.exit at hstep
  split at hstep
  swap
  · cases hstep
  rename_i vm procs hstacks hexit
  unfold Procs.exitSection at hexit
  split at hexit
  · cases hexit
  rename_i hi
  have hnone := reapedSlots_nil (h.no_siblings hi hs)
  have hvm : vm = s.vm := by
    unfold Kernel.exitStacks at hstacks
    dsimp only at hstacks
    rw [hnone.1] at hstacks
    split at hstacks <;> cases hstacks <;> rfl
  subst hvm
  have hwoken : Accounts L managed ⟨s.procs.setTable (wakeJoiners s.procs.ptable i), s.vm⟩ role :=
    h.still rfl fun q => wakeJoiners_still _ i q
  have hstate : (wakeJoiners s.procs.ptable i i).state ≠ .unused := by
    rw [ne_eq, (wakeJoiners_still _ i i).unused, hs]
    simp
  dsimp only at hexit
  rw [hnone.2] at hexit
  split at hexit
  · rename_i hcount
    cases hexit
    have hnew : ((s.procs.setTable (wakeJoiners s.procs.ptable i)).goto i .newExit).newExitSection i =
        some _ := if_neg hi
    rw [if_pos hcount, hnew, Option.map_some, Option.some.injEq] at hstep
    subst hstep
    have hleft : Accounts L managed ⟨s.procs.setTable (abandonChildren (wakeup1
        (wakeJoiners s.procs.ptable i) (wakeJoiners s.procs.ptable i i).parent) i s.procs.initproc),
        s.vm⟩ role :=
      hwoken.still rfl fun q => (wakeup1_still _ _ q).trans (abandonChildren_still _ i _ q)
    refine hleft.die hi ?_ rfl rfl
    dsimp only [Procs.setTable]
    rw [ne_eq, (abandonChildren_still _ i _ i).unused, (wakeup1_still _ _ i).unused]
    exact hstate
  · rename_i hcount
    cases hexit
    rw [if_neg hcount, Option.some.injEq] at hstep
    subst hstep
    exact hwoken.die hi hstate rfl rfl

theorem update_still {p : Proc n} (h : Still (pt i) p) (q : Fin n) :
    Still (pt q) (Function.update pt i p q) := by
  by_cases hq : q = i
  · subst hq
    rwa [Function.update_self]
  · rw [Function.update_of_ne hq]
    exact .refl _

theorem waitSection_still {procs : Procs n} (hi : (procs.ptable i).state ≠ .unused)
    (hnone : zombieChild procs.ptable i = none) (q : Fin n) :
    Still (procs.ptable q) ((procs.waitSection i).ptable q) := by
  unfold Procs.waitSection
  rw [hnone]
  dsimp only
  split
  · exact .refl _
  · exact update_still (.moves _ hi (by simp) (by simp)) q

theorem held_reaped (pt : Ptable n) (z : Fin n) :
    held (Function.update pt z (pt z).reaped) = Function.update (held pt) z none := by
  funext q
  unfold held
  by_cases hq : q = z
  · subst hq
    rw [Function.update_self, Function.update_self]
    exact if_pos rfl
  · rw [Function.update_of_ne hq, Function.update_of_ne hq]

theorem Accounts.wait (h : Accounts L managed s role) (hi : (s.procs.ptable i).state ≠ .unused)
    (hstep : wait L s i = some t) : ∃ role', Accounts L managed t role' := by
  unfold Calls.wait at hstep
  split at hstep
  · rename_i hnone
    cases hstep
    refine ⟨role, h.still ?_ fun q => waitSection_still hi hnone q⟩
    unfold Procs.waitSection
    rw [hnone]
    dsimp only
    split <;> rfl
  · rename_i z hz
    obtain ⟨_, hzombie⟩ := zombieChild_some hz
    have hheld := held_eq (show (s.procs.ptable z).state ≠ .unused by simp [hzombie])
    have hstack := (h.books.stack _ _).mpr ⟨z, _, hheld, rfl, rfl⟩
    have hdir := h.books.dir_of hheld
    obtain ⟨hspans, _⟩ := h.books.spans z _ hheld
    dsimp only at hstack hdir hspans
    obtain ⟨vm₁, hkfree, he₁, hsame⟩ := h.books.exact.giveStack hstack
    have hdir₁ : Function.update role (s.procs.ptable z).kstack .free (s.procs.ptable z).pgdir =
        .dir := by
      rw [Function.update_of_ne, hdir]
      rintro heq
      rw [heq, hstack] at hdir
      cases hdir
    obtain ⟨vm₂, role₂, hfreevm, hf⟩ := freevm_acts he₁ hdir₁
      (hspans.stacked.congr (hsame _ hdir).1)
    rw [hkfree] at hstep
    dsimp only at hstep
    rw [hfreevm, Option.some.injEq] at hstep
    subst hstep
    have hsection : s.procs.waitSection i = (s.procs.reap z).returns i (s.procs.ptable z).pid := by
      rw [Procs.waitSection, hz]
    rw [hsection]
    have hzi : z ≠ s.procs.initproc := by
      rintro rfl
      exact h.init hzombie
    refine ⟨role₂, ?_, fun q hq hne => ?_, ?_⟩
    · change Books L managed vm₂ (held (Function.update s.procs.ptable z (s.procs.ptable z).reaped)) role₂
      rw [held_reaped]
      exact h.books.remove hheld hsame hf
    · change (Function.update s.procs.ptable z (s.procs.ptable z).reaped q).state ≠ .unused at hq
      change (Function.update s.procs.ptable z (s.procs.ptable z).reaped q).threadId = -1
      by_cases hqz : q = z
      · subst hqz
        rw [Function.update_self] at hq
        exact absurd rfl hq
      · rw [Function.update_of_ne hqz] at hq ⊢
        exact h.main q hq hne
    · change (Function.update s.procs.ptable z (s.procs.ptable z).reaped s.procs.initproc).state ≠ _
      rw [Function.update_of_ne hzi.symm]
      exact h.init

theorem Accounts.schedule (h : Accounts L managed s role)
    (hs : (s.procs.ptable i).state = .runnable) (hstep : schedule L s i = some t) :
    ∃ role', Accounts L managed t role' := by
  unfold Calls.schedule at hstep
  split at hstep
  · have hawake : Accounts L managed ⟨s.procs.awake i, s.vm⟩ role :=
      h.still rfl fun q => update_still (.moves _ (by simp [hs]) (by simp) (by simp)) q
    refine hawake.wait ?_ hstep
    simp [Procs.awake]
  · cases hstep
    exact ⟨role, h.still rfl fun q => setState_still (by simp [hs]) (by simp) (by simp) q⟩

theorem held_slot {p : Proc n} (hp : p.state ≠ .unused) :
    held (Function.update pt i p) =
      Function.update (held pt) i (some ⟨p.kstack, p.pgdir, p.sz⟩) := by
  funext q
  unfold held
  by_cases hq : q = i
  · subst hq
    rw [Function.update_self, Function.update_self, if_neg hp]
  · rw [Function.update_of_ne hq, Function.update_of_ne hq]

theorem Accounts.slot (h : Accounts L managed s role) {p : Proc n} {vm : Vm} {role' : Nat → Role}
    {procs : Procs n} (hinit : procs.initproc = s.procs.initproc)
    (hpt : procs.ptable = Function.update s.procs.ptable i p) (hp : p.state ≠ .unused)
    (hz : p.state ≠ .zombie) (hmain : i ≠ s.procs.initproc → p.threadId = -1)
    (hbooks : Books L managed vm
      (Function.update (held s.procs.ptable) i (some ⟨p.kstack, p.pgdir, p.sz⟩)) role') :
    Accounts L managed ⟨procs, vm⟩ role' := by
  refine ⟨?_, fun q hq hne => ?_, ?_⟩
  · dsimp only
    rw [hpt, held_slot hp]
    exact hbooks
  · dsimp only at hq hne ⊢
    rw [hpt] at hq ⊢
    rw [hinit] at hne
    by_cases hqi : q = i
    · subst hqi
      rw [Function.update_self]
      exact hmain hne
    · rw [Function.update_of_ne hqi] at hq ⊢
      exact h.main q hq hne
  · dsimp only
    rw [hpt, hinit]
    by_cases hi : s.procs.initproc = i
    · rw [hi, Function.update_self]
      exact hz
    · rw [Function.update_of_ne hi]
      exact h.init

theorem Accounts.sbrk (h : Accounts L managed s role) {k : Int}
    (hfit : s.vm.GrowthFits (s.procs.ptable i).pgdir (s.procs.ptable i).sz k)
    (hstep : s.sbrk L i k = some t) : ∃ role', Accounts L managed t role' := by
  unfold Kernel.sbrk at hstep
  split at hstep
  swap
  · cases hstep
  rename_i hs _
  have hheld := held_eq (show (s.procs.ptable i).state ≠ .unused by simp [hs])
  obtain ⟨hspans, hsz⟩ := h.books.spans i _ hheld
  obtain ⟨vm', role', r, hgrow, ha, hspans', hsz'⟩ := growproc_acts h.books.exact
    (h.books.dir_of hheld) hspans hsz hfit
  dsimp only at hgrow ha hspans' hsz'
  rw [hgrow] at hstep
  cases hstep
  have hbooks := h.books.resize hheld ha hspans' hsz'
  have hinit : (s.resize i vm' r).procs.initproc = s.procs.initproc := by cases r <;> rfl
  have hslot := h.slot hinit (Kernel.resize_ptable i vm' r) (by simp [hs]) (by simp [hs])
    (fun hi => h.main i (by simp [hs]) hi) hbooks
  cases r with
  | none => exact ⟨role', hslot⟩
  | some sz => exact ⟨role', hslot⟩

theorem Accounts.exec (h : Accounts L managed s role) {program : Program}
    (hs : (s.procs.ptable i).state = .running)
    (hsetup : SetupFits s.vm.freelist.length program.file)
    (hfit : ExecFits Loading.Keeps s.vm.freelist.length program.file program.argv)
    (hstep : exec L s i program = some t) : ∃ role', Accounts L managed t role' := by
  have hheld := held_eq (show (s.procs.ptable i).state ≠ .unused by simp [hs])
  obtain ⟨hspans, _⟩ := h.books.spans i _ hheld
  have hruns : Runs L s.vm role (s.procs.ptable i).pgdir :=
    ⟨h.books.exact, h.books.dir_of hheld, hspans.stacked⟩
  unfold Calls.exec at hstep
  dsimp only at hstep
  have hspec : Execs L s.vm role ⟨(s.procs.ptable i).pgdir, (s.procs.ptable i).sz, 0, 0, []⟩
      program.file program.argv (Xv6.exec L s.vm
        ⟨(s.procs.ptable i).pgdir, (s.procs.ptable i).sz, 0, 0, []⟩ program.file program.path
        program.argv) := exec_spec hruns program.sized program.short
  generalize Xv6.exec L s.vm ⟨(s.procs.ptable i).pgdir, (s.procs.ptable i).sz, 0, 0, []⟩
    program.file program.path program.argv = r at hspec hstep
  cases hspec with
  | fault _ => cases hstep
  | failed _ _ hkept =>
    obtain ⟨he, hsame⟩ := hkept hfit hsetup
    cases hstep
    exact ⟨role, h.books.same he hsame, h.main, h.init⟩
  | done _ _ hkept hstack hfree =>
    obtain rfl := hkept hfit
    cases hstep
    obtain ⟨k, _, hsz⟩ := hstack.size
    have hbooks := h.books.replace hheld hstack.free hstack.acts hstack.spans hsz hfree
    exact ⟨_, h.slot rfl rfl (by simp [hs]) (by simp [hs])
      (fun hi => h.main i (by simp [hs]) hi) hbooks⟩

theorem held_unused {np : Fin n} {p : Proc n} (hnp : (pt np).state = .unused)
    (hp : p.state = .unused) : held (Function.update pt np p) = held pt := by
  funext q
  unfold held
  by_cases hq : q = np
  · subst hq
    rw [Function.update_self, if_pos hp, if_pos hnp]
  · rw [Function.update_of_ne hq]

theorem Accounts.unused (h : Accounts L managed s role) {np : Fin n} {p : Proc n} {vm : Vm}
    {procs : Procs n} (hinit : procs.initproc = s.procs.initproc)
    (hpt : procs.ptable = Function.update s.procs.ptable np p)
    (hnp : (s.procs.ptable np).state = .unused) (hp : p.state = .unused)
    (hbooks : Books L managed vm (held s.procs.ptable) role) :
    Accounts L managed ⟨procs, vm⟩ role := by
  refine ⟨?_, fun q hq hne => ?_, ?_⟩
  · dsimp only
    rw [hpt, held_unused hnp hp]
    exact hbooks
  · dsimp only at hq hne ⊢
    rw [hpt] at hq ⊢
    by_cases hqn : q = np
    · subst hqn
      rw [Function.update_self] at hq
      exact absurd hp hq
    · rw [Function.update_of_ne hqn] at hq ⊢
      exact h.main q hq (hinit ▸ hne)
  · dsimp only
    rw [hpt, hinit]
    by_cases hi : s.procs.initproc = np
    · rw [hi, Function.update_self, hp]
      simp
    · rw [Function.update_of_ne hi]
      exact h.init

def child (procs : Procs n) (i np : Fin n) (kstack pgdir : Nat) : Proc n :=
  { procs.ptable np with
    sz := (procs.ptable i).sz
    pgdir := pgdir
    kstack := kstack
    state := .runnable
    pid := procs.nextpid
    parent := some i
    threadId := -1
    sleepingThreads := fun _ => none }

theorem fork_ptable (procs : Procs n) {i np : Fin n} (hne : i ≠ np) (kstack pgdir : Nat) :
    let procs' := (((procs.allocproc np).prepare np kstack .fork).install np pgdir .fork).publishFork
      i np
    (procs'.setSlot np { procs'.ptable np with sleepingThreads := fun _ => none }).ptable =
      Function.update procs.ptable np (child procs i np kstack pgdir) := by
  dsimp only
  funext q
  by_cases hq : q = np
  · subst hq
    simp [Procs.publishFork, Procs.install, Procs.prepare, Procs.allocproc, child, hne]
  · simp [Procs.publishFork, Procs.install, Procs.prepare, Procs.allocproc, hq]

theorem Accounts.fork (h : Accounts L managed s role) (hs : (s.procs.ptable i).state = .running)
    (hfit : PagesFit s (i, .fork)) (hstep : fork L s i = some t) :
    ∃ role', Accounts L managed t role' := by
  unfold Calls.fork at hstep
  cases hnp : allocSlot s.procs.ptable with
  | none =>
    rw [hnp] at hstep
    cases hstep
    exact ⟨role, h.books, h.main, h.init⟩
  | some np =>
    rw [hnp] at hstep
    dsimp only at hstep
    have hunused := allocSlot_some hnp
    have hfit' := hfit.resolve_left (by simp [hnp])
    have hheld := held_eq (show (s.procs.ptable i).state ≠ .unused by simp [hs])
    obtain ⟨_, hsz⟩ := h.books.spans i _ hheld
    dsimp only at hsz
    cases hk : s.vm.kalloc with
    | mk vm₁ r =>
      rw [hk] at hstep
      cases r with
      | none =>
        cases hstep
        obtain ⟨rfl, _⟩ := kalloc_none hk
        exact ⟨role, h.unused rfl (Function.update_idem ..) hunused rfl h.books⟩
      | some kstack =>
        have hp := kalloc_some hk
        have hks := h.books.exact.ok.free_of_popped hp
        have hcopyfits : CopyFits vm₁.freelist.length (s.procs.ptable i).sz := by
          have hlen := hp.length
          rw [show vm₁.freelist.length = s.vm.freelist.length - 1 by omega]
          refine hfit'.resolve_left fun hnil => ?_
          rw [hnil, List.length_nil] at hlen
          omega
        obtain ⟨he₁, hsame₁⟩ := h.books.exact.takeStack (q := np) hp
        have hdir₁ : ∀ q, role q = .dir → Function.update role kstack (.stack np) q = .dir := by
          intro q hq
          rw [Function.update_of_ne, hq]
          rintro rfl
          simp [hks] at hq
        dsimp only at hstep
        cases hcopy : vm₁.copyuvm L (s.procs.ptable i).pgdir (s.procs.ptable i).sz with
        | error e =>
          rw [hcopy] at hstep
          cases hstep
        | ok x =>
          obtain ⟨vm₂, r₂⟩ := x
          rw [hcopy] at hstep
          rcases copyuvm_acts he₁ (hdir₁ _ (h.books.dir_of hheld)) hsz.le hcopyfits hcopy with
            ⟨rfl, he₂, hsame₂⟩ | ⟨d, role₂, rfl, hd, ha, hspans⟩
          · obtain ⟨vm₃, hkfree, he₃, hsame₃⟩ := he₂.giveStack (Function.update_self ..)
            dsimp only at hstep
            rw [hkfree] at hstep
            cases hstep
            have hrole : Function.update (Function.update role kstack (.stack np)) kstack .free =
                role := by rw [Function.update_idem, ← hks, Function.update_eq_self]
            rw [hrole] at he₃
            have hsame : SameDirs s.vm vm₃ role := by
              intro q hq
              have hq₁ := hdir₁ q hq
              obtain ⟨h1, h1'⟩ := hsame₁ q hq
              obtain ⟨h2, h2'⟩ := hsame₂ q hq₁
              obtain ⟨h3, h3'⟩ := hsame₃ q hq₁
              exact ⟨h3.trans (h2.trans h1), fun v => (h3' v).trans ((h2' v).trans (h1' v))⟩
            exact ⟨role, h.unused rfl ((Function.update_idem ..).trans (Function.update_idem ..))
              hunused rfl (h.books.same he₃ hsame)⟩
          · dsimp only at hstep
            cases hstep
            have hnone : held s.procs.ptable np = none := if_pos hunused
            have hbooks := h.books.add hnone hks hsame₁ hd ha hspans hsz
            have hne : i ≠ np := by
              rintro rfl
              simp [hs] at hunused
            exact ⟨role₂, h.slot rfl (fork_ptable s.procs hne kstack d) (by simp [child])
              (by simp [child]) (fun _ => rfl) hbooks⟩

theorem step_accounts {e : Fin n × Call} (h : ∃ role, Accounts L managed s role)
    (hfit : PagesFit s e) (hstep : step L s e = some t) : ∃ role, Accounts L managed t role := by
  obtain ⟨role, h⟩ := h
  obtain ⟨i, c⟩ := e
  unfold step at hstep
  split at hstep
  · rename_i hs _
    exact h.schedule hs hstep
  · rename_i hs _
    cases hstep
    exact ⟨role, h.still rfl fun q => setState_still (by simp [hs]) (by simp) (by simp) q⟩
  · rename_i hs hc
    dsimp only at hs hc hstep
    subst hc
    exact h.fork hs hfit hstep
  · rename_i program hs hc
    dsimp only at hs hc hstep
    subst hc
    exact h.exec hs hfit.1 hfit.2 hstep
  · rename_i k hs hc
    dsimp only at hs hc hstep
    subst hc
    exact h.sbrk hfit hstep
  · rename_i hs _
    exact ⟨role, h.exit hs hstep⟩
  · rename_i hs _
    dsimp only at hs
    exact h.wait (by simp [hs]) hstep
  · cases hstep

theorem Vm.FreeList.books {vm : Vm} (h : vm.FreeList L) :
    Books L (· ∈ vm.freelist) vm (fun _ : Fin n => none)
      (fun p => if p ∈ vm.freelist then .free else .reserved) := by
  refine ⟨h.exact, fun p => ?_, fun p => ?_, fun p k => ?_, fun d => ?_, by simp, by simp⟩
  · split <;> simp_all
  · split <;> simp
  · refine iff_of_false ?_ (by simp)
    split <;> simp
  · refine iff_of_false ?_ (by simp)
    split <;> simp

theorem userinit_accounts {vm : Vm} (initproc : Fin n) (code : List UInt8) (hvm : vm.FreeList L)
    (hlen : 68 ≤ vm.freelist.length) (hcode : code.length < pgsize) :
    ∃ kstack pgdir vm' role, Kernel.userinit L initproc code vm =
        .ok ⟨Procs.userinit initproc kstack pgdir, vm'⟩ ∧
      Accounts L (· ∈ vm.freelist) ⟨Procs.userinit initproc kstack pgdir, vm'⟩ role ∧
      vm.freelist.length = vm'.freelist.length + 68 := by
  have hbooks : Books L (· ∈ vm.freelist) vm (fun _ : Fin n => none) _ := Vm.FreeList.books hvm
  cases hk : vm.kalloc with
  | mk vm₁ r =>
    cases r with
    | none =>
      rw [(kalloc_none hk).2] at hlen
      simp at hlen
    | some kstack =>
      have hp := kalloc_some hk
      have hlen₁ := hp.length
      obtain ⟨he₁, hsame₁⟩ := hvm.exact.takeStack (q := initproc) hp
      obtain ⟨vm₂, role₂, d, hsetup, hnew⟩ := setupkvm_acts he₁ (by omega)
      have hlen₂ := hnew.length
      obtain ⟨vm₃, role₃, hinit, ha, hspans, hlen₃⟩ := inituvm_acts hnew.acts.exact
        (hnew.acts.dir (Function.update_self ..)) hnew.spans hcode (by omega) (hnew.present 0)
      refine ⟨kstack, d, vm₃, role₃, ?_, ⟨?_, fun q hq hne => ?_, ?_⟩, by omega⟩
      · rw [Kernel.userinit, hk]
        simp only [hsetup]
        change (vm₂.inituvm d code >>= fun vm => _) = _
        rw [hinit]
        rfl
      · have hheld : held (Procs.userinit initproc kstack d).ptable =
            Function.update (fun _ => none) initproc (some ⟨kstack, d, 4096⟩) := held_slot (by simp)
        dsimp only
        rw [hheld]
        exact hbooks.add rfl (hvm.exact.ok.free_of_popped hp) hsame₁ hnew.free (hnew.acts.trans ha)
          hspans (by decide)
      · dsimp only [Procs.userinit] at hq hne
        rw [Function.update_of_ne hne] at hq
        exact absurd rfl hq
      · simp [Procs.userinit]

theorem pages_conserved {vm : Vm} {initproc : Fin n} {code : List UInt8}
    {es : List (Fin n × Call)} (hvm : vm.FreeList L) (hlen : 68 ≤ vm.freelist.length)
    (hs : Kernel.userinit L initproc code vm = .ok s)
    (hfit : GuardedRun.along (step L) PagesFit s es) :
    ∀ t, run L s es = some t → Conserved (· ∈ vm.freelist) t := by
  intro t ht
  obtain ⟨_, _, _, role, hs', hstart, _⟩ := userinit_accounts initproc code hvm hlen (Kernel.userinit_code hs)
  rw [hs, Except.ok.injEq] at hs'
  subst hs'
  obtain ⟨role, h⟩ := GuardedRun.run_invariant
    (I := fun s => ∃ role, Accounts L (· ∈ vm.freelist) s role) (fun s e t => step_accounts)
    ⟨role, hstart⟩ hfit ht
  exact fun p hp => h.books.unique hp

def started (kstack pgdir : Nat) : Procs nproc :=
  (Procs.userinit 0 kstack pgdir).setTable
    (setState (Procs.userinit 0 kstack pgdir).ptable 0 .running)

theorem run_fork {kstack pgdir : Nat} {vm : Vm} {t : Kernel nproc}
    (h : fork L ⟨started kstack pgdir, vm⟩ 0 = some t) :
    run L ⟨Procs.userinit 0 kstack pgdir, vm⟩ [(0, .schedule), (0, .fork)] = some t := by
  refine (GuardedRun.run_cons _).mpr ⟨⟨started kstack pgdir, vm⟩, rfl, ?_⟩
  exact (GuardedRun.run_cons _).mpr ⟨t, h, rfl⟩

theorem started_accounts {kstack pgdir : Nat} {vm : Vm}
    (h : Accounts L managed ⟨Procs.userinit (0 : Fin nproc) kstack pgdir, vm⟩ role) :
    Accounts L managed ⟨started kstack pgdir, vm⟩ role := by
  refine h.still rfl fun q => setState_still ?_ (by simp) (by simp) q
  simp [Procs.userinit]

theorem boot_forks : ∃ kstack pgdir kstack' pgdir' vm vm₁ vm₂,
    Kernel.userinit Kernel.smallLayout (0 : Fin nproc) [] Kernel.smallVm =
      .ok ⟨Procs.userinit 0 kstack pgdir, vm⟩ ∧
    vm.kalloc = (vm₁, some kstack') ∧
    vm₁.copyuvm Kernel.smallLayout pgdir 4096 = .ok (vm₂, some pgdir') ∧
    5000 ≤ vm.freelist.length := by
  obtain ⟨kstack, pgdir, vm, role, hs, hboot, hlen⟩ := Kernel.userinit_sized (0 : Fin nproc) []
    Kernel.smallVm_boot (by simp)
  rw [Kernel.smallVm, List.length_range'] at hlen
  obtain ⟨hdir, hm, _⟩ := hboot.space 0 pgdir 4096 (.active rfl)
  cases hk : vm.kalloc with
  | mk vm₁ r =>
    cases r with
    | none =>
      rw [(kalloc_none hk).2, List.length_nil] at hlen
      omega
    | some kstack' =>
      have hp := kalloc_some hk
      have hlen₁ := hp.length
      have hkeeps := hboot.ok.keeps_popped (D := Set.univ) (r := .held) hp
      obtain ⟨hdir₁, hpage⟩ := hkeeps.dir pgdir trivial hdir
      have hpages : pages 4096 = 1 := rfl
      obtain ⟨vm₂, role₂, r, hcopy, _, _, _, hnone⟩ := copyuvm_spec 4096
        (hboot.ok.popped hp (r := .held) (by simp) rfl) hdir₁ (by simp)
        (fun v hv => by rw [hpage, hm v hv])
      cases r with
      | none =>
        have := hnone rfl
        omega
      | some pgdir' => exact ⟨kstack, pgdir, kstack', pgdir', vm, vm₁, vm₂, hs, hk, hcopy, by omega⟩

theorem pages_conserved_fork : ∃ s t, Kernel.smallVm.FreeList Kernel.smallLayout ∧
    Kernel.userinit Kernel.smallLayout (0 : Fin nproc) [] Kernel.smallVm = .ok s ∧
    run Kernel.smallLayout s [(0, .schedule), (0, .fork)] = some t ∧
    (t.procs.ptable 1).state = .runnable ∧ Conserved (· ∈ Kernel.smallVm.freelist) t := by
  obtain ⟨kstack, pgdir, kstack', pgdir', vm, vm₁, vm₂, hs, hk, hcopy, hlen⟩ := boot_forks
  have hvm := Kernel.smallVm_boot.freeList
  have hslot : allocSlot (started kstack pgdir).ptable = some 1 := rfl
  have hfork : ∃ t, fork Kernel.smallLayout ⟨started kstack pgdir, vm⟩ 0 = some t ∧
      (t.procs.ptable 1).state = .runnable := by
    unfold fork
    simp only [hslot, hk]
    rw [show ((started kstack pgdir).ptable 0).pgdir = pgdir from rfl,
      show ((started kstack pgdir).ptable 0).sz = 4096 from rfl, hcopy]
    exact ⟨_, rfl, rfl⟩
  obtain ⟨t, ht, hrun⟩ := hfork
  refine ⟨_, t, hvm, hs, run_fork ht, hrun, ?_⟩
  have hfit : GuardedRun.along (step Kernel.smallLayout) PagesFit
      ⟨Procs.userinit (0 : Fin nproc) kstack pgdir, vm⟩ [(0, .schedule), (0, .fork)] := ?_
  · exact pages_conserved hvm (by simp [Kernel.smallVm]) hs hfit t (run_fork ht)
  refine ⟨trivial, ?_⟩
  rintro s ⟨⟩
  refine ⟨.inr (.inr (.inr ⟨?_, ?_⟩)), fun _ _ => trivial⟩
  · change 65 ≤ vm.freelist.length - 1
    omega
  · change TablesFit _ 0 (pages ((started kstack pgdir).ptable 0).sz) (vm.freelist.length - 1 - 65)
    rw [show ((started kstack pgdir).ptable 0).sz = 4096 from rfl, show pages 4096 = 1 from rfl]
    refine .inr ⟨?_, trivial⟩
    rw [show absent (fun _ => false) (0 / 1024) = 1 from rfl]
    omega

def scarceVm : Vm := ⟨List.range' 400 70, ⟨fun _ _ => none, fun _ _ => none⟩, fun _ _ => 0⟩

-- Two pages are left: fork takes one for the stack and one for the directory, and gives back the
-- stack alone.
theorem fork_loses_directory : ∃ s t p, scarceVm.FreeList Kernel.smallLayout ∧
    Kernel.userinit Kernel.smallLayout (0 : Fin nproc) [] scarceVm = .ok s ∧
    run Kernel.smallLayout s [(0, .schedule), (0, .fork)] = some t ∧ t.procs.eax 0 = -1 ∧
    p ∈ scarceVm.freelist ∧ ∀ u, ¬ UsedFor t.vm (held t.procs.ptable) p u := by
  have hvm : scarceVm.FreeList Kernel.smallLayout := by
    refine ⟨fun p hp => ?_, List.nodup_range'⟩
    simp only [scarceVm, List.mem_range'_1] at hp
    simp only [Kernel.smallLayout, sampleLayout]
    omega
  obtain ⟨kstack, pgdir, vm, role, hs, h, hfree⟩ := userinit_accounts
    (0 : Fin nproc) [] hvm (by simp [scarceVm]) (by simp)
  rw [scarceVm, List.length_range'] at hfree
  obtain ⟨ks, d, hlist⟩ : ∃ ks d, vm.freelist = [ks, d] := List.length_eq_two.mp (by omega)
  have hb := (started_accounts h).books
  have hp : Popped vm { vm with freelist := [d] } ks := ⟨hlist, rfl⟩
  have hp' : Popped { vm with freelist := [d] } { vm with freelist := [] } d := ⟨rfl, rfl⟩
  have hnodup := hb.exact.ok.nodup
  rw [hlist] at hnodup
  have hne : ks ≠ d := by
    rintro rfl
    simp at hnodup
  have hks := hb.exact.ok.free_of_popped hp
  have hd : role d = .free := (hb.exact.ok.free d).mp (by simp [hlist])
  obtain ⟨he₁, _⟩ := hb.exact.takeStack (q := 1) hp
  obtain ⟨he₂, _⟩ := he₁.newDir hp'
  obtain ⟨vm', hkfree, he₃, _⟩ := he₂.giveStack (p := ks) (q := 1)
    (by rw [Function.update_of_ne hne, Function.update_self])
  have hslot : allocSlot (started kstack pgdir).ptable = some 1 := rfl
  have hcopy : (⟨[d], vm.tables, vm.data⟩ : Vm).copyuvm Kernel.smallLayout pgdir 4096 =
      .ok (Vm.zero ⟨[], vm.tables, vm.data⟩ d, none) := by
    unfold Vm.copyuvm
    rw [setupkvm_one rfl]
    rfl
  have hfork : ∃ t, fork Kernel.smallLayout ⟨started kstack pgdir, vm⟩ 0 = some t ∧
      t.procs.eax 0 = -1 ∧ t.vm = vm' ∧
      held t.procs.ptable = held (started kstack pgdir).ptable := by
    unfold fork
    simp only [hslot, Vm.kalloc, hlist]
    rw [show ((started kstack pgdir).ptable 0).pgdir = pgdir from rfl,
      show ((started kstack pgdir).ptable 0).sz = 4096 from rfl, hcopy]
    simp only [hkfree]
    refine ⟨_, rfl, rfl, rfl, ?_⟩
    refine Eq.trans (congrArg held ((Function.update_idem ..).trans (Function.update_idem ..)))
      (held_unused rfl rfl)
  obtain ⟨t, ht, heax, hvm', hheld⟩ := hfork
  refine ⟨_, t, d, hvm, hs, run_fork ht, heax, (hb.managed d).mp (by simp [hd]), ?_⟩
  rw [hvm', hheld]
  refine unused_of_dir he₃ (by rw [Function.update_of_ne hne.symm, Function.update_self]) ?_
  intro q h hq
  have hstack := (hb.stack h.kstack q).mpr ⟨q, h, hq, rfl, rfl⟩
  have hdir := hb.dir_of hq
  have hother : ∀ p, role p ≠ .free → Function.update (Function.update (Function.update role ks
      (.stack 1)) d .dir) ks .free p = role p := by
    intro p hused
    have hpk : p ≠ ks := by
      rintro rfl
      exact hused hks
    have hpd : p ≠ d := by
      rintro rfl
      exact hused hd
    rw [Function.update_of_ne hpk, Function.update_of_ne hpd, Function.update_of_ne hpk]
  refine ⟨(hother _ (by simp [hstack])).trans hstack, (hother _ (by simp [hdir])).trans hdir, ?_⟩
  rintro rfl
  simp [hd] at hdir

end Calls
end Xv6
