import Xv6.Lib.GuardedRun
import Xv6.Kthread.Cond

namespace Xv6

inductive Pc where
  | user
  | blockMutex (m : Int) (g : Nat)
  | waitMutex (m : Int) (g : Nat)
  | retryMutex (m : Int) (g : Nat)
  | blockCond (c m : Int)
  | waitCond (c m : Int)
  | signalWake (c tidToWakeUp : Int)
  deriving DecidableEq, Repr

inductive KOp where
  | schedule
  | yield
  | block
  | mutexAlloc
  | mutexDealloc (m : Int)
  | mutexLock (m : Int)
  | mutexRetry
  | mutexUnlock (m : Int)
  | condAlloc
  | condDealloc (c : Int)
  | condWait (c m : Int)
  | condSignal (c : Int)
  | signalWake
  deriving DecidableEq, Repr

def KOp.locksCtable : KOp → Bool
  | .condAlloc | .condDealloc _ | .condWait _ _ | .condSignal _ => true
  | _ => false

-- `held` and `deallocs` are history: which locks a thread has taken and not given back, and how
-- often a record was deallocated. No transition reads them.
structure Kthreads (n : Nat) where
  ptable : Ptable n
  mtable : Mtable
  ctable : Ctable
  pc : Fin n → Pc
  eax : Fin n → Int
  held : Fin n → Int → Bool
  deallocs : Int → Nat

namespace Kthreads

variable {n : Nat}

def tidOf (s : Kthreads n) (i : Fin n) : Int := (s.ptable i).threadId

@[simp] def returns (s : Kthreads n) (i : Fin n) (r : Int) : Kthreads n :=
  { s with pc := Function.update s.pc i .user, eax := Function.update s.eax i r }

@[simp] def goto (s : Kthreads n) (i : Fin n) (p : Pc) : Kthreads n :=
  { s with pc := Function.update s.pc i p }

@[simp] def setHeld (s : Kthreads n) (i : Fin n) (m : Int) (b : Bool) : Kthreads n :=
  { s with held := Function.update s.held i (Function.update (s.held i) m b) }

def resume (s : Kthreads n) (i : Fin n) : Kthreads n :=
  let s := { s with ptable := setState s.ptable i .running }
  match s.pc i with
  | .waitMutex m g => s.goto i (.retryMutex m g)
  | .waitCond _ _ => s.returns i 0
  | _ => s

def lockSection (s : Kthreads n) (i : Fin n) (m : Int) (g : Nat) : Option (Kthreads n) :=
  match kthreadMutexLock s.mtable m (s.tidOf i) with
  | some (t, .ret r) =>
    let s := ({ s with mtable := t }).returns i r
    some (if r = 0 then s.setHeld i m true else s)
  | some (t, .block) => some (({ s with mtable := t }).goto i (.blockMutex m g))
  | none => none

def unlockSection (s : Kthreads n) (i : Fin n) (m : Int) : Kthreads n × Int :=
  let u := kthreadMutexUnlock s.mtable s.ptable m (s.tidOf i)
  let s := { s with mtable := u.1, ptable := u.2.1 }
  (if u.2.2 = 0 then s.setHeld i m false else s, u.2.2)

-- A signaller between its `mtable` and `ptable` sections still holds `ctable.lock`, with interrupts
-- off: it cannot be preempted, and every other section of `ctable` waits.
def ctableFree (s : Kthreads n) : Bool :=
  (List.finRange n).all (fun j => match s.pc j with | .signalWake _ _ => false | _ => true)

def exec (s : Kthreads n) (i : Fin n) : KOp → Pc → Option (Kthreads n)
  | .yield, .signalWake _ _ => none
  | .yield, _ => some { s with ptable := setState s.ptable i .runnable }
  | .block, .blockMutex m g =>
    some (({ s with ptable := setState s.ptable i .blocking }).goto i (.waitMutex m g))
  | .block, .blockCond c m =>
    some (({ s with ptable := setState s.ptable i .blocking }).goto i (.waitCond c m))
  | .mutexRetry, .retryMutex m g => lockSection s i m g
  | .mutexAlloc, .user =>
    let a := kthreadMutexAlloc s.mtable
    some (({ s with mtable := a.1 }).returns i a.2)
  | .mutexDealloc m, .user =>
    let a := kthreadMutexDealloc s.mtable m
    let d := if a.2 = 0 then Function.update s.deallocs m (s.deallocs m + 1) else s.deallocs
    some (({ s with mtable := a.1, deallocs := d }).returns i a.2)
  | .mutexLock m, .user => lockSection s i m (s.deallocs m)
  | .mutexUnlock m, .user =>
    let u := s.unlockSection i m
    some (u.1.returns i u.2)
  | .condAlloc, .user =>
    let a := kthreadCondAlloc s.ctable
    some (({ s with ctable := a.1 }).returns i a.2)
  | .condDealloc c, .user =>
    let a := kthreadCondDealloc s.ctable c
    some (({ s with ctable := a.1 }).returns i a.2)
  | .condWait c m, .user =>
    match kthreadCondWait s.ctable s.mtable s.ptable c m (s.tidOf i) with
    | some (ct, mt, pt, r) =>
      let s := { s with ctable := ct, mtable := mt, ptable := pt }
      let s := if r = 0 then s.setHeld i m false else s
      some (s.goto i (.blockCond c m))
    | none => some (s.returns i (-1))
  | .condSignal c, .user =>
    match kthreadCondSignal s.ctable s.mtable c with
    | some (ct, mt, tidToWakeUp) =>
      some (({ s with ctable := ct, mtable := mt }).goto i (.signalWake c tidToWakeUp))
    | none => some (s.returns i 0)
  | .signalWake, .signalWake _ tidToWakeUp =>
    some (({ s with ptable := wakeBlocked s.ptable tidToWakeUp }).returns i 0)
  | _, _ => none

def step (s : Kthreads n) (e : Fin n × KOp) : Option (Kthreads n) :=
  match (s.ptable e.1).state, e.2 with
  | .runnable, .schedule => some (s.resume e.1)
  | .running, op =>
    if op.locksCtable = true ∧ s.ctableFree = false then none else s.exec e.1 op (s.pc e.1)
  | _, _ => none

abbrev run (s : Kthreads n) (es : List (Fin n × KOp)) : Option (Kthreads n) :=
  GuardedRun.run step s es

@[simp] def release (s : Kthreads n) (i : Fin n) (m : Int) : Kthreads n :=
  ({ s with
    mtable := releaseMutex s.mtable m
    ptable := wakeBlocked s.ptable (tidToWakeUp s.mtable m) }).setHeld i m false

@[simp] def joinCond (s : Kthreads n) (i : Fin n) (c m : Int) : Kthreads n :=
  { s with ctable := Function.update s.ctable c (enqueueCond (s.ctable c) (s.tidOf i) m) }

def signalHead (s : Kthreads n) (c : Int) : Int :=
  (s.ctable c).sleepingTID (s.ctable c).startIndex

@[simp] def giveMutex (s : Kthreads n) (m tid : Int) : Kthreads n :=
  { s with mtable := Function.update s.mtable m { s.mtable m with tid := tid } }

@[simp] def dequeueSignal (s : Kthreads n) (c : Int) : Kthreads n :=
  { s.giveMutex (s.ctable c).waitingMutexID (s.signalHead c) with
    ctable := Function.update s.ctable c (dequeueCond (s.ctable c)) }

def Owns (s : Kthreads n) (i : Fin n) (m : Int) : Prop :=
  s.tidOf i = (s.mtable m).tid ∧ (s.mtable m).status = mLocked

instance (s : Kthreads n) (i : Fin n) (m : Int) : Decidable (s.Owns i m) := by
  unfold Owns; infer_instance

def LockEntry (s : Kthreads n) (i : Fin n) (op : KOp) (m : Int) (g : Nat) : Prop :=
  op = .mutexLock m ∧ s.pc i = .user ∧ g = s.deallocs m ∨
    op = .mutexRetry ∧ s.pc i = .retryMutex m g

inductive KStep (s : Kthreads n) (i : Fin n) : KOp → Kthreads n → Prop
  | resumeMutex {m : Int} {g : Nat} (hs : (s.ptable i).state = .runnable)
      (hpc : s.pc i = .waitMutex m g) :
      KStep s i .schedule
        (({ s with ptable := setState s.ptable i .running }).goto i (.retryMutex m g))
  | resumeCond {c m : Int} (hs : (s.ptable i).state = .runnable) (hpc : s.pc i = .waitCond c m) :
      KStep s i .schedule (({ s with ptable := setState s.ptable i .running }).returns i 0)
  | resumeOther (hs : (s.ptable i).state = .runnable) (hm : ∀ m g, s.pc i ≠ .waitMutex m g)
      (hc : ∀ c m, s.pc i ≠ .waitCond c m) :
      KStep s i .schedule { s with ptable := setState s.ptable i .running }
  | yield (hs : (s.ptable i).state = .running) (hpc : ∀ c tid, s.pc i ≠ .signalWake c tid) :
      KStep s i .yield { s with ptable := setState s.ptable i .runnable }
  | blockMutex {m : Int} {g : Nat} (hs : (s.ptable i).state = .running)
      (hpc : s.pc i = .blockMutex m g) :
      KStep s i .block
        (({ s with ptable := setState s.ptable i .blocking }).goto i (.waitMutex m g))
  | blockCond {c m : Int} (hs : (s.ptable i).state = .running) (hpc : s.pc i = .blockCond c m) :
      KStep s i .block
        (({ s with ptable := setState s.ptable i .blocking }).goto i (.waitCond c m))
  | alloc (hs : (s.ptable i).state = .running) (hpc : s.pc i = .user) :
      KStep s i .mutexAlloc (({ s with mtable := (kthreadMutexAlloc s.mtable).1 }).returns i
        (kthreadMutexAlloc s.mtable).2)
  | deallocFree {m : Int} (hs : (s.ptable i).state = .running) (hpc : s.pc i = .user)
      (hm : (s.mtable m).status = mUnlocked) :
      KStep s i (.mutexDealloc m) (({ s with
        mtable := freeMutex s.mtable m
        deallocs := Function.update s.deallocs m (s.deallocs m + 1) }).returns i 0)
  | deallocBusy {m : Int} (hs : (s.ptable i).state = .running) (hpc : s.pc i = .user)
      (hm : (s.mtable m).status ≠ mUnlocked) : KStep s i (.mutexDealloc m) (s.returns i (-1))
  | lockUnused {op : KOp} {m : Int} {g : Nat} (hs : (s.ptable i).state = .running)
      (he : s.LockEntry i op m g) (hm : (s.mtable m).status = mUnused) :
      KStep s i op (s.returns i (-1))
  | lockFree {op : KOp} {m : Int} {g : Nat} (hs : (s.ptable i).state = .running)
      (he : s.LockEntry i op m g) (hm : (s.mtable m).status = mUnlocked) :
      KStep s i op ((({ s with mtable := takeMutex s.mtable m (s.tidOf i) }).returns i 0).setHeld
        i m true)
  | lockQueued {op : KOp} {m : Int} {g : Nat} (hs : (s.ptable i).state = .running)
      (he : s.LockEntry i op m g) (hm : (s.mtable m).status = mLocked)
      (hq : isInQueue s.mtable m (s.tidOf i) = some true) :
      KStep s i op (s.goto i (.blockMutex m g))
  | lockEnqueue {op : KOp} {m : Int} {g : Nat} (hs : (s.ptable i).state = .running)
      (he : s.LockEntry i op m g) (hm : (s.mtable m).status = mLocked)
      (hq : isInQueue s.mtable m (s.tidOf i) = some false) :
      KStep s i op (({ s with mtable := enqueueMutex s.mtable m (s.tidOf i) }).goto i
        (.blockMutex m g))
  | unlockOwner {m : Int} (hs : (s.ptable i).state = .running) (hpc : s.pc i = .user)
      (ho : s.Owns i m) : KStep s i (.mutexUnlock m) ((s.release i m).returns i 0)
  | unlockOther {m : Int} (hs : (s.ptable i).state = .running) (hpc : s.pc i = .user)
      (ho : ¬ s.Owns i m) : KStep s i (.mutexUnlock m) (s.returns i (-1))
  | condAlloc (hs : (s.ptable i).state = .running) (hpc : s.pc i = .user)
      (hf : s.ctableFree = true) :
      KStep s i .condAlloc (({ s with ctable := (kthreadCondAlloc s.ctable).1 }).returns i
        (kthreadCondAlloc s.ctable).2)
  | condDealloc {c : Int} (hs : (s.ptable i).state = .running) (hpc : s.pc i = .user)
      (hf : s.ctableFree = true) :
      KStep s i (.condDealloc c) (({ s with ctable := (kthreadCondDealloc s.ctable c).1 }).returns i
        (kthreadCondDealloc s.ctable c).2)
  | condWaitOwner {c m : Int} (hs : (s.ptable i).state = .running) (hpc : s.pc i = .user)
      (hf : s.ctableFree = true)
      (hc : (s.ctable c).status = cUsed) (ho : s.Owns i m) :
      KStep s i (.condWait c m) (((s.joinCond i c m).release i m).goto i (.blockCond c m))
  | condWaitOther {c m : Int} (hs : (s.ptable i).state = .running) (hpc : s.pc i = .user)
      (hf : s.ctableFree = true)
      (hc : (s.ctable c).status = cUsed) (ho : ¬ s.Owns i m) :
      KStep s i (.condWait c m) ((s.joinCond i c m).goto i (.blockCond c m))
  | condWaitUnused {c m : Int} (hs : (s.ptable i).state = .running) (hpc : s.pc i = .user)
      (hf : s.ctableFree = true)
      (hc : (s.ctable c).status ≠ cUsed) : KStep s i (.condWait c m) (s.returns i (-1))
  | signalHead {c : Int} (hs : (s.ptable i).state = .running) (hpc : s.pc i = .user)
      (hf : s.ctableFree = true)
      (hc : (s.ctable c).count ≠ 0) :
      KStep s i (.condSignal c) ((s.dequeueSignal c).goto i (.signalWake c (s.signalHead c)))
  | signalEmpty {c : Int} (hs : (s.ptable i).state = .running) (hpc : s.pc i = .user)
      (hf : s.ctableFree = true)
      (hc : (s.ctable c).count = 0) : KStep s i (.condSignal c) (s.returns i 0)
  | signalWake {c tid : Int} (hs : (s.ptable i).state = .running)
      (hpc : s.pc i = .signalWake c tid) :
      KStep s i .signalWake (({ s with ptable := wakeBlocked s.ptable tid }).returns i 0)

theorem lockSection_kstep {s t : Kthreads n} {i : Fin n} {op : KOp} {m : Int} {g : Nat}
    (hs : (s.ptable i).state = .running) (he : s.LockEntry i op m g)
    (h : s.lockSection i m g = some t) : KStep s i op t := by
  unfold lockSection at h
  split at h
  · rename_i t' r ht
    rcases kthreadMutexLock_ret ht with ⟨hm, rfl, rfl⟩ | ⟨hm, rfl, rfl⟩
    · cases h
      exact .lockUnused hs he hm
    · cases h
      exact .lockFree hs he hm
  · rename_i t' ht
    obtain ⟨hm, ⟨hq, rfl⟩ | ⟨hq, rfl⟩⟩ := kthreadMutexLock_block ht
    · cases h
      exact .lockQueued hs he hm hq
    · cases h
      exact .lockEnqueue hs he hm hq
  · cases h

theorem unlockSection_owner {s : Kthreads n} {i : Fin n} {m : Int} (ho : s.Owns i m) :
    s.unlockSection i m = (s.release i m, 0) := by
  simp only [unlockSection, kthreadMutexUnlock_owner s.mtable s.ptable ho]
  rfl

theorem unlockSection_other {s : Kthreads n} {i : Fin n} {m : Int} (ho : ¬ s.Owns i m) :
    s.unlockSection i m = (s, -1) := by
  simp only [unlockSection, kthreadMutexUnlock_other s.mtable s.ptable ho]
  rfl

theorem exec_kstep {s t : Kthreads n} {i : Fin n} {op : KOp} (hs : (s.ptable i).state = .running)
    (hf : op.locksCtable = true → s.ctableFree = true) (h : s.exec i op (s.pc i) = some t) : KStep s i op t := by
  cases hpc : s.pc i <;> rw [hpc] at h <;> cases op <;> simp only [exec, reduceCtorEq] at h
  case user.mutexLock m => exact lockSection_kstep hs (Or.inl ⟨rfl, hpc, rfl⟩) h
  case retryMutex.mutexRetry m g => exact lockSection_kstep hs (Or.inr ⟨rfl, hpc⟩) h
  case user.mutexDealloc m =>
    by_cases hm : (s.mtable m).status = mUnlocked
    · simp only [kthreadMutexDealloc, if_pos hm] at h
      cases h
      exact .deallocFree hs hpc hm
    · simp only [kthreadMutexDealloc, if_neg hm] at h
      cases h
      exact .deallocBusy hs hpc hm
  case user.mutexUnlock m =>
    by_cases ho : s.Owns i m
    · rw [unlockSection_owner ho] at h
      cases h
      exact .unlockOwner hs hpc ho
    · rw [unlockSection_other ho] at h
      cases h
      exact .unlockOther hs hpc ho
  case user.condWait c m =>
    by_cases hc : (s.ctable c).status = cUsed
    · by_cases ho : s.Owns i m
      · simp only [kthreadCondWait, if_pos hc, kthreadMutexUnlock_owner s.mtable s.ptable ho] at h
        cases h
        exact .condWaitOwner hs hpc (hf rfl) hc ho
      · simp only [kthreadCondWait, if_pos hc, kthreadMutexUnlock_other s.mtable s.ptable ho] at h
        cases h
        exact .condWaitOther hs hpc (hf rfl) hc ho
    · simp only [kthreadCondWait, if_neg hc] at h
      cases h
      exact .condWaitUnused hs hpc (hf rfl) hc
  case user.condSignal c =>
    by_cases hc : (s.ctable c).count = 0
    · simp only [kthreadCondSignal, hc, ne_eq, not_true_eq_false, if_false] at h
      cases h
      exact .signalEmpty hs hpc (hf rfl) hc
    · simp only [kthreadCondSignal, if_pos hc] at h
      cases h
      exact .signalHead hs hpc (hf rfl) hc
  all_goals cases h
  case user.mutexAlloc => exact .alloc hs hpc
  case user.condAlloc => exact .condAlloc hs hpc (hf rfl)
  case user.condDealloc c => exact .condDealloc hs hpc (hf rfl)
  case blockMutex.block m g => exact .blockMutex hs hpc
  case blockCond.block c m => exact .blockCond hs hpc
  case signalWake.signalWake c tid => exact .signalWake hs hpc
  all_goals exact .yield hs (by simp [hpc])

theorem step_kstep {s t : Kthreads n} {e : Fin n × KOp} (h : s.step e = some t) :
    KStep s e.1 e.2 t := by
  obtain ⟨i, op⟩ := e
  unfold step at h
  split at h
  · rename_i hs hop
    cases hop
    cases h
    dsimp only at hs ⊢
    cases hpc : s.pc i with
    | waitMutex m g => simpa [resume, hpc] using KStep.resumeMutex hs hpc
    | waitCond c m => simpa [resume, hpc] using KStep.resumeCond hs hpc
    | _ => simpa [resume, hpc] using KStep.resumeOther hs (by simp [hpc]) (by simp [hpc])
  · rename_i hs
    split at h
    · cases h
    · rename_i hf
      exact exec_kstep hs (fun hl => by simpa [hl] using hf) h
  · cases h

theorem lockSection_step {s : Kthreads n} {i : Fin n} {op : KOp} {m : Int} {g : Nat}
    (hs : (s.ptable i).state = .running) (he : s.LockEntry i op m g) :
    s.step (i, op) = s.lockSection i m g := by
  rcases he with ⟨rfl, hpc, rfl⟩ | ⟨rfl, hpc⟩ <;>
    simp [step, hs, exec, hpc, KOp.locksCtable]

theorem kstep_step {s t : Kthreads n} {i : Fin n} {op : KOp} (h : KStep s i op t) :
    s.step (i, op) = some t := by
  cases h with
  | resumeMutex hs hpc => simp [step, hs, resume, hpc]
  | resumeCond hs hpc => simp [step, hs, resume, hpc]
  | resumeOther hs hm hc =>
    cases hpc : s.pc i with
    | waitMutex m g => exact absurd hpc (hm m g)
    | waitCond c m => exact absurd hpc (hc c m)
    | _ => simp [step, hs, resume, hpc]
  | lockUnused hs he hm =>
    rw [lockSection_step hs he]
    simp [lockSection, kthreadMutexLock, hm]
  | lockFree hs he hm =>
    rw [lockSection_step hs he]
    simp [lockSection, kthreadMutexLock, hm]
  | lockQueued hs he hm hq =>
    rw [lockSection_step hs he]
    simp [lockSection, kthreadMutexLock, hm, hq]
  | lockEnqueue hs he hm hq =>
    rw [lockSection_step hs he]
    simp [lockSection, kthreadMutexLock, hm, hq]
  | deallocFree hs hpc hm => simp [step, hs, exec, hpc, kthreadMutexDealloc, hm, KOp.locksCtable]
  | deallocBusy hs hpc hm => simp [step, hs, exec, hpc, kthreadMutexDealloc, hm, KOp.locksCtable]
  | unlockOwner hs hpc ho => simp [step, hs, exec, hpc, unlockSection_owner ho, KOp.locksCtable]
  | unlockOther hs hpc ho => simp [step, hs, exec, hpc, unlockSection_other ho, KOp.locksCtable]
  | condWaitOwner hs hpc hf hc ho =>
    simp [step, hs, exec, hpc, hf, kthreadCondWait, hc, kthreadMutexUnlock_owner s.mtable s.ptable ho]
  | condWaitOther hs hpc hf hc ho =>
    simp [step, hs, exec, hpc, hf, kthreadCondWait, hc, kthreadMutexUnlock_other s.mtable s.ptable ho]
  | condWaitUnused hs hpc hf hc => simp [step, hs, exec, hpc, hf, kthreadCondWait, hc]
  | signalHead hs hpc hf hc => simp [step, hs, exec, hpc, hf, kthreadCondSignal, hc, signalHead]
  | signalEmpty hs hpc hf hc => simp [step, hs, exec, hpc, hf, kthreadCondSignal, hc]
  | signalWake hs hpc => simp [step, hs, exec, hpc, KOp.locksCtable]
  | alloc hs hpc => simp [step, hs, exec, hpc, KOp.locksCtable]
  | condAlloc hs hpc hf => simp [step, hs, exec, hpc, hf]
  | condDealloc hs hpc hf => simp [step, hs, exec, hpc, hf]
  | yield hs hpc => cases hpc' : s.pc i <;> simp_all [step, exec, KOp.locksCtable]
  | blockMutex hs hpc => simp [step, hs, exec, hpc, KOp.locksCtable]
  | blockCond hs hpc => simp [step, hs, exec, hpc, KOp.locksCtable]

theorem run_kstep {s t u : Kthreads n} {i : Fin n} {op : KOp} {es : List (Fin n × KOp)}
    (h : KStep s i op t) (hr : t.run es = some u) : s.run ((i, op) :: es) = some u :=
  (GuardedRun.run_cons step).mpr ⟨t, kstep_step h, hr⟩

theorem kstep_tidOf {s t : Kthreads n} {i : Fin n} {op : KOp} (h : KStep s i op t) (j : Fin n) :
    t.tidOf j = s.tidOf j := by
  cases h <;> simp [tidOf]

theorem kstep_pc_other {s t : Kthreads n} {i j : Fin n} {op : KOp} (h : KStep s i op t)
    (hj : j ≠ i) : t.pc j = s.pc j := by
  cases h <;> simp [hj]

theorem kstep_blocking_other {s t : Kthreads n} {i j : Fin n} {op : KOp} (h : KStep s i op t)
    (hj : j ≠ i) (hb : (t.ptable j).state = .blocking) : (s.ptable j).state = .blocking := by
  cases h
  case unlockOwner | condWaitOwner | signalWake => exact wakeBlocked_blocking hb
  case resumeMutex | resumeCond | resumeOther | yield | blockMutex | blockCond =>
    simpa [setState_other _ _ hj] using hb
  all_goals exact hb

def InLock (s : Kthreads n) (i : Fin n) (m : Int) (g : Nat) : Prop :=
  s.pc i = .blockMutex m g ∨ s.pc i = .waitMutex m g ∧ (s.ptable i).state = .blocking

theorem kstep_inLock {s t : Kthreads n} {i j : Fin n} {op : KOp} {m : Int} {g : Nat}
    (h : KStep s i op t) (hj : t.InLock j m g) :
    s.InLock j m g ∨ j = i ∧ (s.mtable m).status = mLocked ∧ s.LockEntry i op m g := by
  by_cases hji : j = i
  · subst hji
    cases h with
    | blockMutex hs hpc =>
      simp only [InLock, goto, Function.update_self, reduceCtorEq, Pc.waitMutex.injEq,
        false_or] at hj
      exact Or.inl (Or.inl (by rw [hpc, hj.1.1, hj.1.2]))
    | lockQueued hs he hm hq | lockEnqueue hs he hm hq =>
      simp only [InLock, goto, Function.update_self, Pc.blockMutex.injEq, reduceCtorEq, false_and,
        or_false] at hj
      obtain ⟨rfl, rfl⟩ := hj
      exact Or.inr ⟨rfl, hm, he⟩
    | resumeOther hs hm hw =>
      rcases hj with hj | ⟨hj, _⟩
      · exact Or.inl (Or.inl hj)
      · exact absurd hj (hm m g)
    | yield hs hpc =>
      rcases hj with hj | ⟨_, hb⟩
      · exact Or.inl (Or.inl hj)
      · simp at hb
    | _ => simp [InLock] at hj
  · rw [InLock, kstep_pc_other h hji] at hj
    rcases hj with hj | ⟨hj, hb⟩
    · exact Or.inl (Or.inl hj)
    · exact Or.inl (Or.inr ⟨hj, kstep_blocking_other h hji hb⟩)

theorem update_pc_frame (f : Fin n → Pc) (i : Fin n) {p q : Pc} (hpq : p ≠ q) (j : Fin n)
    (h : Function.update f i p j = q) : f j = q := by
  by_cases hj : j = i
  · subst hj
    rw [Function.update_self] at h
    exact absurd h hpq
  · rwa [Function.update_of_ne hj] at h

theorem LockEntry.unique {s : Kthreads n} {i : Fin n} {op : KOp} {m m' : Int} {g g' : Nat}
    (h : s.LockEntry i op m g) (h' : s.LockEntry i op m' g') : m = m' := by
  rcases h with ⟨rfl, _, _⟩ | ⟨rfl, hpc⟩ <;> rcases h' with ⟨he, _, _⟩ | ⟨he, hpc'⟩
  · cases he; rfl
  · cases he
  · cases he
  · rw [hpc] at hpc'; cases hpc'; rfl

structure Boot (s : Kthreads n) : Prop where
  mtable : s.mtable = fun _ => ⟨0, fun _ => 0, mUnused, 0, 0⟩
  ctable : s.ctable = fun _ => ⟨cUnused, fun _ => 0, 0, 0, 0⟩
  pc : ∀ i, s.pc i = .user
  held : ∀ i m, s.held i m = false
  deallocs : ∀ m, s.deallocs m = 0

end Kthreads

def KOp.isMutex : KOp → Bool
  | .condAlloc | .condDealloc _ | .condWait _ _ | .condSignal _ | .signalWake => false
  | _ => true

def KOp.inRange : KOp → Bool
  | .mutexDealloc m | .mutexLock m | .mutexUnlock m => decide (0 ≤ m ∧ m < maxMutexes)
  | .condDealloc c | .condSignal c => decide (0 ≤ c ∧ c < maxConds)
  | .condWait c m => decide ((0 ≤ c ∧ c < maxConds) ∧ 0 ≤ m ∧ m < maxMutexes)
  | _ => true

theorem Kthreads.LockEntry.isMutex {n : Nat} {s : Kthreads n} {i : Fin n} {op : KOp} {m : Int}
    {g : Nat} (h : s.LockEntry i op m g) : op.isMutex = true := by
  rcases h with ⟨rfl, _⟩ | ⟨rfl, _⟩ <;> rfl

end Xv6
