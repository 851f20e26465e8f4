import Xv6.Kthread.MutualExclusion

namespace Xv6

inductive Access where
  | lock (i : Int)
  | cond (i : Int)
  deriving DecidableEq, Repr

def Access.InTable : Access → Prop
  | .lock i => 0 ≤ i ∧ i < maxMutexes
  | .cond i => 0 ≤ i ∧ i < maxConds

instance : DecidablePred Access.InTable := fun a => by
  cases a <;> unfold Access.InTable <;> infer_instance

def scanned (isFree : Nat → Bool) (size : Int) : List Nat :=
  (List.range size.toNat).take ((List.range size.toNat).findIdx isFree + 1)

def KOp.ids : KOp → List Access
  | .mutexDealloc m | .mutexLock m | .mutexUnlock m => [.lock m]
  | .condDealloc c | .condSignal c => [.cond c]
  | .condWait c m => [.cond c, .lock m]
  | _ => []

def KOp.int32 (op : KOp) : Prop :=
  ∀ a ∈ op.ids, match a with
    | .lock i | .cond i => -2 ^ 31 ≤ i ∧ i < 2 ^ 31

namespace Kthreads

variable {n : Nat}

-- The subscripts of `mtable.kthread_locks` and `ctable.conds` that one section evaluates.
def accesses (s : Kthreads n) (i : Fin n) : KOp → List Access
  | .mutexAlloc =>
    (scanned (fun j => decide ((s.mtable j).status = mUnused)) maxMutexes).map fun j : Nat => .lock j
  | .mutexDealloc m | .mutexLock m | .mutexUnlock m => [.lock m]
  | .mutexRetry => match s.pc i with
    | .retryMutex m _ => [.lock m]
    | _ => []
  | .condAlloc =>
    (scanned (fun j => decide ((s.ctable j).status = cUnused)) maxConds).map fun j : Nat => .cond j
  | .condDealloc c => [.cond c]
  | .condWait c m => .cond c :: if (s.ctable c).status = cUsed then [.lock m] else []
  | .condSignal c =>
    .cond c :: if (s.ctable c).count ≠ 0 then [.lock (s.ctable c).waitingMutexID] else []
  | .schedule | .yield | .block | .signalWake => []

structure Confined (s : Kthreads n) (e : Fin n × KOp) (t : Kthreads n) : Prop where
  inTable : ∀ a ∈ s.accesses e.1 e.2, a.InTable
  refused : (∃ a ∈ e.2.ids, ¬ a.InTable) →
    t.eax e.1 = -1 ∧ t.mtable = s.mtable ∧ t.ctable = s.ctable ∧ t.ptable = s.ptable

def IdStep (s : Kthreads n) (e : Fin n × KOp) : Prop :=
  match e.2 with
  | .condWait c m =>
    (Access.cond c).InTable ∧ ((s.ctable c).status = cUsed → (Access.lock m).InTable)
  | op => ∀ a ∈ op.ids, a.InTable

instance (s : Kthreads n) (e : Fin n × KOp) : Decidable (s.IdStep e) := by
  unfold IdStep; split <;> infer_instance

structure StoredIds (s : Kthreads n) : Prop where
  waiting : ∀ c, (Access.lock (s.ctable c).waitingMutexID).InTable
  retry : ∀ i m g, s.pc i = .blockMutex m g ∨ s.pc i = .waitMutex m g ∨ s.pc i = .retryMutex m g →
    (Access.lock m).InTable

theorem scanned_lt {isFree : Nat → Bool} {size : Int} {j : Nat} (h : j ∈ scanned isFree size) :
    (j : Int) < size := by
  have hj := List.mem_range.mp (List.mem_of_mem_take h)
  omega

theorem IdStep.lockEntry {s : Kthreads n} {i : Fin n} {op : KOp} {m : Int} {g : Nat}
    (hc : s.IdStep (i, op)) (hs : s.StoredIds) (he : s.LockEntry i op m g) :
    (Access.lock m).InTable := by
  rcases he with ⟨rfl, _, _⟩ | ⟨rfl, hpc⟩
  · exact hc _ (by simp [KOp.ids])
  · exact hs.retry i m g (Or.inr (Or.inr hpc))

theorem kstep_waitingMutexID {s t : Kthreads n} {i : Fin n} {op : KOp} (h : KStep s i op t)
    (c : Int) : (t.ctable c).waitingMutexID = (s.ctable c).waitingMutexID ∨
      (t.ctable c).waitingMutexID = 0 ∨
      ∃ m, op = .condWait c m ∧ (s.ctable c).status = cUsed ∧ (t.ctable c).waitingMutexID = m := by
  cases h with
  | condAlloc hs hpc hf =>
    simp only [returns, kthreadCondAlloc]
    split
    · rename_i j hj
      by_cases hc : c = j
      · subst hc; exact Or.inr (Or.inl (by simp))
      · exact Or.inl (by simp [hc])
    · exact Or.inl rfl
  | @condDealloc c' hs hpc hf =>
    simp only [returns, kthreadCondDealloc]
    split
    · by_cases hc : c = c'
      · subst hc; exact Or.inl (by simp)
      · exact Or.inl (by simp [hc])
    · exact Or.inl rfl
  | @condWaitOwner c' m hs hpc hf hc ho | @condWaitOther c' m hs hpc hf hc ho =>
    by_cases hcc : c = c'
    · subst hcc
      exact Or.inr (Or.inr ⟨m, rfl, hc, by simp [enqueueCond]⟩)
    · exact Or.inl (by simp [hcc])
  | @signalHead c' hs hpc hf hc =>
    by_cases hcc : c = c'
    · subst hcc; exact Or.inl (by simp [dequeueCond])
    · exact Or.inl (by simp [hcc])
  | _ => exact Or.inl rfl

theorem kstep_lockPc {s t : Kthreads n} {i j : Fin n} {op : KOp} (h : KStep s i op t) {m : Int}
    {g : Nat} (hj : t.pc j = .blockMutex m g ∨ t.pc j = .waitMutex m g ∨ t.pc j = .retryMutex m g) :
    (s.pc j = .blockMutex m g ∨ s.pc j = .waitMutex m g ∨ s.pc j = .retryMutex m g) ∨
      s.LockEntry i op m g := by
  by_cases hji : j = i
  · subst hji
    cases h with
    | resumeMutex hs hpc | blockMutex hs hpc => left; simp_all
    | lockQueued hs he hm hq | lockEnqueue hs he hm hq => right; simp_all
    | resumeOther hs hm hc | yield hs hpc => exact Or.inl hj
    | _ => simp at hj
  · rw [kstep_pc_other h hji] at hj
    exact Or.inl hj

theorem storedIds_step (s : Kthreads n) (e : Fin n × KOp) (t : Kthreads n) (hs : s.StoredIds)
    (hc : s.IdStep e) (hst : s.step e = some t) : t.StoredIds := by
  have hk := step_kstep hst
  refine ⟨fun c => ?_, fun j m g hj => ?_⟩
  · rcases kstep_waitingMutexID hk c with hw | hw | ⟨m, hop, hu, hw⟩
    · rw [hw]
      exact hs.waiting c
    · rw [hw]
      decide
    · rw [hw]
      simp only [IdStep, hop] at hc
      exact hc.2 hu
  · rcases kstep_lockPc hk hj with hj | he
    · exact hs.retry j m g hj
    · exact hc.lockEntry hs he

theorem accesses_inTable {s : Kthreads n} {i : Fin n} {op : KOp} (hs : s.StoredIds)
    (hc : s.IdStep (i, op)) : ∀ a ∈ s.accesses i op, a.InTable := by
  intro a ha
  cases op with
  | mutexAlloc | condAlloc =>
    obtain ⟨j, hj, rfl⟩ := List.mem_map.mp ha
    exact ⟨Int.natCast_nonneg j, scanned_lt hj⟩
  | mutexRetry =>
    simp only [accesses] at ha
    split at ha
    · rename_i m g hpc
      rw [List.mem_singleton.mp ha]
      exact hs.retry i m g (Or.inr (Or.inr hpc))
    · cases ha
  | condWait c m =>
    simp only [accesses, List.mem_cons] at ha
    rcases ha with rfl | ha
    · exact hc.1
    · split at ha
      · rename_i hu
        rw [List.mem_singleton.mp ha]
        exact hc.2 hu
      · cases ha
  | condSignal c =>
    simp only [accesses, List.mem_cons] at ha
    rcases ha with rfl | ha
    · exact hc _ (by simp [KOp.ids])
    · split at ha
      · rw [List.mem_singleton.mp ha]
        exact hs.waiting c
      · cases ha
  | mutexDealloc m | mutexLock m | mutexUnlock m | condDealloc c => exact hc a ha
  | schedule | yield | block | signalWake => cases ha

theorem outside_refused {s t : Kthreads n} {e : Fin n × KOp} (hc : s.IdStep e)
    (hst : s.step e = some t) (ho : ∃ a ∈ e.2.ids, ¬ a.InTable) :
    t.eax e.1 = -1 ∧ t.mtable = s.mtable ∧ t.ctable = s.ctable ∧ t.ptable = s.ptable := by
  obtain ⟨a, ha, hna⟩ := ho
  have hk := step_kstep hst
  cases hop : e.2 with
  | condWait c m =>
    simp only [IdStep, hop] at hc
    simp only [hop, KOp.ids, List.mem_cons, List.not_mem_nil, or_false] at ha
    rcases ha with rfl | rfl
    · exact absurd hc.1 hna
    · have hu : (s.ctable c).status ≠ cUsed := fun hu => hna (hc.2 hu)
      rw [hop] at hk
      cases hk with
      | condWaitOwner hs hpc hf hc ho | condWaitOther hs hpc hf hc ho => exact absurd hc hu
      | condWaitUnused hs hpc hf hc => simp
      | lockUnused _ he | lockFree _ he | lockQueued _ he | lockEnqueue _ he =>
        rcases he with ⟨he, _⟩ | ⟨he, _⟩ <;> cases he
  | _ =>
    simp only [IdStep, hop] at hc
    rw [hop] at ha
    exact absurd (hc a ha) hna

theorem Boot.storedIds {s : Kthreads n} (hs : s.Boot) : s.StoredIds := by
  refine ⟨fun c => ?_, fun i m g hi => ?_⟩
  · simp only [hs.ctable]
    decide
  · simp [hs.pc i] at hi

theorem table_ids_confined {s : Kthreads n} {es : List (Fin n × KOp)} (hs : s.Boot)
    (hes : GuardedRun.along step IdStep s es) :
    GuardedRun.along step (fun s e => ∀ t, s.step e = some t → s.Confined e t) s es :=
  GuardedRun.along_of_invariant storedIds_step
    (fun _ _ hi hc _ hst => ⟨accesses_inTable hi hc, outside_refused hc hst⟩) hs.storedIds hes

def waitThenSignal (m : Int) : List (Fin nproc × KOp) :=
  [(0, .condAlloc), (0, .mutexAlloc), (0, .mutexLock 0), (0, .condWait 0 m), (0, .block),
    (1, .condWait 1 99)]

theorem table_ids_confined_waitThenSignal :
    (∃ t, relayStart.run (waitThenSignal 0 ++ [(1, .condSignal 0)]) = some t ∧ t.eax 1 = -1) ∧
      GuardedRun.along step (fun s e => ∀ t, s.step e = some t → s.Confined e t) relayStart
        (waitThenSignal 0 ++ [(1, .condSignal 0)]) :=
  ⟨GuardedRun.exists_of_any (by decide +kernel),
    table_ids_confined relayStart_boot (GuardedRun.along_of_checks (by decide +kernel))⟩

theorem signal_outside_table :
    ¬ ∀ (s : Kthreads nproc) (es : List (Fin nproc × KOp)), s.Boot → (∀ e ∈ es, e.2.int32) →
      GuardedRun.along step (fun s e => ∀ t, s.step e = some t → s.Confined e t) s es := by
  intro hall
  have hint : ∀ e ∈ waitThenSignal 64 ++ [(1, .condSignal 0)], e.2.int32 := by
    simp [waitThenSignal, KOp.int32, KOp.ids]
  have hrun : ∃ t, relayStart.run (waitThenSignal 64) = some t ∧
      .lock 64 ∈ t.accesses 1 (.condSignal 0) ∧ (t.step (1, .condSignal 0)).isSome :=
    GuardedRun.exists_of_any (by decide +kernel)
  obtain ⟨t, ht, hmem, hsome⟩ := hrun
  obtain ⟨u, hu⟩ := Option.isSome_iff_exists.mp hsome
  have hconf := GuardedRun.along_at (hall relayStart _ relayStart_boot hint) ht u hu
  exact absurd (hconf.inTable _ hmem) (by decide)

end Kthreads

end Xv6
