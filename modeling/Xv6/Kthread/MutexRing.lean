import Xv6.Lib.GuardedRun
import Xv6.Kthread.InQueue

namespace Xv6

structure MutexRing where
  mtable : Mtable
  enqueued : List Int
  dequeued : List Int

-- An unlock finds any process table.
inductive MutexCall (n : Nat) where
  | lock (threadId : Int)
  | unlock (threadId : Int) (ptable : Ptable n)

namespace MutexRing

variable {n : Nat} {m : Int} {r : MutexRing}

def Enqueues (r : MutexRing) (m threadId : Int) : Prop :=
  (r.mtable m).status = mLocked ∧ isInQueue r.mtable m threadId = some false

instance (r : MutexRing) (m threadId : Int) : Decidable (r.Enqueues m threadId) := by
  unfold Enqueues
  infer_instance

def Owner (r : MutexRing) (m threadId : Int) : Prop :=
  threadId = (r.mtable m).tid ∧ (r.mtable m).status = mLocked

instance (r : MutexRing) (m threadId : Int) : Decidable (r.Owner m threadId) := by
  unfold Owner
  infer_instance

def step (m : Int) (r : MutexRing) : MutexCall n → Option MutexRing
  | .lock threadId => (kthreadMutexLock r.mtable m threadId).map fun out =>
    { r with
      mtable := out.1
      enqueued := if r.Enqueues m threadId then r.enqueued ++ [threadId] else r.enqueued }
  | .unlock threadId pt => some
    { r with
      mtable := (kthreadMutexUnlock r.mtable pt m threadId).1
      dequeued := if r.Owner m threadId ∧ tidToWakeUp r.mtable m ≠ 0 then
        r.dequeued ++ [tidToWakeUp r.mtable m] else r.dequeued }

-- Threads have ids other than 0 and at most MAX_THREADS of them wait at once.
def Allowed (m : Int) (r : MutexRing) : MutexCall n → Prop
  | .lock threadId => threadId ≠ 0 ∧
    (r.Enqueues m threadId → (r.enqueued.length : Int) < r.dequeued.length + maxThreads)
  | .unlock _ pt => ∀ i, (pt i).state = .blocking → (pt i).threadId ≠ 0

structure Queue (m : Int) (r : MutexRing) : Prop where
  nonneg : 0 ≤ (r.mtable m).count
  bound : (r.mtable m).count ≤ maxThreads
  count : (r.mtable m).count = (r.enqueued.length : Int) - r.dequeued.length
  order : r.dequeued <+: r.enqueued

def Idle (m : Int) (r t : MutexRing) : MutexCall n → Prop
  | .lock _ => True
  | .unlock threadId pt => r.enqueued.length = r.dequeued.length →
    (t.mtable m).count = (r.mtable m).count ∧
      (t.mtable m).startIndex = (r.mtable m).startIndex ∧
      (kthreadMutexUnlock r.mtable pt m threadId).2.1 = pt

def Fifo (m : Int) (r : MutexRing) (e : MutexCall n) : Prop :=
  r.Queue m ∧ ∃ t, r.step m e = some t ∧ t.Queue m ∧ r.Idle m t e

-- The ring is empty at an unlock only while it has not gone once round.
def FirstLap (m : Int) (r : MutexRing) : MutexCall n → Prop
  | .lock _ => True
  | .unlock threadId _ => r.Owner m threadId → r.enqueued.length = r.dequeued.length →
    (r.enqueued.length : Int) < maxThreads

instance (m : Int) (r : MutexRing) (e : MutexCall n) : Decidable (r.Allowed m e) := by
  cases e <;> (unfold Allowed; infer_instance)

instance (m : Int) (r : MutexRing) (e : MutexCall n) : Decidable (r.FirstLap m e) := by
  cases e <;> (unfold FirstLap; infer_instance)

structure Inv (m : Int) (r : MutexRing) : Prop where
  start : (r.mtable m).startIndex = (r.dequeued.length : Int) % maxThreads
  count : (r.mtable m).count = (r.enqueued.length : Int) - r.dequeued.length
  room : (r.enqueued.length : Int) ≤ r.dequeued.length + maxThreads
  order : r.dequeued <+: r.enqueued
  ring : ∀ (k : Nat) (a : Int), r.enqueued[k]? = some a →
    (r.enqueued.length : Int) ≤ k + maxThreads →
    (r.mtable m).sleepingTID ((k : Int) % maxThreads) = a
  blank : ∀ x : Int, (r.enqueued.length : Int) ≤ x → x < maxThreads → (r.mtable m).sleepingTID x = 0
  ids : ∀ a ∈ r.enqueued, a ≠ 0
  status : (r.mtable m).status = mUnlocked ∨ (r.mtable m).status = mLocked

theorem Inv.queue (h : r.Inv m) : r.Queue m := by
  have hle := h.order.length_le
  have hroom := h.room
  have hcount := h.count
  exact ⟨by omega, by omega, h.count, h.order⟩

theorem Inv.startIndex (h : r.Inv m) :
    0 ≤ (r.mtable m).startIndex ∧ (r.mtable m).startIndex < maxThreads := by
  rw [h.start]
  exact ⟨Int.emod_nonneg _ (by decide), Int.emod_lt_of_pos _ (by decide)⟩

theorem Inv.head (h : r.Inv m) {a : Int} (ha : r.enqueued[r.dequeued.length]? = some a) :
    tidToWakeUp r.mtable m = a ∧ a ≠ 0 := by
  obtain ⟨h0, h1⟩ := h.startIndex
  refine ⟨?_, h.ids a (List.mem_of_getElem? ha)⟩
  rw [tidToWakeUp_inside _ _ h0 h1, h.start]
  exact h.ring _ a ha h.room

theorem Inv.head_empty (h : r.Inv m) (he : r.enqueued.length = r.dequeued.length) :
    tidToWakeUp r.mtable m = 0 ↔ (r.enqueued.length : Int) < maxThreads := by
  obtain ⟨h0, h1⟩ := h.startIndex
  rw [tidToWakeUp_inside _ _ h0 h1, h.start, ← he]
  constructor
  · intro hzero
    by_contra hge
    -- One lap back the slot was given an id, and it has kept it.
    obtain ⟨k, hk⟩ : ∃ k : Nat, (r.enqueued.length : Int) = k + maxThreads :=
      ⟨r.enqueued.length - 256, by simp only [maxThreads] at *; omega⟩
    have hlt : k < r.enqueued.length := by
      simp only [maxThreads] at hk
      omega
    have hslot := h.ring k _ (List.getElem?_eq_getElem hlt) (by omega)
    have hsame : (r.enqueued.length : Int) % maxThreads = (k : Int) % maxThreads := by
      rw [hk, Int.add_emod_right]
    rw [hsame, hslot] at hzero
    exact h.ids _ (List.getElem_mem hlt) hzero
  · intro hlt
    rw [Int.emod_eq_of_lt (by omega) hlt]
    exact h.blank _ le_rfl hlt

theorem kthreadMutexLock_returns (h : r.Inv m) (threadId : Int) :
    ∃ out, kthreadMutexLock r.mtable m threadId = some out ∧
      out.1 = if (r.mtable m).status = mUnlocked then takeMutex r.mtable m threadId
        else if r.Enqueues m threadId then enqueueMutex r.mtable m threadId else r.mtable := by
  obtain ⟨b, hb⟩ : ∃ b, isInQueue r.mtable m threadId = some b :=
    ⟨_, isInQueue_eq r.mtable m threadId h.startIndex.1 h.startIndex.2 h.queue.nonneg⟩
  rcases h.status with hs | hs
  · exact ⟨(takeMutex r.mtable m threadId, .ret 0), by simp [kthreadMutexLock, hs], by simp [hs]⟩
  · cases b with
    | true =>
      exact ⟨(r.mtable, .block), by simp [kthreadMutexLock, hs, hb], by simp [hs, Enqueues, hb]⟩
    | false =>
      exact ⟨(enqueueMutex r.mtable m threadId, .block), by simp [kthreadMutexLock, hs, hb],
        by simp [hs, Enqueues, hb]⟩

theorem Inv.take (h : r.Inv m) (threadId : Int) :
    Inv m { r with mtable := takeMutex r.mtable m threadId } :=
  ⟨by simpa [takeMutex] using h.start, by simpa [takeMutex] using h.count, h.room, h.order,
    by simpa [takeMutex] using h.ring, by simpa [takeMutex] using h.blank, h.ids,
    .inr (by simp [takeMutex])⟩

theorem Inv.enqueue (h : r.Inv m) {threadId : Int} (hid : threadId ≠ 0)
    (hlocked : (r.mtable m).status = mLocked)
    (hroom : (r.enqueued.length : Int) < r.dequeued.length + maxThreads) :
    Inv m { r with
      mtable := enqueueMutex r.mtable m threadId, enqueued := r.enqueued ++ [threadId] } := by
  have hcount := h.count
  have hstart := h.start
  obtain ⟨h0, h1⟩ := h.startIndex
  have hdest : ((r.mtable m).startIndex + (r.mtable m).count) % maxThreads =
      (r.enqueued.length : Int) % maxThreads := by
    rw [hstart, hcount, Int.emod_add_emod]
    congr 1
    omega
  have hin := enqueueMutex_inside r.mtable m threadId (by have := h.queue.nonneg; omega)
  rw [hdest] at hin
  refine ⟨?_, ?_, ?_, ?_, ?_, ?_, ?_, ?_⟩
  · simpa [hin] using hstart
  · simp only [hin, Function.update_self, List.length_append, List.length_singleton]
    push_cast
    omega
  · simp only [List.length_append, List.length_singleton]
    push_cast
    omega
  · exact h.order.trans (List.prefix_append _ _)
  · intro k a ha hlap
    simp only [hin, Function.update_self]
    simp only [List.length_append, List.length_singleton] at hlap
    push_cast at hlap
    rcases Nat.lt_or_ge k r.enqueued.length with hk | hk
    · have hne : (k : Int) % maxThreads ≠ (r.enqueued.length : Int) % maxThreads := by
        simp only [maxThreads] at *
        omega
      rw [Function.update_of_ne hne]
      rw [List.getElem?_append_left hk] at ha
      exact h.ring k a ha (by omega)
    · rw [List.getElem?_append_right hk] at ha
      obtain ⟨hlt, rfl⟩ := List.getElem?_eq_some_iff.mp ha
      obtain rfl : k = r.enqueued.length := by
        rw [List.length_singleton] at hlt
        omega
      simp
  · intro x hx hlt
    simp only [List.length_append, List.length_singleton] at hx
    push_cast at hx
    simp only [hin, Function.update_self]
    have hne : x ≠ (r.enqueued.length : Int) % maxThreads := by
      simp only [maxThreads] at *
      omega
    rw [Function.update_of_ne hne]
    exact h.blank x (by omega) hlt
  · intro a ha
    rcases List.mem_append.mp ha with ha | ha
    · exact h.ids a ha
    · rw [List.mem_singleton.mp ha]
      exact hid
  · right
    simpa [hin] using hlocked

theorem releaseMutex_eq (r : MutexRing) (m : Int) :
    releaseMutex r.mtable m = Function.update r.mtable m
      (dequeueMutex { r.mtable m with status := mUnlocked, tid := 0 }
        (tidToWakeUp r.mtable m)) := by
  simp [releaseMutex, openMutex]

theorem Inv.dequeue (h : r.Inv m) {a : Int} (ha : r.enqueued[r.dequeued.length]? = some a) :
    Inv m { r with
      mtable := releaseMutex r.mtable m
      dequeued := r.dequeued ++ [tidToWakeUp r.mtable m] } := by
  obtain ⟨hhead, hne⟩ := h.head ha
  obtain ⟨h0, h1⟩ := h.startIndex
  have hstart := h.start
  have hcount := h.count
  have hlt : r.dequeued.length < r.enqueued.length := (List.getElem?_eq_some_iff.mp ha).1
  have hmod := Int.tmod_eq_emod_of_nonneg (a := (r.mtable m).startIndex + 1) (b := maxThreads)
    (by omega)
  have hrec := releaseMutex_eq r m
  rw [dequeueMutex, if_pos (by rw [hhead]; exact hne)] at hrec
  refine ⟨?_, ?_, ?_, ?_, ?_, ?_, h.ids, .inl ?_⟩
  · simp only [hrec, Function.update_self, hmod, List.length_append, List.length_singleton]
    rw [hstart, Int.emod_add_emod]
    push_cast
    rfl
  · simp only [hrec, Function.update_self, List.length_append, List.length_singleton]
    push_cast
    omega
  · simp only [List.length_append, List.length_singleton]
    have := h.room
    push_cast
    omega
  · obtain ⟨rest, hrest⟩ := h.order
    rw [← hrest, List.getElem?_append_right le_rfl, Nat.sub_self] at ha
    cases rest with
    | nil => cases ha
    | cons b rest =>
      cases ha
      rw [hhead]
      exact ⟨rest, by rw [← hrest]; simp⟩
  · simpa [hrec] using h.ring
  · simpa [hrec] using h.blank
  · simp [hrec]

theorem Inv.open (h : r.Inv m) (hhead : tidToWakeUp r.mtable m = 0) :
    Inv m { r with mtable := releaseMutex r.mtable m } := by
  have hrec := releaseMutex_eq r m
  rw [dequeueMutex, if_neg (by simp [hhead])] at hrec
  exact ⟨by simpa [hrec] using h.start, by simpa [hrec] using h.count, h.room, h.order,
    by simpa [hrec] using h.ring, by simpa [hrec] using h.blank, h.ids, .inl (by simp [hrec])⟩

theorem Inv.lock_unlocked (h : r.Inv m) (threadId : Int) (hu : (r.mtable m).status = mUnlocked) :
    r.step m (.lock threadId : MutexCall n) =
      some { r with mtable := takeMutex r.mtable m threadId } := by
  obtain ⟨out, hout, hmt⟩ := kthreadMutexLock_returns h threadId
  have hnot : ¬ r.Enqueues m threadId := fun he => absurd (hu.symm.trans he.1) (by decide)
  rw [if_pos hu] at hmt
  rw [step, hout, Option.map_some, hmt, if_neg hnot]

theorem Inv.lock_locked (h : r.Inv m) (threadId : Int) (hl : (r.mtable m).status = mLocked) :
    r.step m (.lock threadId : MutexCall n) =
      some (if r.Enqueues m threadId then { r with
        mtable := enqueueMutex r.mtable m threadId, enqueued := r.enqueued ++ [threadId] }
      else r) := by
  obtain ⟨out, hout, hmt⟩ := kthreadMutexLock_returns h threadId
  rw [if_neg (by rw [hl]; decide)] at hmt
  rw [step, hout, Option.map_some, hmt]
  split_ifs <;> rfl

theorem Inv.lock (h : r.Inv m) {threadId : Int}
    (ha : r.Allowed m (.lock threadId : MutexCall n)) :
    ∃ t, r.step m (.lock threadId : MutexCall n) = some t ∧ t.Inv m := by
  rcases h.status with hu | hl
  · exact ⟨_, h.lock_unlocked threadId hu, h.take threadId⟩
  · refine ⟨_, h.lock_locked threadId hl, ?_⟩
    split_ifs with he
    · exact h.enqueue ha.1 he.1 (ha.2 he)
    · exact h

theorem wakeBlocked_zero {pt : Ptable n} (h : ∀ i, (pt i).state = .blocking → (pt i).threadId ≠ 0) :
    wakeBlocked pt 0 = pt := by
  rcases wakeBlocked_cases pt 0 with heq | ⟨p, ⟨hb, hz⟩, -⟩
  · exact heq
  · exact absurd hz (h p hb)

theorem Inv.unlock (h : r.Inv m) {threadId : Int} {pt : Ptable n}
    (ha : r.Allowed m (.unlock threadId pt)) (hlap : r.FirstLap m (.unlock threadId pt)) :
    ∃ t, r.step m (.unlock threadId pt) = some t ∧ t.Inv m ∧
      r.Idle m t (.unlock threadId pt) := by
  refine ⟨_, rfl, ?_⟩
  by_cases ho : r.Owner m threadId
  · rw [kthreadMutexUnlock_owner r.mtable pt ho]
    rcases lt_or_ge r.dequeued.length r.enqueued.length with hlt | hge
    · have hget := List.getElem?_eq_getElem hlt
      obtain ⟨hhead, hne⟩ := h.head hget
      rw [if_pos ⟨ho, by rw [hhead]; exact hne⟩]
      refine ⟨h.dequeue hget, fun he => ?_⟩
      omega
    · have he : r.enqueued.length = r.dequeued.length := le_antisymm hge h.order.length_le
      have hhead := (h.head_empty he).mpr (hlap ho he)
      rw [if_neg (by simp [hhead])]
      refine ⟨h.open hhead, fun _ => ?_⟩
      rw [kthreadMutexUnlock_owner r.mtable pt ho, hhead]
      have hrec := releaseMutex_eq r m
      rw [dequeueMutex, if_neg (by simp [hhead])] at hrec
      exact ⟨by simp [hrec], by simp [hrec], wakeBlocked_zero ha⟩
  · rw [kthreadMutexUnlock_other r.mtable pt ho, if_neg fun hc => ho hc.1]
    refine ⟨h, fun _ => ⟨rfl, rfl, ?_⟩⟩
    rw [kthreadMutexUnlock_other r.mtable pt ho]

theorem Inv.fifo (h : r.Inv m) {e : MutexCall n} (ha : r.Allowed m e) (hlap : r.FirstLap m e) :
    ∃ t, r.step m e = some t ∧ t.Inv m ∧ r.Idle m t e := by
  cases e with
  | lock threadId =>
    obtain ⟨t, ht, hinv⟩ := h.lock ha
    exact ⟨t, ht, hinv, trivial⟩
  | unlock threadId pt => exact h.unlock ha hlap

theorem Inv.firstLap (h : r.Inv m) {e : MutexCall n} (hf : r.Fifo m e) : r.FirstLap m e := by
  cases e with
  | lock threadId => trivial
  | unlock threadId pt =>
    intro ho he
    obtain ⟨-, t, ht, -, hidle⟩ := hf
    rw [← h.head_empty he]
    by_contra hne
    have hcount := (hidle he).1
    rw [step, Option.some_inj] at ht
    rw [← ht, kthreadMutexUnlock_owner r.mtable pt ho] at hcount
    simp only [releaseMutex_eq, Function.update_self, dequeueMutex, if_pos hne] at hcount
    omega

theorem mutex_ring_fifo_iff {t : Mtable} (ht : t m = ⟨0, fun _ => 0, mUnlocked, 0, 0⟩)
    (es : List (MutexCall n)) (ha : GuardedRun.along (step m) (Allowed m) ⟨t, [], []⟩ es) :
    GuardedRun.along (step m) (Fifo m) ⟨t, [], []⟩ es ↔
      GuardedRun.along (step m) (FirstLap m) ⟨t, [], []⟩ es := by
  have hstart : Inv m ⟨t, [], []⟩ :=
    ⟨by simp [ht], by simp [ht], by simp, List.prefix_rfl, by simp, by simp [ht], by simp,
      .inl (by simp [ht])⟩
  have hstep : ∀ r (e : MutexCall n) u, Inv m r → Allowed m r e ∧ FirstLap m r e →
      step m r e = some u → Inv m u := by
    intro r e u hr hc hu
    obtain ⟨u', hu', hinv, -⟩ := hr.fifo hc.1 hc.2
    cases hu.symm.trans hu'
    exact hinv
  constructor
  · intro hf
    exact GuardedRun.along_of_invariant
      (fun r e u hr hc hu => hstep r e u hr ⟨hc.1, hr.firstLap hc.2⟩ hu)
      (fun r e hr hc => hr.firstLap hc.2) hstart (GuardedRun.along_and ha hf)
  · intro hl
    refine GuardedRun.along_of_invariant hstep (fun r e hr hc => ?_) hstart
      (GuardedRun.along_and ha hl)
    obtain ⟨u, hu, hinv, hidle⟩ := hr.fifo hc.1 hc.2
    exact ⟨hr.queue, u, hu, hinv.queue, hidle⟩

def holder (k : Nat) : Int := (k % 2 : Nat) + 1

def quiet : Ptable 2 := fun i => ⟨0, 0, 0, .running, 1, none, none, false, i.val + 1, fun _ => none⟩

def turn (k : Nat) : List (MutexCall 2) :=
  [.lock (holder (k + 1)), .unlock (holder k) quiet, .lock (holder (k + 1))]

theorem quiet_ids : ∀ i, (quiet i).state = .blocking → (quiet i).threadId ≠ 0 := by decide

structure Held (k : Nat) (r : MutexRing) : Prop where
  inv : r.Inv 0
  owner : r.Owner 0 (holder k)
  enqueued : r.enqueued.length = k
  dequeued : r.dequeued.length = k

theorem Held.turn {k : Nat} (hk : k < 256) (h : Held k r) :
    GuardedRun.along (step 0) (Allowed 0) r (turn k) ∧
      ∃ t, GuardedRun.run (step 0) r (turn k) = some t ∧ Held (k + 1) t := by
  have hid : holder (k + 1) ≠ 0 := by
    unfold holder
    omega
  have hcount : (r.mtable 0).count = 0 := by
    rw [h.inv.count, h.enqueued, h.dequeued, Int.sub_self]
  have hroom : (r.enqueued.length : Int) < r.dequeued.length + maxThreads := by
    rw [h.enqueued, h.dequeued]
    simp only [maxThreads]
    omega
  have hstart : (r.mtable 0).startIndex = k := by
    rw [h.inv.start, h.dequeued]
    simp only [maxThreads]
    omega
  have hq : r.Enqueues 0 (holder (k + 1)) := by
    refine ⟨h.owner.2, ?_⟩
    rw [isInQueue_empty _ _ _ hcount h.inv.startIndex.1 h.inv.startIndex.2, hstart,
      h.inv.blank k (by rw [h.enqueued]) (by simp only [maxThreads]; omega)]
    simp [hid.symm]
  have hlock := h.inv.lock_locked (n := 2) (holder (k + 1)) h.owner.2
  rw [if_pos hq] at hlock
  obtain ⟨u, hu⟩ : ∃ u, u = { r with
      mtable := enqueueMutex r.mtable 0 (holder (k + 1))
      enqueued := r.enqueued ++ [holder (k + 1)] } := ⟨_, rfl⟩
  rw [← hu] at hlock
  have hinv : u.Inv 0 := hu ▸ h.inv.enqueue hid h.owner.2 hroom
  have howner : u.Owner 0 (holder k) := by
    have hin := enqueueMutex_inside r.mtable 0 (holder (k + 1)) (by omega)
    rw [hu]
    simpa [Owner, hin] using h.owner
  have hget : u.enqueued[u.dequeued.length]? = some (holder (k + 1)) := by
    rw [hu, h.dequeued, ← h.enqueued]
    simp
  obtain ⟨hhead, -⟩ := hinv.head hget
  have hunlock : u.step 0 (.unlock (holder k) quiet) = some { u with
      mtable := releaseMutex u.mtable 0
      dequeued := u.dequeued ++ [tidToWakeUp u.mtable 0] } := by
    have hwakes : u.Owner 0 (holder k) ∧ tidToWakeUp u.mtable 0 ≠ 0 :=
      ⟨howner, by rw [hhead]; exact hid⟩
    rw [step, kthreadMutexUnlock_owner u.mtable quiet howner, if_pos hwakes]
  have hnext := (hinv.dequeue hget).lock_unlocked (n := 2) (holder (k + 1))
    (releaseMutex_self u.mtable 0).1
  refine ⟨GuardedRun.along_cons ⟨hid, fun _ => hroom⟩ hlock
    (GuardedRun.along_cons quiet_ids hunlock (GuardedRun.along_cons ⟨hid, fun hq' => ?_⟩ hnext
      trivial)), _, (GuardedRun.run_cons _).mpr ⟨u, hlock, (GuardedRun.run_cons _).mpr
      ⟨_, hunlock, (GuardedRun.run_cons _).mpr ⟨_, hnext, rfl⟩⟩⟩, ?_⟩
  · exact absurd ((releaseMutex_self u.mtable 0).1.symm.trans hq'.1) (by decide)
  · refine ⟨(hinv.dequeue hget).take _, ⟨by simp [takeMutex], by simp [takeMutex]⟩, ?_, ?_⟩
    · simp [hu, h.enqueued]
    · simp [hu, h.dequeued]

def turns (k : Nat) : List (MutexCall 2) := (List.range k).flatMap turn

theorem Held.turns (h : Held 0 r) {k : Nat} (hk : k ≤ 256) :
    GuardedRun.along (step 0) (Allowed 0) r (turns k) ∧
      ∃ t, GuardedRun.run (step 0) r (turns k) = some t ∧ Held k t := by
  induction k with
  | zero => exact ⟨trivial, r, rfl, h⟩
  | succ k ih =>
    obtain ⟨halong, t, hrun, ht⟩ := ih (by omega)
    obtain ⟨hturn, u, hu, hheld⟩ := ht.turn (by omega)
    rw [MutexRing.turns, List.range_succ, List.flatMap_append, List.flatMap_singleton]
    refine ⟨GuardedRun.along_append halong fun v hv => ?_, u,
      (GuardedRun.run_append _).mpr ⟨t, hrun, hu⟩, hheld⟩
    cases hrun.symm.trans hv
    exact hturn

def freshRing : MutexRing := ⟨fun _ => ⟨0, fun _ => 0, mUnlocked, 0, 0⟩, [], []⟩

theorem freshRing_inv : freshRing.Inv 0 :=
  ⟨rfl, rfl, by decide, List.prefix_rfl, by simp [freshRing], fun _ _ _ => rfl,
    by simp [freshRing], .inl rfl⟩

theorem freshRing_held : ∃ r, freshRing.step 0 (.lock 1 : MutexCall 2) = some r ∧ Held 0 r :=
  ⟨_, freshRing_inv.lock_unlocked 1 rfl, freshRing_inv.take 1, ⟨rfl, rfl⟩, rfl, rfl⟩

theorem mutex_ring_fifo_turn :
    GuardedRun.along (step 0) (Fifo 0) freshRing (.lock 1 :: turn 0) := by
  have hfresh : freshRing.mtable 0 = ⟨0, fun _ => 0, mUnlocked, 0, 0⟩ := rfl
  have hallowed : GuardedRun.along (step 0) (Allowed 0) freshRing (.lock 1 :: turn 0) :=
    GuardedRun.along_of_checks (by decide +kernel)
  exact (mutex_ring_fifo_iff hfresh (.lock 1 :: turn 0) hallowed).mpr
    (GuardedRun.along_of_checks (by decide +kernel))

-- Once the ring has gone round, an unlock of the empty ring finds the id of the first lap.
theorem mutex_ring_underflows : ¬ ∀ es : List (MutexCall 2),
    GuardedRun.along (step 0) (Allowed 0) freshRing es →
      GuardedRun.along (step 0) (Fifo 0) freshRing es := by
  intro hall
  obtain ⟨r, hlock, hheld⟩ := freshRing_held
  obtain ⟨halong, t, hrun, ht⟩ := hheld.turns le_rfl
  have hallowed : GuardedRun.along (step 0) (Allowed 0) freshRing
      (.lock 1 :: (turns 256 ++ [.unlock (holder 256) quiet])) := by
    refine GuardedRun.along_cons ⟨by decide, fun hq => absurd hq.1 (by decide)⟩ hlock
      (GuardedRun.along_append halong fun u _ => ⟨quiet_ids, fun _ _ => trivial⟩)
  have hfifo := hall _ hallowed
  have hlast : t.Fifo 0 (.unlock (holder 256) quiet) :=
    GuardedRun.along_at (hfifo.2 r hlock) hrun
  have hlt := ht.inv.firstLap hlast ht.owner (ht.enqueued.trans ht.dequeued.symm)
  rw [ht.enqueued] at hlt
  exact absurd hlt (by decide)

end MutexRing

end Xv6
