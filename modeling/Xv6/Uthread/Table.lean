import Xv6.Lib.GuardedRun
import Xv6.Uthread.Selection

namespace Xv6.Uthread

open SlotScan

namespace Process

variable {F R : Type}

def EnteredOnce (created : List (Int × F)) (dispatched : List (Dispatch F)) : Prop :=
  ∀ before d after, dispatched = before ++ d :: after →
    (d.tid ∈ before.map Dispatch.tid → d.entered = none) ∧
    (d.tid ∉ before.map Dispatch.tid → ∃ f, (d.tid, f) ∈ created ∧ d.entered = some f)

structure Table (s : Process F R) : Prop where
  count : s.numberOfCT = s.liveCount
  tid : ∀ j, s.Live j → 0 < (s.threads j).tid ∧ (s.threads j).tid ≤ s.created.length
  distinct : ∀ i j, s.Live i → (s.threads i).tid = (s.threads j).tid → i = j
  priority : ∀ j, s.Live j → 0 ≤ (s.threads j).priority ∧ (s.threads j).priority ≤ 9
  index : ∀ p, -1 ≤ s.pbRrIndexes p ∧ s.pbRrIndexes p < maxUthreads
  nextTid : s.nextTid = int32 (s.created.length + 1)
  numbered : s.created.map Prod.fst = (List.range s.created.length).map fun k : Nat => (k : Int) + 1
  function : ∀ j, s.Live j → ∃ f, (s.threads j).startFunc = some f ∧
    ((s.threads j).tid, f) ∈ s.created
  firstRun : ∀ j, s.Live j → ((s.threads j).firstRun = true ↔
    (s.threads j).tid ∉ s.dispatched.map Dispatch.tid)
  logged : ∀ d ∈ s.dispatched, d.tid ≤ s.created.length
  entered : EnteredOnce s.created s.dispatched

variable {s : Process F R}

theorem getNextPB_finds (ht : s.Table) {j : Fin maxUthreads} (hj : s.Live j) :
    ∃ (i : Fin maxUthreads) (p : Fin priorities), s.Live i ∧ s.nextThreadToRun =
      some ((i : Int), { s with pbRrIndexes := Function.update s.pbRrIndexes p i }) := by
  obtain ⟨p, hp, -⟩ := exists_served ⟨j, hj, ht.priority j hj⟩
  obtain ⟨i, hcall, hnext, -⟩ := getNextPB_next hp (ht.index p).1
  exact ⟨i, p, (inPriority_iff.mp hnext).1, hcall⟩

theorem EnteredOnce.append {created : List (Int × F)} {dispatched : List (Dispatch F)}
    (h : EnteredOnce created dispatched) {d : Dispatch F}
    (hold : d.tid ∈ dispatched.map Dispatch.tid → d.entered = none)
    (hnew : d.tid ∉ dispatched.map Dispatch.tid →
      ∃ f, (d.tid, f) ∈ created ∧ d.entered = some f) :
    EnteredOnce created (dispatched ++ [d]) := by
  intro before e after he
  rcases List.eq_nil_or_concat after with rfl | ⟨after, x, rfl⟩
  · obtain ⟨rfl, hde⟩ := List.append_inj' he rfl
    cases hde
    exact ⟨hold, hnew⟩
  · rw [List.concat_eq_append, ← List.cons_append, ← List.append_assoc] at he
    obtain ⟨he, -⟩ := List.append_inj' he rfl
    exact h before e after he

theorem EnteredOnce.mono {created created' : List (Int × F)} {dispatched : List (Dispatch F)}
    (h : EnteredOnce created dispatched) (hs : ∀ x ∈ created, x ∈ created') :
    EnteredOnce created' dispatched := by
  intro before d after he
  obtain ⟨h1, h2⟩ := h before d after he
  refine ⟨h1, fun hn => ?_⟩
  obtain ⟨f, hf, hd⟩ := h2 hn
  exact ⟨f, hs _ hf, hd⟩

theorem liveCount_congr {t : Process F R} (h : ∀ j, t.Live j ↔ s.Live j) :
    t.liveCount = s.liveCount := by
  unfold liveCount
  congr 1
  exact Finset.filter_congr fun j _ => h j

theorem Table.setThread (ht : s.Table) (j : Fin maxUthreads) {t : UthreadT F R}
    (htid : t.tid = (s.threads j).tid) (hfunc : t.startFunc = (s.threads j).startFunc)
    (hfirst : t.firstRun = (s.threads j).firstRun) (hpr : 0 ≤ t.priority ∧ t.priority ≤ 9) :
    (s.setThread j t).Table ∧ ∀ i, (s.setThread j t).Live i ↔ s.Live i := by
  have hat : ∀ i, ((s.setThread j t).threads i).tid = (s.threads i).tid ∧
      ((s.setThread j t).threads i).startFunc = (s.threads i).startFunc ∧
      ((s.setThread j t).threads i).firstRun = (s.threads i).firstRun := by
    intro i
    by_cases hi : i = j
    · rw [hi, Process.setThread]
      simp [htid, hfunc, hfirst]
    · simp [Process.setThread, hi]
  have hlive : ∀ i, (s.setThread j t).Live i ↔ s.Live i := by
    intro i
    rw [Live, (hat i).1, Live]
  refine ⟨⟨?_, ?_, ?_, ?_, ht.index, ht.nextTid, ht.numbered, ?_, ?_, ht.logged, ht.entered⟩, hlive⟩
  · exact ht.count.trans (congrArg Nat.cast (liveCount_congr hlive).symm)
  · intro i hi
    rw [(hat i).1]
    exact ht.tid i ((hlive i).mp hi)
  · intro i k hi he
    rw [(hat i).1, (hat k).1] at he
    exact ht.distinct i k ((hlive i).mp hi) he
  · intro i hi
    by_cases hij : i = j
    · rw [hij, Process.setThread]
      simpa using hpr
    · have := ht.priority i ((hlive i).mp hi)
      simpa [Process.setThread, hij] using this
  · intro i hi
    rw [(hat i).1, (hat i).2.1]
    exact ht.function i ((hlive i).mp hi)
  · intro i hi
    rw [(hat i).1, (hat i).2.2]
    exact ht.firstRun i ((hlive i).mp hi)

theorem enter_eq (s : Process F R) (j : Fin maxUthreads) : s.enter j =
    { s.setThread j { s.threads j with firstRun := false } with
      dispatched := s.dispatched ++ [⟨(s.threads j).tid,
        if (s.threads j).firstRun then (s.threads j).startFunc else none⟩] } := by
  cases hf : (s.threads j).firstRun with
  | true => simp [enter, hf]
  | false =>
    have hsame : s.setThread j { s.threads j with firstRun := false } = s := by
      rw [Process.setThread, ← hf, Function.update_eq_self]
    rw [hsame]
    simp [enter, hf]

theorem Table.enter (ht : s.Table) {j : Fin maxUthreads} (hj : s.Live j) :
    (s.enter j).Table ∧ ∀ i, (s.enter j).Live i ↔ s.Live i := by
  obtain ⟨f, hfunc, hmem⟩ := ht.function j hj
  have hat : ∀ i, ((s.enter j).threads i).tid = (s.threads i).tid ∧
      ((s.enter j).threads i).priority = (s.threads i).priority ∧
      ((s.enter j).threads i).startFunc = (s.threads i).startFunc ∧
      ((s.enter j).threads i).firstRun = (!decide (i = j) && (s.threads i).firstRun) := by
    intro i
    rw [enter_eq]
    by_cases hi : i = j
    · simp [Process.setThread, hi]
    · simp [Process.setThread, hi]
  have hlive : ∀ i, (s.enter j).Live i ↔ s.Live i := by
    intro i
    rw [Live, (hat i).1, Live]
  have hlog : (s.enter j).dispatched = s.dispatched ++ [⟨(s.threads j).tid,
      if (s.threads j).firstRun then (s.threads j).startFunc else none⟩] := by
    rw [enter_eq]
  have hsame : (s.enter j).numberOfCT = s.numberOfCT ∧ (s.enter j).created = s.created ∧
      (s.enter j).pbRrIndexes = s.pbRrIndexes ∧ (s.enter j).nextTid = s.nextTid := by
    rw [enter_eq]
    exact ⟨rfl, rfl, rfl, rfl⟩
  obtain ⟨hnum, hcreated, hindex, hnext⟩ := hsame
  refine ⟨⟨?_, ?_, ?_, ?_, ?_, ?_, ?_, ?_, ?_, ?_, ?_⟩, hlive⟩
  · rw [hnum, liveCount_congr hlive]
    exact ht.count
  · intro i hi
    rw [(hat i).1, hcreated]
    exact ht.tid i ((hlive i).mp hi)
  · intro i k hi he
    rw [(hat i).1, (hat k).1] at he
    exact ht.distinct i k ((hlive i).mp hi) he
  · intro i hi
    rw [(hat i).2.1]
    exact ht.priority i ((hlive i).mp hi)
  · rw [hindex]
    exact ht.index
  · rw [hnext, hcreated]
    exact ht.nextTid
  · rw [hcreated]
    exact ht.numbered
  · intro i hi
    rw [(hat i).1, (hat i).2.2.1, hcreated]
    exact ht.function i ((hlive i).mp hi)
  · intro i hi
    have hi' := (hlive i).mp hi
    rw [(hat i).1, (hat i).2.2.2, hlog, List.map_append, List.mem_append, List.map_singleton,
      List.mem_singleton]
    by_cases hij : i = j
    · simp [hij]
    · have hne : (s.threads i).tid ≠ (s.threads j).tid := fun he => hij (ht.distinct i j hi' he)
      simp [hij, hne, ht.firstRun i hi']
  · rw [hlog, hcreated]
    intro d hd
    rcases List.mem_append.mp hd with hd | hd
    · exact ht.logged d hd
    · rw [List.mem_singleton.mp hd]
      exact (ht.tid j hj).2
  · rw [hlog, hcreated]
    refine ht.entered.append (fun hold => ?_) fun hnew => ?_
    · have hfalse : (s.threads j).firstRun = false := by
        cases hf : (s.threads j).firstRun with
        | false => rfl
        | true => exact absurd hold ((ht.firstRun j hj).mp hf)
      simp [hfalse]
    · refine ⟨f, hmem, ?_⟩
      simp [(ht.firstRun j hj).mpr hnew, hfunc]

theorem Table.frame (ht : s.Table) (thread : Option Int) (regs : Option R) (phase : Phase) :
    Table { s with thread, regs, phase } :=
  ⟨ht.count, ht.tid, ht.distinct, ht.priority, ht.index, ht.nextTid, ht.numbered, ht.function,
    ht.firstRun, ht.logged, ht.entered⟩

theorem Table.setIndex (ht : s.Table) (p : Fin priorities) (i : Fin maxUthreads) :
    Table { s with pbRrIndexes := Function.update s.pbRrIndexes p i } := by
  refine ⟨ht.count, ht.tid, ht.distinct, ht.priority, fun q => ?_, ht.nextTid, ht.numbered,
    ht.function, ht.firstRun, ht.logged, ht.entered⟩
  have hi := i.isLt
  by_cases hq : q = p
  · subst hq
    simp only [Function.update_self]
    omega
  · simp only [Function.update_of_ne hq]
    exact ht.index q

structure Switches (s t : Process F R) : Prop where
  table : t.Table
  live : ∀ i, t.Live i ↔ s.Live i
  current : ∃ i : Fin maxUthreads, t.thread = some (i : Int) ∧ t.Live i

theorem Table.switch (ht : s.Table) {j : Fin maxUthreads} (hj : s.Live j) :
    ∃ t, s.switch = some t ∧ Switches s t ∧ t.phase = s.phase := by
  obtain ⟨i, p, hi, hnext⟩ := getNextPB_finds ht hj
  have ht' := (ht.setIndex p i).frame (some i) (s.threads i).ss s.phase
  obtain ⟨htable, hlive⟩ := ht'.enter (j := i) hi
  refine ⟨_, ?_, ⟨htable, hlive, i, ?_, (hlive i).mpr hi⟩, ?_⟩
  · rw [Process.switch, hnext]
    simp only [bind, Option.bind, slot_val]
    rfl
  · rw [enter_eq]
    rfl
  · rw [enter_eq]
    rfl

theorem Table.startAll (ht : s.Table) {j : Fin maxUthreads} (hj : s.Live j) :
    ∃ t, s.uthreadStartAll = some t ∧ Switches s t ∧ t.phase = .running := by
  obtain ⟨i, p, hi, hnext⟩ := getNextPB_finds ht hj
  have ht' := (ht.setIndex p i).frame (some i) s.regs .running
  obtain ⟨htable, hlive⟩ := ht'.enter (j := i) hi
  by_cases hf : (s.threads i).firstRun = true
  · refine ⟨_, ?_, ⟨htable, hlive, i, ?_, (hlive i).mpr hi⟩, ?_⟩
    · rw [uthreadStartAll, hnext]
      simp only [bind, Option.bind, slot_val, hf, if_true]
      rfl
    · rw [enter_eq]
      rfl
    · rw [enter_eq]
      rfl
  · refine ⟨_, ?_, ⟨htable.frame (some i) (s.threads i).ss .running, hlive, i, rfl,
      (hlive i).mpr hi⟩, rfl⟩
    rw [uthreadStartAll, hnext]
    simp only [bind, Option.bind, slot_val, hf]
    rw [enter_eq]
    rfl

theorem freeThread_eq (ht : s.Table) {j : Fin maxUthreads} (hj : s.Live j) : s.freeThread j =
    { s.setThread j { s.threads j with tid := 0, priority := priorities } with
      numberOfCT := s.numberOfCT - 1 } := by
  have hfirst : firstSlot (fun i => (s.threads j).tid == (s.threads i).tid) = some j := by
    refine firstSlot_unique (by simp) fun i hi => ?_
    exact (ht.distinct j i hj (by simpa using hi)).symm
  simp only [freeThread, hfirst]
  rfl

theorem Table.freeThread (ht : s.Table) {j : Fin maxUthreads} (hj : s.Live j) :
    (s.freeThread j).Table ∧ (∀ i, (s.freeThread j).Live i ↔ i ≠ j ∧ s.Live i) ∧
      (s.freeThread j).liveCount + 1 = s.liveCount := by
  have hat : ∀ i, i ≠ j → (s.freeThread j).threads i = s.threads i := by
    intro i hi
    rw [freeThread_eq ht hj]
    exact Function.update_of_ne hi _ _
  have hlive : ∀ i, (s.freeThread j).Live i ↔ i ≠ j ∧ s.Live i := by
    intro i
    by_cases hi : i = j
    · rw [hi, freeThread_eq ht hj]
      simp [Live, Process.setThread]
    · rw [Live, hat i hi, Live]
      exact ⟨fun h => ⟨hi, h⟩, fun h => h.2⟩
  have hcount : (s.freeThread j).liveCount + 1 = s.liveCount := by
    have hset : Finset.univ.filter (s.freeThread j).Live = (Finset.univ.filter s.Live).erase j := by
      ext i
      simp [hlive i]
    have hmem : j ∈ Finset.univ.filter s.Live := by simpa using hj
    rw [liveCount, hset, liveCount, Finset.card_erase_add_one hmem]
  have hsame : (s.freeThread j).numberOfCT = s.numberOfCT - 1 ∧
      (s.freeThread j).created = s.created ∧ (s.freeThread j).pbRrIndexes = s.pbRrIndexes ∧
      (s.freeThread j).nextTid = s.nextTid ∧ (s.freeThread j).dispatched = s.dispatched := by
    rw [freeThread_eq ht hj]
    exact ⟨rfl, rfl, rfl, rfl, rfl⟩
  obtain ⟨hnum, hcreated, hindex, hnext, hlog⟩ := hsame
  refine ⟨⟨?_, ?_, ?_, ?_, ?_, ?_, ?_, ?_, ?_, ?_, ?_⟩, hlive, hcount⟩
  · rw [hnum, ht.count, ← hcount]
    push_cast
    omega
  · intro i hi
    obtain ⟨hij, hi⟩ := (hlive i).mp hi
    rw [hat i hij, hcreated]
    exact ht.tid i hi
  · intro i k hi he
    obtain ⟨hij, hi⟩ := (hlive i).mp hi
    by_cases hk : k = j
    · rw [hat i hij] at he
      rw [hk, freeThread_eq ht hj] at he
      exact absurd (by simpa [Process.setThread] using he) hi
    · rw [hat i hij, hat k hk] at he
      exact ht.distinct i k hi he
  · intro i hi
    obtain ⟨hij, hi⟩ := (hlive i).mp hi
    rw [hat i hij]
    exact ht.priority i hi
  · rw [hindex]
    exact ht.index
  · rw [hnext, hcreated]
    exact ht.nextTid
  · rw [hcreated]
    exact ht.numbered
  · intro i hi
    obtain ⟨hij, hi⟩ := (hlive i).mp hi
    rw [hat i hij, hcreated]
    exact ht.function i hi
  · intro i hi
    obtain ⟨hij, hi⟩ := (hlive i).mp hi
    rw [hat i hij, hlog]
    exact ht.firstRun i hi
  · rw [hlog, hcreated]
    exact ht.logged
  · rw [hlog, hcreated]
    exact ht.entered

theorem Table.create (ht : s.Table) {f : F} {priority : Int} {stack : R}
    (hpr : 0 ≤ priority ∧ priority ≤ 9) (hlen : s.created.length + 1 < 2 ^ 31) :
    (s.uthreadCreate f priority stack).1.Table ∧
      ∀ i, s.Live i → (s.uthreadCreate f priority stack).1.Live i := by
  cases hfirst : firstSlot (fun j => (s.threads j).tid == 0) with
  | none =>
    simp only [uthreadCreate, hfirst]
    exact ⟨ht, fun i hi => hi⟩
  | some j =>
    have hdead : (s.threads j).tid = 0 := by simpa using firstSlot_some hfirst
    have htid : s.nextTid = s.created.length + 1 := by
      rw [ht.nextTid]
      exact int32_succ (by omega) (by omega)
    obtain ⟨t, hdef⟩ : ∃ t, t = (s.uthreadCreate f priority stack).1 := ⟨_, rfl⟩
    rw [← hdef]
    simp only [uthreadCreate, hfirst] at hdef
    have hat : ∀ i, i ≠ j → t.threads i = s.threads i := by
      intro i hi
      rw [hdef]
      exact Function.update_of_ne hi _ _
    have hnew : t.threads j = ⟨s.nextTid, some stack, priority, some f, true⟩ := by
      rw [hdef]
      exact Function.update_self _ _ _
    have hcreated : t.created = s.created ++ [(s.nextTid, f)] := by
      rw [hdef]
    have hlog : t.dispatched = s.dispatched := by
      rw [hdef]
      rfl
    have hlength : t.created.length = s.created.length + 1 := by
      rw [hcreated, List.length_append, List.length_singleton]
    have hmem : ∀ x ∈ s.created, x ∈ t.created := by
      intro x hx
      rw [hcreated]
      exact List.mem_append_left _ hx
    have hlive : ∀ i, t.Live i ↔ i = j ∨ s.Live i := by
      intro i
      by_cases hi : i = j
      · rw [hi, Live, hnew]
        refine ⟨fun _ => .inl rfl, fun _ => ?_⟩
        change s.nextTid ≠ 0
        omega
      · rw [Live, hat i hi, Live]
        exact ⟨.inr, fun h => h.resolve_left hi⟩
    refine ⟨⟨?_, ?_, ?_, ?_, ?_, ?_, ?_, ?_, ?_, ?_, ?_⟩, fun i hi => (hlive i).mpr (.inr hi)⟩
    · have hset : Finset.univ.filter t.Live = insert j (Finset.univ.filter s.Live) := by
        ext i
        simp [hlive i]
      have hnot : j ∉ Finset.univ.filter s.Live := by simp [Live, hdead]
      have hnum : t.numberOfCT = s.numberOfCT + 1 := by
        rw [hdef]
      rw [hnum, ht.count, liveCount, liveCount, hset, Finset.card_insert_of_notMem hnot]
      push_cast
      rfl
    · intro i hi
      by_cases hij : i = j
      · rw [hij, hnew, hlength]
        dsimp only
        omega
      · rw [hat i hij, hlength]
        have := ht.tid i (((hlive i).mp hi).resolve_left hij)
        omega
    · intro i k hi he
      by_cases hij : i = j
      · by_cases hkj : k = j
        · rw [hij, hkj]
        · rw [hij, hnew, hat k hkj] at he
          have hk : s.Live k := by
            rw [Live, ← he]
            change s.nextTid ≠ 0
            omega
          have := ht.tid k hk
          change s.nextTid = _ at he
          omega
      · have hi' := ((hlive i).mp hi).resolve_left hij
        by_cases hkj : k = j
        · rw [hkj, hnew, hat i hij] at he
          have := ht.tid i hi'
          change _ = s.nextTid at he
          omega
        · rw [hat i hij, hat k hkj] at he
          exact ht.distinct i k hi' he
    · intro i hi
      by_cases hij : i = j
      · rw [hij, hnew]
        exact hpr
      · rw [hat i hij]
        exact ht.priority i (((hlive i).mp hi).resolve_left hij)
    · rw [hdef]
      exact ht.index
    · rw [hlength]
      have hnext : t.nextTid = int32 (s.nextTid + 1) := by
        rw [hdef]
      rw [hnext, ht.nextTid, int32_add]
      push_cast
      rfl
    · rw [hlength, hcreated, List.map_append, ht.numbered, List.range_succ, List.map_append, htid]
      rfl
    · intro i hi
      by_cases hij : i = j
      · rw [hij, hnew]
        refine ⟨f, rfl, ?_⟩
        rw [hcreated]
        exact List.mem_append_right _ (List.mem_singleton.mpr rfl)
      · rw [hat i hij]
        obtain ⟨g, hg, hgm⟩ := ht.function i (((hlive i).mp hi).resolve_left hij)
        exact ⟨g, hg, hmem _ hgm⟩
    · intro i hi
      rw [hlog]
      by_cases hij : i = j
      · rw [hij, hnew]
        refine ⟨fun _ hm => ?_, fun _ => rfl⟩
        obtain ⟨d, hd, he⟩ := List.mem_map.mp hm
        have := ht.logged d hd
        change d.tid = s.nextTid at he
        omega
      · rw [hat i hij]
        exact ht.firstRun i (((hlive i).mp hi).resolve_left hij)
    · intro d hd
      rw [hlength]
      have := ht.logged d (hlog ▸ hd)
      omega
    · rw [hlog]
      exact ht.entered.mono hmem

-- Calls as they may come: priorities 0 to 9, fewer than 2^31 threads in all.
def Allowed (s : Process F R) : Call F R → Prop
  | .create _ priority _ => (0 ≤ priority ∧ priority ≤ 9) ∧ s.created.length + 1 < 2 ^ 31
  | _ => True

def StartsSome (s : Process F R) : Call F R → Prop
  | .startAll => ∃ j, s.Live j
  | _ => True

structure Sound (s : Process F R) : Prop where
  count : s.numberOfCT = s.liveCount
  positive : ∀ j, s.Live j → 0 < (s.threads j).tid
  distinct : ∀ i j, s.Live i → (s.threads i).tid = (s.threads j).tid → i = j
  current : s.phase ≠ .main → s.phase ≠ .exited →
    ∃ j : Fin maxUthreads, s.thread = some (j : Int) ∧ s.Live j
  created : (s.created.map Prod.fst).Nodup
  entered : EnteredOnce s.created s.dispatched
  returns : s.phase = .running → ∀ e, e ≠ .startAll → ∃ t, s.step e = some t
  ends : ∀ t, s.step .exit = some t → (t.phase = .exited ↔ s.liveCount = 1)

structure Inv (s : Process F R) : Prop where
  table : s.Table
  phase : s.phase ≠ .lost
  current : s.phase = .running → ∃ j : Fin maxUthreads, s.thread = some (j : Int) ∧ s.Live j

theorem start_inv : (start : Process F R).Inv := by
  have hdead : ∀ j, ¬ (start : Process F R).Live j := fun j h => h rfl
  refine ⟨⟨?_, fun j h => absurd h (hdead j), fun j _ h => absurd h (hdead j),
    fun j h => absurd h (hdead j), fun p => ?_, ?_, rfl, fun j h => absurd h (hdead j),
    fun j h => absurd h (hdead j), fun d hd => absurd hd List.not_mem_nil, ?_⟩, by simp [start],
    by simp [start]⟩
  · have hempty : Finset.univ.filter (start : Process F R).Live = ∅ :=
      Finset.filter_eq_empty_iff.mpr fun j _ => hdead j
    rw [liveCount, hempty]
    rfl
  · simp only [start]
    split_ifs <;> decide
  · change (1 : Int) = int32 1
    decide
  · intro before d after he
    exact absurd he.symm (by simp [start])

theorem Inv.yield (hi : s.Inv) (hr : s.phase = .running) (regs : R) :
    ∃ t, s.uthreadYield regs = some t ∧ t.Inv ∧ t.phase = .running := by
  obtain ⟨j, hthread, hj⟩ := hi.current hr
  obtain ⟨ht, hlive⟩ := hi.table.setThread j (t := { s.threads j with ss := some regs }) rfl rfl rfl
    (hi.table.priority j hj)
  obtain ⟨t, hcall, hsw, hphase⟩ := ht.switch ((hlive j).mpr hj)
  have hrun : t.phase = .running := hphase.trans hr
  refine ⟨t, ?_, ⟨hsw.table, by rw [hrun]; decide, fun _ => hsw.current⟩, hrun⟩
  rw [uthreadYield, hthread, Option.bind_some, slot_val]
  exact hcall

theorem Inv.exit (hi : s.Inv) (hr : s.phase = .running) :
    ∃ t, s.uthreadExit = some t ∧ t.Inv ∧ (t.phase = .exited ↔ s.liveCount = 1) := by
  obtain ⟨j, hthread, hj⟩ := hi.current hr
  obtain ⟨ht, hlive, hcount⟩ := hi.table.freeThread hj
  have hnum : s.numberOfCT = 1 ↔ s.liveCount = 1 := by
    rw [hi.table.count]
    omega
  by_cases hone : s.numberOfCT = 1
  · refine ⟨{ s.freeThread j with phase := .exited }, ?_, ⟨?_, by simp, by simp⟩, ?_⟩
    · rw [uthreadExit, hthread, Option.bind_some, slot_val]
      simp [hone]
    · exact ht.frame _ _ .exited
    · exact ⟨fun _ => hnum.mp hone, fun _ => rfl⟩
  · have hmore : ∃ i, (s.freeThread j).Live i := by
      by_contra hnone
      push Not at hnone
      have hzero : (s.freeThread j).liveCount = 0 := by
        rw [liveCount, Finset.card_eq_zero, Finset.filter_eq_empty_iff]
        exact fun i _ => hnone i
      exact hone (hnum.mpr (by omega))
    obtain ⟨i, hi'⟩ := hmore
    obtain ⟨t, hcall, hsw, hphase⟩ := ht.switch hi'
    have hrun : t.phase = .running := by
      rw [hphase, freeThread_eq hi.table hj]
      exact hr
    refine ⟨t, ?_, ⟨hsw.table, by rw [hrun]; decide, fun _ => hsw.current⟩, ?_⟩
    · rw [uthreadExit, hthread, Option.bind_some, slot_val]
      simp [hone, hcall]
    · rw [hrun]
      exact ⟨nofun, fun h => absurd (hnum.mpr h) hone⟩

theorem Inv.setpr (hi : s.Inv) (hr : s.phase = .running) (priority : Int) :
    ∃ t, (s.uthreadSetpr priority).map Prod.fst = some t ∧ t.Inv ∧ t.phase = .running := by
  by_cases hp : 0 ≤ priority ∧ priority ≤ 9
  · obtain ⟨j, hthread, hj⟩ := hi.current hr
    obtain ⟨ht, hlive⟩ := hi.table.setThread j (t := { s.threads j with priority }) rfl rfl rfl hp
    refine ⟨_, ?_, ⟨ht, hi.phase, fun _ => ⟨j, hthread, (hlive j).mpr hj⟩⟩, hr⟩
    rw [uthreadSetpr, if_pos hp, hthread, Option.bind_some, slot_val]
    rfl
  · refine ⟨s, ?_, hi, hr⟩
    rw [uthreadSetpr, if_neg hp]
    rfl

theorem Inv.create (hi : s.Inv) {f : F} {priority : Int} {stack : R}
    (ha : s.Allowed (.create f priority stack)) :
    (s.uthreadCreate f priority stack).1.Inv ∧
      (s.uthreadCreate f priority stack).1.phase = s.phase := by
  obtain ⟨ht, hlive⟩ := hi.table.create ha.1 ha.2
  have hsame : (s.uthreadCreate f priority stack).1.phase = s.phase ∧
      (s.uthreadCreate f priority stack).1.thread = s.thread := by
    unfold uthreadCreate
    split <;> exact ⟨rfl, rfl⟩
  refine ⟨⟨ht, hsame.1 ▸ hi.phase, fun hr => ?_⟩, hsame.1⟩
  obtain ⟨j, hthread, hj⟩ := hi.current (hsame.1 ▸ hr)
  exact ⟨j, hsame.2.trans hthread, hlive j hj⟩

theorem step_inv {t : Process F R} {e : Call F R} (hi : s.Inv) (ha : s.Allowed e)
    (hc : s.StartsSome e) (hstep : s.step e = some t) : t.Inv := by
  unfold step at hstep
  split at hstep
  · cases hstep
    exact (hi.create ha).1
  · obtain ⟨j, hj⟩ := hc
    obtain ⟨u, hcall, hsw, hphase⟩ := hi.table.startAll hj
    cases hcall.symm.trans hstep
    exact ⟨hsw.table, by simp [hphase], fun _ => hsw.current⟩
  · cases hstep
    exact (hi.create ha).1
  · rename_i hphase
    obtain ⟨u, hcall, hu, -⟩ := hi.yield hphase _
    cases hcall.symm.trans hstep
    exact hu
  · rename_i hphase
    obtain ⟨u, hcall, hu, -⟩ := hi.setpr hphase _
    cases hcall.symm.trans hstep
    exact hu
  · rename_i hphase
    obtain ⟨u, hcall, hu, -⟩ := hi.exit hphase
    cases hcall.symm.trans hstep
    exact hu
  · cases hstep

theorem Inv.returns (hi : s.Inv) (hr : s.phase = .running) {e : Call F R} (he : e ≠ .startAll) :
    ∃ t, s.step e = some t := by
  unfold step
  rw [hr]
  cases e with
  | create f priority stack => exact ⟨_, rfl⟩
  | startAll => exact absurd rfl he
  | yield regs =>
    obtain ⟨t, hcall, -⟩ := hi.yield hr regs
    exact ⟨t, hcall⟩
  | setpr priority =>
    obtain ⟨t, hcall, -⟩ := hi.setpr hr priority
    exact ⟨t, hcall⟩
  | exit =>
    obtain ⟨t, hcall, -⟩ := hi.exit hr
    exact ⟨t, hcall⟩

theorem Inv.ends {t : Process F R} (hi : s.Inv) (hstep : s.step .exit = some t) :
    t.phase = .exited ↔ s.liveCount = 1 := by
  cases hphase : s.phase with
  | running =>
    obtain ⟨u, hcall, -, hends⟩ := hi.exit hphase
    simp only [step, hphase] at hstep
    cases hcall.symm.trans hstep
    exact hends
  | main | exited | lost =>
    simp only [step, hphase] at hstep
    cases hstep

theorem Inv.sound (hi : s.Inv) : s.Sound where
  count := hi.table.count
  positive j hj := (hi.table.tid j hj).1
  distinct := hi.table.distinct
  current hmain hexited := by
    cases hphase : s.phase with
    | running => exact hi.current hphase
    | main => exact absurd hphase hmain
    | exited => exact absurd hphase hexited
    | lost => exact absurd hphase hi.phase
  created := by
    rw [hi.table.numbered]
    exact List.nodup_range.map fun a b h => by
      simpa using h
  entered := hi.table.entered
  returns hr e he := hi.returns hr he
  ends t := hi.ends

theorem uthread_sound (es : List (Call F R)) (t : Process F R)
    (hc : GuardedRun.along step (fun s e => s.Allowed e ∧ s.StartsSome e) start es)
    (hr : GuardedRun.run step start es = some t) : t.Sound := by
  have hi : t.Inv := GuardedRun.run_invariant (fun s e u hs hc hu => step_inv hs hc.1 hc.2 hu)
    start_inv hc hr
  exact hi.sound

-- uthread_start_all without a thread: getNextPB returns -1.
theorem start_all_without_thread :
    ¬ ∀ (es : List (Call Unit Unit)) (t : Process Unit Unit),
      GuardedRun.along step Allowed start es → GuardedRun.run step start es = some t →
        t.Sound := by
  intro h
  obtain ⟨t, hrun⟩ : ∃ t, GuardedRun.run step (start : Process Unit Unit) [.startAll] = some t :=
    ⟨_, rfl⟩
  have hthread : (GuardedRun.run step (start : Process Unit Unit) [.startAll]).map
      (fun t => (t.thread, t.phase)) = some (some (-1), .lost) := by
    decide +kernel
  rw [hrun] at hthread
  simp only [Option.map_some, Option.some.injEq, Prod.mk.injEq] at hthread
  obtain ⟨j, hj, -⟩ := (h [.startAll] t ⟨trivial, fun _ _ => trivial⟩ hrun).current
    (by simp [hthread.2]) (by simp [hthread.2])
  rw [hthread.1] at hj
  have := Option.some.inj hj
  omega

instance (s : Process F R) (e : Call F R) : Decidable (s.Allowed e) :=
  match e with
  | .create _ priority _ =>
    inferInstanceAs (Decidable ((0 ≤ priority ∧ priority ≤ 9) ∧ s.created.length + 1 < 2 ^ 31))
  | .startAll | .yield _ | .setpr _ | .exit => isTrue trivial

instance (s : Process F R) (e : Call F R) : Decidable (s.StartsSome e) :=
  match e with
  | .startAll => inferInstanceAs (Decidable (∃ j, s.Live j))
  | .create _ _ _ | .yield _ | .setpr _ | .exit => isTrue trivial

def twoThreads : List (Call Nat Nat) :=
  [.create 0 0 0, .create 1 1 1, .startAll, .yield 5, .setpr 2, .yield 6, .exit]

theorem uthread_sound_twoThreads :
    ∃ t, GuardedRun.run step start twoThreads = some t ∧ t.dispatched.length = 4 ∧ t.Sound := by
  have hlog : ∃ t, GuardedRun.run step start twoThreads = some t ∧ t.dispatched.length = 4 :=
    GuardedRun.exists_of_any (by decide +kernel)
  obtain ⟨t, hrun, hlen⟩ := hlog
  refine ⟨t, hrun, hlen, uthread_sound twoThreads t ?_ hrun⟩
  exact GuardedRun.along_of_checks (by decide +kernel)

end Process

end Xv6.Uthread
