import Xv6.Lib.RedoLog
import Xv6.Log.System

namespace Xv6

open RedoLog

section Disk

variable {disk disk' : Disk} {start : Nat}

def headOn (disk : Disk) (start : Nat) : List Nat := headSectors (disk start)

def slots (disk : Disk) (start : Nat) (l : List Nat) : List (Nat × Block) :=
  l.mapIdx fun i s => (s, disk (start + i + 1))

def view (disk : Disk) (start : Nat) : Disk := replay (slots disk start (headOn disk start)) disk

theorem mem_slots {l : List Nat} {p : Nat × Block} :
    p ∈ slots disk start l ↔ ∃ i, l[i]? = some p.1 ∧ p.2 = disk (start + i + 1) := by
  simp only [slots, List.mem_mapIdx]
  constructor
  · rintro ⟨i, hi, rfl⟩
    exact ⟨i, List.getElem?_eq_getElem hi, rfl⟩
  · rintro ⟨i, hi, hp⟩
    obtain ⟨hlt, hi⟩ := List.getElem?_eq_some_iff.mp hi
    exact ⟨i, hlt, Prod.ext hi hp.symm⟩

theorem slots_fst (disk : Disk) (start : Nat) (l : List Nat) :
    (slots disk start l).map Prod.fst = l := by
  refine List.ext_getElem (by simp [slots]) fun i _ _ => ?_
  simp [slots]

theorem slots_congr (h : ∀ s, start < s → disk' s = disk s) (l : List Nat) :
    slots disk' start l = slots disk start l := by
  refine List.ext_getElem (by simp [slots]) fun i hi _ => ?_
  simpa [slots] using h (start + i + 1) (by omega)

theorem view_of_head_nil (h : headOn disk start = []) : view disk start = disk := by
  unfold view
  rw [h]
  rfl

section Home

variable {s i : Nat} (hlow : s < start)

include hlow in
theorem headOn_home (disk : Disk) (d : Block) :
    headOn (Function.update disk s d) start = headOn disk start := by
  rw [headOn, Function.update_of_ne (by omega), headOn]

include hlow in
theorem view_home (disk : Disk) (hi : (headOn disk start)[i]? = some s) :
    view (Function.update disk s (disk (start + i + 1))) start = view disk start := by
  rw [view, headOn_home hlow disk, slots_congr fun u hu => Function.update_of_ne (by omega) _ _]
  exact replay_update (mem_slots.mpr ⟨i, hi, rfl⟩)

end Home

theorem headOn_written (disk : Disk) (start : Nat) {l : List Nat} (hl : l.length ≤ logsize)
    (b : Block) :
    headOn (Function.update disk start (headBlock b l)) start = l := by
  rw [headOn, Function.update_self, headSectors_headBlock b hl]

theorem view_written {l : List Nat} (hl : l.length ≤ logsize) (b : Block) {s : Nat}
    (hs : s < start) :
    view (Function.update disk start (headBlock b l)) start s =
      replay (slots disk start l) disk s := by
  rw [view, headOn_written disk start hl b, slots_congr fun u hu => Function.update_of_ne (by omega) _ _]
  exact replay_congr fun _ => Function.update_of_ne (by omega) _ _

structure Installing (disk : Disk) (start : Nat) (lh : List Nat) (tail : Nat) : Prop where
  head : headOn disk start = lh
  done : ∀ i s, i < tail → lh[i]? = some s → disk s = disk (start + i + 1)

variable {lh : List Nat} {tail : Nat}

theorem Installing.step (h : Installing disk start lh tail) (hnodup : lh.Nodup) {s : Nat}
    (hlow : ∀ u ∈ lh, u < start) (hs : lh[tail]? = some s) :
    Installing (Function.update disk s (disk (start + tail + 1))) start lh (tail + 1) := by
  have hstart := hlow s (List.mem_of_getElem? hs)
  refine ⟨(headOn_home hstart disk _).trans h.head, fun i u hi hu => ?_⟩
  rw [Function.update_of_ne (by omega : start + i + 1 ≠ s)]
  by_cases hit : i = tail
  · subst hit
    rw [hs, Option.some.injEq] at hu
    rw [hu, Function.update_self]
  · have hne : u ≠ s := by
      rintro rfl
      have hlt := (List.getElem?_eq_some_iff.mp hu).1
      exact hit ((List.getElem?_inj hlt hnodup).mp (hu.trans hs.symm))
    rw [Function.update_of_ne hne]
    exact h.done i u (by omega) hu

theorem Installing.complete (h : Installing disk start lh tail) (hend : lh[tail]? = none) :
    view disk start = disk := by
  refine replay_installed fun p hp => ?_
  obtain ⟨i, hi, hp⟩ := mem_slots.mp hp
  rw [h.head] at hi
  have hlt : i < tail := by
    have := (List.getElem?_eq_some_iff.mp hi).1
    have := List.getElem?_eq_none_iff.mp hend
    omega
  rw [h.done i p.1 hlt hi, hp]

theorem Installing.clear (h : Installing disk start lh tail) (hend : lh[tail]? = none) (b : Block)
    {s : Nat} (hs : s < start) :
    view (Function.update disk start (headBlock b [])) start s = view disk start s := by
  rw [view_written (by simp) b hs, h.complete hend]
  rfl

end Disk

namespace Log

variable {m t : Log}

def merged (m : Log) : Disk := fun s => (m.logged s).getD (m.old s)

-- Recovery leaves all of the last transaction or none of it, and all once commit_trans returned.
def Outcome (m : Log) : Prop :=
  (m.committed = false ∧ ∀ s < m.start, view m.disk m.start s = m.old s) ∨
    ∀ s < m.start, view m.disk m.start s = m.merged s

structure Staged (m : Log) : Prop where
  head : headOn m.disk m.start = []
  committed : m.committed = false
  home : ∀ s < m.start, m.disk s = m.old s
  nodup : m.lh.Nodup
  small : m.lh.length ≤ logsize
  slot : ∀ i s, m.lh[i]? = some s → m.logged s = some (m.disk (m.start + i + 1))
  rest : ∀ s, s ∉ m.lh → m.logged s = none

def Phase (m : Log) : LogPc → Prop
  | .idle => headOn m.disk m.start = [] ∧ m.lh = [] ∧ m.Outcome
  | .trans => m.Staged
  | .install tail =>
    Installing m.disk m.start m.lh tail ∧ ∀ s < m.start, view m.disk m.start s = m.merged s
  | .recover => m.Outcome
  | .reinstall tail => Installing m.disk m.start m.lh tail ∧ m.Outcome

structure Sound (l : List Nat) (start : Nat) : Prop where
  nodup : l.Nodup
  below : ∀ s ∈ l, s < start

structure Inv (m : Log) : Prop where
  coherent : m.bcache.Coherent m.disk m.start
  below : ∀ s ∈ m.lh, s < m.start
  head : Sound (headOn m.disk m.start) m.start
  phase : m.Phase m.pc

theorem Staged.outcome (h : m.Staged) : m.Outcome := by
  refine .inl ⟨h.committed, fun s hs => ?_⟩
  rw [view_of_head_nil h.head]
  exact h.home s hs

theorem Phase.outcome (h : m.Phase m.pc) : m.Outcome := by
  cases hpc : m.pc <;> rw [hpc] at h
  case idle => exact h.2.2
  case trans => exact Staged.outcome h
  case install => exact .inr h.2
  case recover => exact h
  case reinstall => exact h.2

theorem Phase.caches {pc : LogPc} (h : m.Phase pc) (c : Bcache) :
    Phase { m with bcache := c } pc := by
  cases pc with
  | idle => exact h
  | trans => exact ⟨h.head, h.committed, h.home, h.nodup, h.small, h.slot, h.rest⟩
  | install tail => exact h
  | recover => exact h
  | reinstall tail => exact h

theorem Staged.commit (h : m.Staged) {s : Nat} (hs : s < m.start) :
    replay (slots m.disk m.start m.lh) m.disk s = m.merged s := by
  by_cases hmem : s ∈ m.lh
  · obtain ⟨i, hi⟩ := List.getElem?_of_mem hmem
    have hslot : (s, m.disk (m.start + i + 1)) ∈ slots m.disk m.start m.lh :=
      mem_slots.mpr ⟨i, hi, rfl⟩
    rw [replay_of_mem (by rw [slots_fst]; exact h.nodup) hslot, merged, h.slot i s hi]
    rfl
  · rw [replay_of_notMem (by rwa [slots_fst]), merged, h.rest s hmem]
    exact h.home s hs

theorem Outcome.of_view (h : m.Outcome) {disk : Disk}
    (hview : ∀ s < m.start, view disk m.start s = view m.disk m.start s) :
    (m.committed = false ∧ ∀ s < m.start, view disk m.start s = m.old s) ∨
      ∀ s < m.start, view disk m.start s = m.merged s := by
  refine h.imp (fun h => ⟨h.1, fun s hs => ?_⟩) fun h s hs => ?_
  · rw [hview s hs, h.2 s hs]
  · rw [hview s hs, h s hs]

theorem Staged.logs (h : m.Staged) (s : Nat) (hroom : m.lh.length < logsize) (d : Block)
    (c : Bcache) :
    Staged { m with
      disk := Function.update m.disk (m.start + m.lh.idxOf s + 1) d
      bcache := c
      lh := recorded m.lh s
      logged := Function.update m.logged s (some d) } where
  head := by
    rw [← h.head]
    simp only [headOn]
    rw [Function.update_of_ne (by omega)]
  committed := h.committed
  home := fun u hu => by
    have hu : u < m.start := hu
    dsimp only
    rw [Function.update_of_ne (by omega), h.home u hu]
  nodup := recorded_nodup h.nodup s
  small := (recorded_length m.lh s).trans hroom
  slot := fun i u hu => by
    dsimp only
    rcases recorded_slot h.nodup hu with ⟨rfl, rfl⟩ | ⟨hus, hi, hu⟩
    · rw [Function.update_self, Function.update_self]
    · rw [Function.update_of_ne hus, Function.update_of_ne (by omega)]
      exact h.slot i u hu
  rest := fun u hu => by
    have hu : ¬(u ∈ m.lh ∨ u = s) := fun hmem => hu (mem_recorded.mpr hmem)
    rw [not_or] at hu
    dsimp only
    rw [Function.update_of_ne hu.2]
    exact h.rest u hu.1

theorem lstep_inv (h : m.Inv) (hs : LStep m t) : t.Inv := by
  have hphase := h.phase
  have hnil : Sound [] m.start := ⟨List.nodup_nil, fun s hs => absurd hs List.not_mem_nil⟩
  cases hs with
  | begins hpc =>
    rw [hpc] at hphase
    obtain ⟨hhead, hlh, -⟩ := hphase
    refine ⟨h.coherent, h.below, h.head, ?_⟩
    exact ⟨hhead, rfl, fun _ _ => rfl, by simp [hlh], by simp [hlh], by simp [hlh],
      fun _ _ => rfl⟩
  | caches c hc => exact ⟨hc, h.below, h.head, hphase.caches c⟩
  | logs s d c hpc hlow hroom hc =>
    rw [hpc] at hphase
    have hstaged := Staged.logs hphase s hroom d c
    refine ⟨hc, fun u hu => ?_, (congrArg (Sound · m.start) hstaged.head).mpr hnil,
      (congrArg (Phase _) hpc).mpr hstaged⟩
    rcases mem_recorded.mp hu with hu | rfl
    · exact h.below u hu
    · exact hlow
  | skips hpc hlh =>
    rw [hpc] at hphase
    refine ⟨h.coherent, h.below, h.head, hphase.head, hlh, .inr fun s hs => ?_⟩
    have hview := Staged.commit hphase hs
    rw [hlh] at hview
    exact (congrFun (view_of_head_nil hphase.head) s).trans hview
  | commits b c hpc hc =>
    rw [hpc] at hphase
    have hhead := headOn_written m.disk m.start hphase.small b
    refine ⟨hc, h.below, (congrArg (Sound · m.start) hhead).mpr ⟨hphase.nodup, h.below⟩,
      ⟨hhead, fun _ _ hi => by omega⟩, fun s hs => ?_⟩
    exact (view_written hphase.small b hs).trans (Staged.commit hphase hs)
  | installs pc hi tail s c hpc hs hc =>
    rw [hpc] at hphase
    have hinstalling : Installing m.disk m.start m.lh tail := by
      rcases hi with rfl | rfl
      · exact hphase.1
      · exact hphase.1
    have hnodup := hinstalling.head ▸ h.head.nodup
    have hlow := h.below s (List.mem_of_getElem? hs)
    have hhead := headOn_home hlow m.disk (m.disk (m.start + tail + 1))
    have hview := view_home hlow m.disk (hinstalling.head ▸ hs)
    have hdone := hinstalling.step hnodup h.below hs
    refine ⟨hc, h.below, (congrArg (Sound · m.start) hhead).mpr h.head, ?_⟩
    rcases hi with rfl | rfl
    · exact ⟨hdone, hview ▸ hphase.2⟩
    · exact ⟨hdone, hphase.2.of_view fun u _ => congrFun hview u⟩
  | erases tail b c hpc hend hc =>
    rw [hpc] at hphase
    have hhead := headOn_written m.disk m.start (l := []) (Nat.zero_le logsize) b
    refine ⟨hc, hnil.below, (congrArg (Sound · m.start) hhead).mpr hnil, hhead, rfl, .inr fun u hu => ?_⟩
    exact (hphase.1.clear hend b hu).trans (hphase.2 u hu)
  | crashes =>
    exact ⟨Bcache.binit_coherent m.disk m.start, hnil.below, h.head, hphase.outcome⟩
  | reads c hpc hc =>
    rw [hpc] at hphase
    exact ⟨hc, h.head.below, h.head, ⟨rfl, fun _ _ hi => by omega⟩, hphase⟩
  | recovers tail b c hpc hend hc =>
    rw [hpc] at hphase
    have hhead := headOn_written m.disk m.start (l := []) (Nat.zero_le logsize) b
    exact ⟨hc, hnil.below, (congrArg (Sound · m.start) hhead).mpr hnil, hhead, rfl,
      hphase.2.of_view fun u hu => hphase.1.clear hend b hu⟩

theorem Initialized.inv (h : m.Initialized) : m.Inv := by
  have hhead : headOn m.disk m.start = [] := by
    rw [headOn, headSectors, h.head]
    rfl
  refine ⟨h.bcache, ?_, ?_, ?_⟩
  · simp [h.lh]
  · rw [hhead]
    exact ⟨List.nodup_nil, fun s hs => absurd hs List.not_mem_nil⟩
  · rw [h.pc]
    refine ⟨hhead, h.lh, .inl ⟨h.committed, fun s _ => ?_⟩⟩
    rw [view_of_head_nil hhead, h.old]

theorem run_inv (h : m.Initialized) {es : List LogOp} (hr : m.run es = some t) : t.Inv :=
  GuardedRun.run_invariant (C := fun _ _ => True)
    (fun _ _ _ hi _ hs => lstep_inv hi (step_lstep hi.coherent hs)) h.inv
    (GuardedRun.along_of_forall (fun _ _ _ => trivial) m) hr

theorem readHead_some (h : m.bcache.Coherent m.disk m.start) (hq : m.bcache.Quiet) :
    ∃ u, m.readHead = some u ∧ u.bcache.Quiet := by
  obtain ⟨i, c, hr⟩ := h.bread_quiet hq m.start
  have hread := Bcache.bread_reads h hr
  refine ⟨_, by rw [readHead, hr]; rfl, Bcache.brelse_quiet (fun j hj => ?_) ?_⟩
  · rw [hread.other j hj]
    exact hq j
  · exact hread.clean (hq i).2

theorem writeHead_some (h : m.bcache.Coherent m.disk m.start) (hq : m.bcache.Quiet) :
    ∃ u, m.writeHead = some u := by
  obtain ⟨i, c, hr⟩ := h.bread_quiet hq m.start
  exact ⟨_, by rw [writeHead, hr]; rfl⟩

theorem installTrans_some (h : m.bcache.Coherent m.disk m.start) (hq : m.bcache.Quiet)
    (tail : Nat) {s : Nat} (hs : s < m.start) :
    ∃ u, m.installTrans tail s = some u ∧ u.bcache.Quiet := by
  obtain ⟨l, c, hl⟩ := h.bread_quiet hq (m.start + tail + 1)
  have hlbuf := Bcache.bread_reads h hl
  obtain ⟨d, c', hd⟩ := hlbuf.coherent.bread_some (s := s) (fun j hj => by
    have hjl : j ≠ l := by
      rintro rfl
      rw [hlbuf.sector, Option.some.injEq] at hj
      omega
    rw [hlbuf.other j hjl]
    exact (hq j).1) (by
    obtain ⟨j, hj⟩ := exists_ne l
    refine ⟨j, ?_⟩
    rw [hlbuf.other j hj]
    exact hq j)
  have hdbuf := Bcache.bread_reads hlbuf.coherent hd
  have hld : l ≠ d := by
    rintro rfl
    exact absurd (hdbuf.free.symm.trans hlbuf.busy) (by decide)
  refine ⟨_, by rw [installTrans, hl]; simp only [Option.bind_some, hd]; rfl, ?_⟩
  refine Bcache.brelse_quiet (fun j hj => ?_) ?_
  · by_cases hjl : j = l
    · subst hjl
      simp only [Bcache.brelse_buf, Bcache.written_buf, hj, if_true, if_false, true_and]
      rw [hdbuf.other j hj]
      exact hlbuf.clean (hq j).2
    · simp only [Bcache.brelse_buf, Bcache.written_buf, hj, hjl, if_false]
      rw [hdbuf.other j hj, hlbuf.other j hjl]
      exact hq j
  · simp [Bcache.brelse_buf, Bcache.written_buf, hld.symm]

def history (m : Log) : Disk × (Nat → Option Block) × Bool := (m.old, m.logged, m.committed)

theorem reinstall_completes {tail : Nat} (h : m.Inv) (hq : m.bcache.Quiet)
    (hpc : m.pc = .reinstall tail) :
    ∃ k t, m.run (List.replicate k .installTrans) = some t ∧ t.pc = .idle ∧
      t.history = m.history := by
  induction hn : m.lh.length - tail generalizing m tail with
  | zero =>
    have hend : m.lh[tail]? = none := List.getElem?_eq_none_iff.mpr (by omega)
    obtain ⟨u, hu⟩ := writeHead_some (m := { m with lh := [], pc := .reinstall tail }) h.coherent hq
    have hhist : u.history = m.history := by
      obtain ⟨b, c, -, rfl⟩ := writeHead_spec (m := { m with lh := [], pc := .reinstall tail })
        h.coherent hu
      rfl
    refine ⟨1, { u with pc := .idle }, (GuardedRun.run_cons step).mpr ⟨_, ?_, rfl⟩, rfl, hhist⟩
    simp only [step, hpc, hend, hu]
    rfl
  | succ n ih =>
    have hlt : tail < m.lh.length := by omega
    have hs := List.getElem?_eq_getElem hlt
    have hlow := h.below _ (List.getElem_mem hlt)
    obtain ⟨u, hu, huq⟩ := installTrans_some h.coherent hq tail hlow
    have hstep : m.step .installTrans = some { u with pc := .reinstall (tail + 1) } := by
      simp only [step, hpc, hs, hu]
      rfl
    obtain ⟨hlh, hhist⟩ : u.lh = m.lh ∧ u.history = m.history := by
      obtain ⟨c, -, rfl⟩ := installTrans_spec h.coherent hu
      exact ⟨rfl, rfl⟩
    obtain ⟨k, t, hr, ht, hth⟩ := ih (m := { u with pc := .reinstall (tail + 1) })
      (lstep_inv h (step_lstep h.coherent hstep)) huq rfl (by simp only [hlh]; omega)
    exact ⟨k + 1, t, (GuardedRun.run_cons step).mpr ⟨_, hstep, hr⟩, ht, hth.trans hhist⟩

theorem recovery_completes (h : m.Inv) :
    ∃ k t, m.run (.crash :: .readHead :: List.replicate k .installTrans) = some t ∧
      t.pc = .idle ∧ t.history = m.history := by
  obtain ⟨m₁, hcrash, hm₁⟩ : ∃ m₁, m.step .crash = some m₁ ∧
      m₁ = { m with bcache := .binit, busy := false, lh := [], pc := .recover } := ⟨_, rfl, rfl⟩
  have h₁ := lstep_inv h (step_lstep h.coherent hcrash)
  obtain ⟨u, hu, huq⟩ := readHead_some h₁.coherent (hm₁ ▸ Bcache.binit_quiet)
  have hread : m₁.step .readHead = some { u with pc := .reinstall 0 } := by
    rw [step, if_pos (by rw [hm₁]), hu]
    rfl
  have hhist : u.history = m.history := by
    obtain ⟨c, -, rfl⟩ := readHead_spec h₁.coherent hu
    rw [hm₁]
    rfl
  have h₂ := lstep_inv h₁ (step_lstep h₁.coherent hread)
  obtain ⟨k, t, hr, ht, hth⟩ := reinstall_completes h₂ huq rfl
  refine ⟨k, t, ?_, ht, hth.trans hhist⟩
  exact (GuardedRun.run_cons step).mpr ⟨_, hcrash, (GuardedRun.run_cons step).mpr ⟨_, hread, hr⟩⟩

def Atomic (m : Log) : Prop :=
  ((∀ s < m.start, m.disk s = m.old s) ∨ ∀ s < m.start, m.disk s = m.merged s) ∧
    (m.committed = true → ∀ s < m.start, m.disk s = m.merged s)

theorem Inv.atomic (h : m.Inv) (hpc : m.pc = .idle) : m.Atomic := by
  have hphase := h.phase
  rw [hpc] at hphase
  obtain ⟨hhead, -, houtcome⟩ := hphase
  unfold Outcome at houtcome
  rw [view_of_head_nil hhead] at houtcome
  rcases houtcome with ⟨hc, hold⟩ | hnew
  · refine ⟨.inl hold, fun hcommitted => ?_⟩
    rw [hc] at hcommitted
    cases hcommitted
  · exact ⟨.inr hnew, fun _ => hnew⟩

def blank (start size : Nat) : Log where
  disk := fun _ _ => 0
  bcache := .binit
  start := start
  size := size
  busy := false
  lh := []
  pc := .idle
  old := fun _ _ => 0
  logged := fun _ => none
  committed := false

theorem blank_initialized (start size : Nat) : (blank start size).Initialized :=
  ⟨rfl, rfl, rfl, rfl, Bcache.binit_coherent _ _, rfl, rfl, rfl⟩

end Log
end Xv6
