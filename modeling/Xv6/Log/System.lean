import Xv6.Lib.GuardedRun
import Xv6.Log.Bcache

namespace Xv6

abbrev logsize : Nat := 10

inductive LogPc where
  | idle
  | trans
  | install (tail : Nat)
  | recover
  | reinstall (tail : Nat)
  deriving DecidableEq

inductive LogOp where
  | beginTrans
  | bread (s : Nat)
  | fill (s : Nat) (d : Block)
  | brelse (s : Nat)
  | logWrite (s : Nat)
  | commitTrans
  | installTrans
  | crash
  | readHead

-- History: `old` is the disk when the last transaction began, `logged` what it last passed to
-- log_write for each sector, `committed` that its commit_trans has returned.
structure Log where
  disk : Disk
  bcache : Bcache
  start : Nat
  size : Nat
  busy : Bool
  lh : List Nat
  pc : LogPc
  old : Disk
  logged : Nat → Option Block
  committed : Bool

def headSectors (b : Block) : List Nat :=
  (List.range (b 0).toNat).map fun i => if h : i + 1 < 128 then (b ⟨i + 1, h⟩).toNat else 0

def headBlock (b : Block) (lh : List Nat) : Block := fun k =>
  if k.val = 0 then lh.length
  else match lh[k.val - 1]? with
    | some s => s
    | none => b k

theorem headSectors_headBlock (b : Block) {lh : List Nat} (h : lh.length ≤ logsize) :
    headSectors (headBlock b lh) = lh := by
  have hlen : (headBlock b lh 0).toNat = lh.length := by simp [headBlock]
  refine List.ext_getElem (by simp [headSectors, hlen]) fun i hi hi' => ?_
  have hlt : i + 1 < 128 := by
    have : lh.length ≤ 10 := h
    omega
  simp [headSectors, headBlock, hlt, hi']

-- log.lh after log_write of sector `s`: absorbed if it is there already.
def recorded (lh : List Nat) (s : Nat) : List Nat :=
  if lh.idxOf s = lh.length then lh ++ [s] else lh

theorem recorded_cases (lh : List Nat) (s : Nat) :
    (s ∉ lh ∧ recorded lh s = lh ++ [s]) ∨ (s ∈ lh ∧ recorded lh s = lh) := by
  unfold recorded
  split
  · rename_i h
    exact .inl ⟨List.idxOf_eq_length_iff.mp h, rfl⟩
  · rename_i h
    exact .inr ⟨by_contra fun hs => h (List.idxOf_eq_length_iff.mpr hs), rfl⟩

theorem mem_recorded {lh : List Nat} {s u : Nat} : u ∈ recorded lh s ↔ u ∈ lh ∨ u = s := by
  rcases recorded_cases lh s with ⟨_, h⟩ | ⟨hs, h⟩ <;> rw [h]
  · rw [List.mem_append, List.mem_singleton]
  · exact ⟨.inl, fun hu => hu.elim id fun hu => hu ▸ hs⟩

theorem recorded_nodup {lh : List Nat} (h : lh.Nodup) (s : Nat) : (recorded lh s).Nodup := by
  rcases recorded_cases lh s with ⟨hs, hr⟩ | ⟨_, hr⟩ <;> rw [hr]
  · refine List.nodup_append.mpr ⟨h, List.nodup_singleton s, fun u hu v hv => ?_⟩
    rw [List.mem_singleton.mp hv]
    rintro rfl
    exact hs hu
  · exact h

theorem recorded_length (lh : List Nat) (s : Nat) : (recorded lh s).length ≤ lh.length + 1 := by
  rcases recorded_cases lh s with ⟨_, h⟩ | ⟨_, h⟩ <;> rw [h]
  · simp
  · omega

theorem recorded_slot {lh : List Nat} (h : lh.Nodup) {s u i : Nat}
    (hu : (recorded lh s)[i]? = some u) :
    (u = s ∧ i = lh.idxOf s) ∨ (u ≠ s ∧ i ≠ lh.idxOf s ∧ lh[i]? = some u) := by
  have hold : ∀ {u}, lh[i]? = some u → (u = s ∧ i = lh.idxOf s) ∨
      (u ≠ s ∧ i ≠ lh.idxOf s ∧ lh[i]? = some u) := by
    intro u hu
    obtain ⟨hlt, hget⟩ := List.getElem?_eq_some_iff.mp hu
    have hidx : lh.idxOf u = i := by rw [← hget, h.idxOf_getElem i hlt]
    by_cases hus : u = s
    · exact .inl ⟨hus, by rw [← hus, hidx]⟩
    · refine .inr ⟨hus, fun hi => hus ?_, hu⟩
      subst hi
      rw [← hget, List.getElem_idxOf]
  rcases recorded_cases lh s with ⟨hs, hr⟩ | ⟨_, hr⟩ <;> rw [hr] at hu
  · rcases Nat.lt_trichotomy i lh.length with hi | hi | hi
    · rw [List.getElem?_append_left hi] at hu
      exact hold hu
    · subst hi
      simp only [List.getElem?_concat_length, Option.some.injEq] at hu
      exact .inl ⟨hu.symm, (List.idxOf_eq_length_iff.mpr hs).symm⟩
    · rw [List.getElem?_eq_none (by simp; omega)] at hu
      cases hu
  · exact hold hu

namespace Log

def recovering (m : Log) : Bool :=
  match m.pc with
  | .recover | .reinstall _ => true
  | _ => false

def held (m : Log) (s : Nat) : Option (Fin nbuf) :=
  m.bcache.order.find? fun i => decide ((m.bcache.buf i).sector = some s ∧
    (m.bcache.buf i).busy = true ∧ (m.bcache.buf i).valid = true)

def writeHead (m : Log) : Option Log :=
  (m.bcache.bread m.disk m.start).map fun x =>
    let d := headBlock (x.2.buf x.1).data m.lh
    { m with
      disk := Function.update m.disk m.start d
      bcache := (x.2.written x.1 d).brelse x.1 }

def readHead (m : Log) : Option Log :=
  (m.bcache.bread m.disk m.start).map fun x =>
    { m with
      lh := headSectors (x.2.buf x.1).data
      bcache := x.2.brelse x.1 }

def installTrans (m : Log) (tail s : Nat) : Option Log :=
  (m.bcache.bread m.disk (m.start + tail + 1)).bind fun lbuf =>
    (lbuf.2.bread m.disk s).map fun dbuf =>
      let d := (dbuf.2.buf lbuf.1).data
      { m with
        disk := Function.update m.disk s d
        bcache := ((dbuf.2.written dbuf.1 d).brelse lbuf.1).brelse dbuf.1 }

def logWrite (m : Log) (b : Fin nbuf) (s : Nat) : Option Log :=
  if m.lh.length ≥ logsize ∨ m.lh.length + 1 ≥ m.size then none
  else if m.busy = false then none
  else
    let i := m.lh.idxOf s
    (m.bcache.bread m.disk (m.start + i + 1)).map fun lbuf =>
      let d := (lbuf.2.buf b).data
      let c := (lbuf.2.written lbuf.1 d).brelse lbuf.1
      { m with
        disk := Function.update m.disk (m.start + i + 1) d
        bcache := c.set b { c.buf b with dirty := true }
        lh := recorded m.lh s
        logged := Function.update m.logged s (some d) }

def step (m : Log) : LogOp → Option Log
  | .beginTrans =>
    if m.pc = .idle ∧ m.busy = false then
      some { m with
        busy := true
        pc := .trans
        old := m.disk
        logged := fun _ => none
        committed := false }
    else none
  | .bread s =>
    if m.recovering = false ∧ s < m.start then
      (m.bcache.bread m.disk s).map fun x => { m with bcache := x.2 }
    else none
  | .fill s d =>
    if m.recovering = false ∧ s < m.start then
      (m.held s).map fun b =>
        { m with bcache := m.bcache.set b { m.bcache.buf b with data := d } }
    else none
  | .brelse s =>
    if m.recovering = false ∧ s < m.start then
      (m.held s).map fun b => { m with bcache := m.bcache.brelse b }
    else none
  | .logWrite s =>
    if m.pc = .trans ∧ s < m.start then (m.held s).bind fun b => m.logWrite b s else none
  | .commitTrans =>
    if m.pc = .trans then
      if m.lh = [] then some { m with busy := false, pc := .idle, committed := true }
      else m.writeHead.map fun m => { m with pc := .install 0 }
    else none
  | .installTrans =>
    match m.pc with
    | .install tail =>
      match m.lh[tail]? with
      | some s => (m.installTrans tail s).map fun m => { m with pc := .install (tail + 1) }
      | none => (writeHead { m with lh := [] }).map fun m =>
          { m with busy := false, pc := .idle, committed := true }
    | .reinstall tail =>
      match m.lh[tail]? with
      | some s => (m.installTrans tail s).map fun m => { m with pc := .reinstall (tail + 1) }
      | none => (writeHead { m with lh := [] }).map fun m => { m with pc := .idle }
    | _ => none
  | .crash => some { m with bcache := .binit, busy := false, lh := [], pc := .recover }
  | .readHead =>
    if m.pc = .recover then m.readHead.map fun m => { m with pc := .reinstall 0 } else none

abbrev run (m : Log) (es : List LogOp) : Option Log := GuardedRun.run step m es

structure Initialized (m : Log) : Prop where
  pc : m.pc = .idle
  busy : m.busy = false
  lh : m.lh = []
  head : m.disk m.start 0 = 0
  bcache : m.bcache.Coherent m.disk m.start
  old : m.old = m.disk
  logged : m.logged = fun _ => none
  committed : m.committed = false

variable {m t : Log}

theorem writeHead_spec (h : m.bcache.Coherent m.disk m.start) (hw : m.writeHead = some t) :
    ∃ b c, c.Coherent (Function.update m.disk m.start (headBlock b m.lh)) m.start ∧
      t = { m with disk := Function.update m.disk m.start (headBlock b m.lh), bcache := c } := by
  obtain ⟨⟨i, c⟩, hr, rfl⟩ := Option.map_eq_some_iff.mp hw
  have hread := Bcache.bread_reads h hr
  exact ⟨_, _, (hread.coherent.written hread.sector _).brelse i, rfl⟩

theorem readHead_spec (h : m.bcache.Coherent m.disk m.start) (hr : m.readHead = some t) :
    ∃ c, c.Coherent m.disk m.start ∧
      t = { m with lh := headSectors (m.disk m.start), bcache := c } := by
  obtain ⟨⟨i, c⟩, hb, rfl⟩ := Option.map_eq_some_iff.mp hr
  have hread := Bcache.bread_reads h hb
  refine ⟨_, hread.coherent.brelse i, ?_⟩
  rw [← hread.data le_rfl]

theorem installTrans_spec (h : m.bcache.Coherent m.disk m.start) {tail s : Nat}
    (hi : m.installTrans tail s = some t) :
    ∃ c, c.Coherent (Function.update m.disk s (m.disk (m.start + tail + 1))) m.start ∧
      t = { m with
        disk := Function.update m.disk s (m.disk (m.start + tail + 1)), bcache := c } := by
  obtain ⟨⟨l, c₁⟩, hl, hi⟩ := Option.bind_eq_some_iff.mp hi
  obtain ⟨⟨d, c₂⟩, hd, rfl⟩ := Option.map_eq_some_iff.mp hi
  have hlbuf := Bcache.bread_reads h hl
  have hdbuf := Bcache.bread_reads hlbuf.coherent hd
  have hne : l ≠ d := by
    rintro rfl
    exact absurd (hdbuf.free.symm.trans hlbuf.busy) (by decide)
  have hdata : (c₂.buf l).data = m.disk (m.start + tail + 1) := by
    rw [hdbuf.other l hne]
    exact hlbuf.data (by omega)
  refine ⟨_, ((hdbuf.coherent.written hdbuf.sector _).brelse l).brelse d, ?_⟩
  rw [← hdata]

theorem logWrite_spec (h : m.bcache.Coherent m.disk m.start) {b : Fin nbuf} {s : Nat}
    (hw : m.logWrite b s = some t) :
    m.lh.length < logsize ∧ ∃ d c,
      c.Coherent (Function.update m.disk (m.start + m.lh.idxOf s + 1) d) m.start ∧
      t = { m with
        disk := Function.update m.disk (m.start + m.lh.idxOf s + 1) d
        bcache := c
        lh := recorded m.lh s
        logged := Function.update m.logged s (some d) } := by
  unfold logWrite at hw
  split at hw
  · cases hw
  · rename_i hroom
    split at hw
    · cases hw
    · obtain ⟨⟨l, c⟩, hr, rfl⟩ := Option.map_eq_some_iff.mp hw
      have hread := Bcache.bread_reads h hr
      refine ⟨by omega, _, _, ?_, rfl⟩
      exact ((hread.coherent.written hread.sector _).brelse l).set_flags b _ true

theorem held_sector {s : Nat} {b : Fin nbuf} (h : m.held s = some b) :
    (m.bcache.buf b).sector = some s := by
  have := List.find?_some h
  simp only [decide_eq_true_eq] at this
  exact this.1

inductive LStep (m : Log) : Log → Prop where
  | begins (hpc : m.pc = .idle) :
    LStep m { m with
      busy := true, pc := .trans, old := m.disk, logged := fun _ => none, committed := false }
  | caches (c : Bcache) (hc : c.Coherent m.disk m.start) : LStep m { m with bcache := c }
  | logs (s : Nat) (d : Block) (c : Bcache) (hpc : m.pc = .trans) (hs : s < m.start)
      (hroom : m.lh.length < logsize)
      (hc : c.Coherent (Function.update m.disk (m.start + m.lh.idxOf s + 1) d) m.start) :
    LStep m { m with
      disk := Function.update m.disk (m.start + m.lh.idxOf s + 1) d
      bcache := c
      lh := recorded m.lh s
      logged := Function.update m.logged s (some d) }
  | skips (hpc : m.pc = .trans) (hlh : m.lh = []) :
    LStep m { m with busy := false, pc := .idle, committed := true }
  | commits (b : Block) (c : Bcache) (hpc : m.pc = .trans)
      (hc : c.Coherent (Function.update m.disk m.start (headBlock b m.lh)) m.start) :
    LStep m { m with
      disk := Function.update m.disk m.start (headBlock b m.lh), bcache := c, pc := .install 0 }
  | installs (pc : Nat → LogPc) (hi : pc = .install ∨ pc = .reinstall) (tail s : Nat) (c : Bcache)
      (hpc : m.pc = pc tail) (hs : m.lh[tail]? = some s)
      (hc : c.Coherent (Function.update m.disk s (m.disk (m.start + tail + 1))) m.start) :
    LStep m { m with
      disk := Function.update m.disk s (m.disk (m.start + tail + 1))
      bcache := c
      pc := pc (tail + 1) }
  | erases (tail : Nat) (b : Block) (c : Bcache) (hpc : m.pc = .install tail)
      (hend : m.lh[tail]? = none)
      (hc : c.Coherent (Function.update m.disk m.start (headBlock b [])) m.start) :
    LStep m { m with
      disk := Function.update m.disk m.start (headBlock b [])
      bcache := c
      lh := []
      busy := false
      pc := .idle
      committed := true }
  | crashes : LStep m { m with bcache := .binit, busy := false, lh := [], pc := .recover }
  | reads (c : Bcache) (hpc : m.pc = .recover) (hc : c.Coherent m.disk m.start) :
    LStep m { m with lh := headSectors (m.disk m.start), bcache := c, pc := .reinstall 0 }
  | recovers (tail : Nat) (b : Block) (c : Bcache) (hpc : m.pc = .reinstall tail)
      (hend : m.lh[tail]? = none)
      (hc : c.Coherent (Function.update m.disk m.start (headBlock b [])) m.start) :
    LStep m { m with
      disk := Function.update m.disk m.start (headBlock b [])
      bcache := c
      lh := []
      pc := .idle }

theorem held_lstep {s : Nat} {f : Fin nbuf → Bcache}
    (hm : ((m.held s).map fun b => { m with bcache := f b }) = some t)
    (hf : ∀ b, (m.bcache.buf b).sector = some s → (f b).Coherent m.disk m.start) : LStep m t := by
  obtain ⟨b, hb, rfl⟩ := Option.map_eq_some_iff.mp hm
  exact .caches _ (hf b (held_sector hb))

theorem install_lstep (h : m.bcache.Coherent m.disk m.start) {tail : Nat} {pc : Nat → LogPc}
    (hi : pc = .install ∨ pc = .reinstall) (hpc : m.pc = pc tail) {s : Nat}
    (hs : m.lh[tail]? = some s)
    (hm : ((m.installTrans tail s).map fun u => { u with pc := pc (tail + 1) }) = some t) :
    LStep m t := by
  obtain ⟨u, hu, rfl⟩ := Option.map_eq_some_iff.mp hm
  obtain ⟨c, hc, rfl⟩ := installTrans_spec h hu
  exact .installs pc hi tail s c hpc hs hc

theorem step_lstep (h : m.bcache.Coherent m.disk m.start) {op : LogOp} (hs : m.step op = some t) :
    LStep m t := by
  cases op with
  | beginTrans =>
    simp only [step] at hs
    split at hs <;> cases hs
    rename_i hpc
    exact .begins hpc.1
  | bread s =>
    simp only [step] at hs
    split at hs
    · obtain ⟨⟨i, c⟩, hr, rfl⟩ := Option.map_eq_some_iff.mp hs
      exact .caches c (Bcache.bread_reads h hr).coherent
    · cases hs
  | fill s d =>
    simp only [step] at hs
    split at hs
    · rename_i hlow
      refine held_lstep hs fun b hb => h.fill rfl fun u hu _ hle => ?_
      have hu : (m.bcache.buf b).sector = some u := hu
      rw [hb, Option.some.injEq] at hu
      omega
    · cases hs
  | brelse s =>
    simp only [step] at hs
    split at hs
    · exact held_lstep hs fun b _ => h.brelse b
    · cases hs
  | logWrite s =>
    simp only [step] at hs
    split at hs
    · rename_i hpc
      obtain ⟨b, _, hw⟩ := Option.bind_eq_some_iff.mp hs
      obtain ⟨hroom, d, c, hc, rfl⟩ := logWrite_spec h hw
      exact .logs s d c hpc.1 hpc.2 hroom hc
    · cases hs
  | commitTrans =>
    simp only [step] at hs
    split at hs
    · rename_i hpc
      split at hs
      · rename_i hlh
        cases hs
        exact .skips hpc hlh
      · obtain ⟨u, hu, rfl⟩ := Option.map_eq_some_iff.mp hs
        obtain ⟨b, c, hc, rfl⟩ := writeHead_spec h hu
        exact .commits b c hpc hc
    · cases hs
  | installTrans =>
    simp only [step] at hs
    split at hs
    · rename_i tail hpc
      split at hs
      · rename_i s hsec
        exact install_lstep h (.inl rfl) hpc hsec hs
      · rename_i hend
        obtain ⟨u, hu, rfl⟩ := Option.map_eq_some_iff.mp hs
        obtain ⟨b, c, hc, rfl⟩ := writeHead_spec (m := { m with lh := [] }) h hu
        exact .erases tail b c hpc hend hc
    · rename_i tail hpc
      split at hs
      · rename_i s hsec
        exact install_lstep h (.inr rfl) hpc hsec hs
      · rename_i hend
        obtain ⟨u, hu, rfl⟩ := Option.map_eq_some_iff.mp hs
        obtain ⟨b, c, hc, rfl⟩ := writeHead_spec (m := { m with lh := [] }) h hu
        exact .recovers tail b c hpc hend hc
    · cases hs
  | crash =>
    cases hs
    exact .crashes
  | readHead =>
    simp only [step] at hs
    split at hs
    · rename_i hpc
      obtain ⟨u, hu, rfl⟩ := Option.map_eq_some_iff.mp hs
      obtain ⟨c, hc, rfl⟩ := readHead_spec h hu
      exact .reads c hpc hc
    · cases hs

end Log
end Xv6
