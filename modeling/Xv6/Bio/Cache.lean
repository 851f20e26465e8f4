import Xv6.Lib.GuardedRun
import Xv6.Lib.LinkedRing
import Xv6.Param

namespace Xv6

open LinkedRing

inductive BufPtr (N : Nat) where
  | head
  | buf (i : Fin N)
  deriving DecidableEq, Repr

-- The contents are left out: nothing in the cache's own code reads them.
structure CacheBuf where
  busy : Bool
  valid : Bool
  dirty : Bool
  dev : BitVec 32
  sector : BitVec 32
  deriving DecidableEq, Repr

inductive BioPc (N : Nat) where
  | user
  | bget (dev sector : BitVec 32)
  | asleep (b : Fin N) (dev sector : BitVec 32)
  | iderw (b : Fin N)
  deriving DecidableEq, Repr

inductive BioOp (N : Nat) where
  | bread (dev sector : BitVec 32)
  | bwrite (b : Fin N)
  | brelse (b : Fin N)
  | logWrite (b : Fin N)
  | kill
  | tick
  deriving DecidableEq, Repr

inductive Got (N : Nat) where
  | hit (b : Fin N)
  | recycle (b : Fin N)
  | sleep (b : Fin N)
  deriving DecidableEq, Repr

-- `held` is history: which buffers a process has obtained and not released.
structure Bio (N : Nat) (P : Type) where
  buf : Fin N → CacheBuf
  links : Links (BufPtr N)
  pc : P → BioPc N
  held : P → Fin N → Bool

namespace Bio

variable {N : Nat} {P : Type} [DecidableEq P]

def binit (L : Links (BufPtr N)) : Links (BufPtr N) :=
  (List.finRange N).foldl (fun L b => L.insert .head (.buf b))
    ((L.setPrev .head .head).setNext .head .head)

@[simp] def setBuf (s : Bio N P) (b : Fin N) (x : CacheBuf) : Bio N P :=
  { s with buf := Function.update s.buf b x }

@[simp] def goto (s : Bio N P) (p : P) (pc : BioPc N) : Bio N P :=
  { s with pc := Function.update s.pc p pc }

@[simp] def setHeld (s : Bio N P) (p : P) (b : Fin N) (h : Bool) : Bio N P :=
  { s with held := Function.update s.held p (Function.update (s.held p) b h) }

@[simp] def wakeup (s : Bio N P) (b : Fin N) : Bio N P :=
  { s with pc := fun q => match s.pc q with
    | .asleep b' dev sector => if b' = b then .bget dev sector else .asleep b' dev sector
    | pc => pc }

def test (s : Bio N P) (f : CacheBuf → Bool) : BufPtr N → Bool
  | .head => false
  | .buf i => f (s.buf i)

-- One pass of bget under `bcache.lock`, up to its release or its sleep.
def bget (s : Bio N P) (dev sector : BitVec 32) : Option (Got N) :=
  match scan s.links.next .head
      (s.test fun x => decide (x.dev = dev ∧ x.sector = sector)) (N + 1) (s.links.next .head) with
  | some (some (.buf b)) => if (s.buf b).busy = true then some (.sleep b) else some (.hit b)
  | some none =>
    match scan s.links.prev .head (s.test fun x => !x.busy && !x.dirty) (N + 1)
        (s.links.prev .head) with
    | some (some (.buf b)) => some (.recycle b)
    | _ => none
  | _ => none

def take (s : Bio N P) (p : P) (dev sector : BitVec 32) : Got N → Bio N P
  | .hit b =>
    ((s.setBuf b { s.buf b with busy := true }).setHeld p b true).goto p
      (if (s.buf b).valid = true then .user else .iderw b)
  | .recycle b =>
    ((s.setBuf b ⟨true, false, false, dev, sector⟩).setHeld p b true).goto p (.iderw b)
  | .sleep b => s.goto p (.asleep b dev sector)

def exec (s : Bio N P) (p : P) : BioOp N → BioPc N → Option (Bio N P)
  | .bread dev sector, .user => some (s.goto p (.bget dev sector))
  | .bwrite b, .user =>
    if (s.buf b).busy = true then
      some ((s.setBuf b { s.buf b with dirty := true }).goto p (.iderw b))
    else none
  | .brelse b, .user =>
    if (s.buf b).busy = true then
      some ((({ s with links := (s.links.unlink (.buf b)).insert .head (.buf b) }).setBuf b
        { s.buf b with busy := false }).setHeld p b false |>.wakeup b)
    else none
  | .logWrite b, .user => some (s.setBuf b { s.buf b with dirty := true })
  | .kill, .asleep _ dev sector => some (s.goto p (.bget dev sector))
  | .tick, .bget dev sector => (s.bget dev sector).map (s.take p dev sector)
  | .tick, .iderw b =>
    some (((s.setBuf b { s.buf b with valid := true, dirty := false }).goto p .user).wakeup b)
  | _, _ => none

def step (s : Bio N P) (e : P × BioOp N) : Option (Bio N P) := s.exec e.1 e.2 (s.pc e.1)

abbrev run (s : Bio N P) (es : List (P × BioOp N)) : Option (Bio N P) := GuardedRun.run step s es

structure Start (s : Bio N P) : Prop where
  links : ∃ L, s.links = binit L
  dev : ∀ b, (s.buf b).dev = -1
  busy : ∀ b, (s.buf b).busy = false
  user : ∀ p, s.pc p = .user
  held : ∀ p b, s.held p b = false

-- Processes write and release only buffers they have obtained.
def Obtained (s : Bio N P) (e : P × BioOp N) : Prop :=
  match e.2 with
  | .bwrite b | .brelse b | .logWrite b => s.held e.1 b = true
  | _ => True

instance (s : Bio N P) (e : P × BioOp N) : Decidable (s.Obtained e) := by
  unfold Obtained; split <;> infer_instance

def AllLinked (L : Links (BufPtr N)) : Prop :=
  ∃ l : List (Fin N), l.Nodup ∧ (∀ b, b ∈ l) ∧ L.Ring .head (l.map .buf)

structure Consistent (s : Bio N P) : Prop where
  linked : AllLinked s.links
  unique : ∀ a b, (s.buf a).dev = (s.buf b).dev → (s.buf a).sector = (s.buf b).sector →
    (s.buf a).dev ≠ -1 → a = b
  holder : ∀ b, (s.buf b).busy = true ↔ ∃! p, s.held p b = true

def Assigned (s t : Bio N P) (b : Fin N) : Prop :=
  (t.buf b).dev ≠ (s.buf b).dev ∨ (t.buf b).sector ≠ (s.buf b).sector

structure Owned (s : Bio N P) : Prop where
  linked : AllLinked s.links
  unique : ∀ a b, (s.buf a).dev = (s.buf b).dev → (s.buf a).sector = (s.buf b).sector →
    (s.buf a).dev ≠ -1 → a = b
  busy : ∀ b, (s.buf b).busy = true → ∃ p, s.held p b = true
  held : ∀ p b, s.held p b = true → (s.buf b).busy = true
  once : ∀ p q b, s.held p b = true → s.held q b = true → p = q

omit [DecidableEq P] in
theorem Owned.consistent {s : Bio N P} (h : s.Owned) : s.Consistent := by
  refine ⟨h.linked, h.unique, fun b => ⟨fun hb => ?_, fun ⟨p, hp, _⟩ => h.held p b hp⟩⟩
  obtain ⟨p, hp⟩ := h.busy b hb
  exact ⟨p, hp, fun q hq => h.once q p b hq hp⟩

theorem binit_linked (L : Links (BufPtr N)) : AllLinked (binit L) := by
  refine ⟨(List.finRange N).reverse, by simpa using List.nodup_finRange N, by simp, ?_⟩
  have hnd : ((List.finRange N).map BufPtr.buf).Nodup :=
    (List.nodup_finRange N).map fun a b h => BufPtr.buf.inj h
  have hring := Links.ring_insert_all (Links.ring_nil L .head) hnd (by simp)
  simpa [binit, List.foldl_map] using hring

theorem relink_linked {L : Links (BufPtr N)} (h : AllLinked L) (b : Fin N) :
    AllLinked ((L.unlink (.buf b)).insert .head (.buf b)) := by
  obtain ⟨l, hnd, hall, hring⟩ := h
  obtain ⟨l₁, l₂, rfl⟩ := List.append_of_mem (hall b)
  have hperm : (b :: (l₁ ++ l₂)).Perm (l₁ ++ b :: l₂) := List.perm_middle.symm
  refine ⟨b :: (l₁ ++ l₂), hperm.nodup_iff.mpr hnd, fun c => hperm.mem_iff.mpr (hall c), ?_⟩
  rw [List.map_append, List.map_cons] at hring
  have hun := Links.ring_unlink hring
  rw [← List.map_append] at hun
  have hb : b ∉ l₁ ++ l₂ := (List.nodup_cons.mp (hperm.nodup_iff.mpr hnd)).1
  exact Links.ring_insert hun (by simpa using hb)

theorem find_buf {l : List (Fin N)} {f : BufPtr N → Bool} {a : BufPtr N}
    (h : (l.map BufPtr.buf).find? f = some a) : ∃ b, a = .buf b ∧ f (.buf b) = true := by
  have hf := List.find?_some h
  obtain ⟨b, -, rfl⟩ := List.mem_map.mp (List.mem_of_find?_eq_some h)
  exact ⟨b, rfl, hf⟩

def Gets (s : Bio N P) (dev sector : BitVec 32) : Got N → Prop
  | .hit b => (s.buf b).busy = false
  | .sleep b => (s.buf b).busy = true
  | .recycle b => (s.buf b).busy = false ∧ (s.buf b).dirty = false ∧
    ∀ a, ¬ ((s.buf a).dev = dev ∧ (s.buf a).sector = sector)

omit [DecidableEq P] in
theorem bget_gets {s : Bio N P} (hl : AllLinked s.links) {dev sector : BitVec 32} {g : Got N}
    (h : s.bget dev sector = some g) : s.Gets dev sector g := by
  obtain ⟨l, hnd, hall, hring⟩ := hl
  have hlen : (l.map BufPtr.buf).length < N + 1 := by
    have := hnd.length_le_card
    simpa [Nat.lt_succ_iff] using this
  unfold bget at h
  rw [scan_next hring hlen, scan_prev hring hlen, ← List.map_reverse] at h
  cases hcached : (l.map BufPtr.buf).find? (s.test fun x => decide (x.dev = dev ∧ x.sector = sector))
    with
  | some a =>
    obtain ⟨b, rfl, -⟩ := find_buf hcached
    simp only [hcached] at h
    split_ifs at h with hb
    · cases h
      exact hb
    · cases h
      exact Bool.eq_false_iff.mpr hb
  | none =>
    simp only [hcached] at h
    cases hfree : (l.reverse.map BufPtr.buf).find? (s.test fun x => !x.busy && !x.dirty) with
    | none => simp only [hfree, reduceCtorEq] at h
    | some a =>
      obtain ⟨b, rfl, hb⟩ := find_buf hfree
      simp only [hfree, Option.some.injEq] at h
      subst h
      simp only [test, Bool.and_eq_true, Bool.not_eq_true'] at hb
      refine ⟨hb.1, hb.2, fun a ha => ?_⟩
      have hno := List.find?_eq_none.mp hcached (.buf a) (List.mem_map_of_mem (hall a))
      simp [test, ha] at hno

omit [DecidableEq P] in
theorem Owned.congr {s t : Bio N P} (h : s.Owned) (hl : AllLinked t.links) (hheld : t.held = s.held)
    (hbuf : ∀ b, (t.buf b).busy = (s.buf b).busy ∧ (t.buf b).dev = (s.buf b).dev ∧
      (t.buf b).sector = (s.buf b).sector) : t.Owned := by
  refine ⟨hl, fun a b => ?_, fun b => ?_, fun p b => ?_, fun p q b => ?_⟩
  · rw [(hbuf a).2.1, (hbuf a).2.2, (hbuf b).2.1, (hbuf b).2.2]
    exact h.unique a b
  · rw [(hbuf b).1, hheld]
    exact h.busy b
  · rw [(hbuf b).1, hheld]
    exact h.held p b
  · rw [hheld]
    exact h.once p q b

omit [DecidableEq P] in
theorem Owned.flags {s : Bio N P} (h : s.Owned) {b : Fin N} {x : CacheBuf}
    (hx : x.busy = (s.buf b).busy ∧ x.dev = (s.buf b).dev ∧ x.sector = (s.buf b).sector) :
    (s.setBuf b x).Owned := by
  refine h.congr h.linked rfl fun a => ?_
  by_cases hab : a = b
  · subst hab
    simpa using hx
  · simp [hab]

theorem Owned.grant {s : Bio N P} (h : s.Owned) (p : P) {b : Fin N} {x : CacheBuf}
    (hb : (s.buf b).busy = false) (hx : x.busy = true)
    (hu : ∀ a, a ≠ b → (s.buf a).dev = x.dev → (s.buf a).sector = x.sector → x.dev = -1) :
    ((s.setBuf b x).setHeld p b true).Owned := by
  have hfree : ∀ q, s.held q b = false := by
    intro q
    cases hq : s.held q b with
    | false => rfl
    | true => rw [h.held q b hq] at hb; cases hb
  have hheld : ∀ q a, ((s.setBuf b x).setHeld p b true).held q a = true →
      q = p ∧ a = b ∨ a ≠ b ∧ s.held q a = true := by
    intro q a hq
    by_cases hab : a = b
    · subst hab
      by_cases hqp : q = p
      · exact Or.inl ⟨hqp, rfl⟩
      · simp [hqp, hfree] at hq
    · by_cases hqp : q = p
      · subst hqp
        exact Or.inr ⟨hab, by simpa [hab] using hq⟩
      · exact Or.inr ⟨hab, by simpa [hqp] using hq⟩
  refine ⟨h.linked, fun a c => ?_, fun a ha => ?_, fun q a hq => ?_, fun q r a hq hr => ?_⟩
  · by_cases hab : a = b <;> by_cases hcb : c = b
    · exact fun _ _ _ => hab.trans hcb.symm
    · subst hab
      simp only [setHeld, setBuf, Function.update_self, Function.update_of_ne hcb]
      exact fun hd hs hne => absurd (hu c hcb hd.symm hs.symm) hne
    · subst hcb
      simp only [setHeld, setBuf, Function.update_self, Function.update_of_ne hab]
      exact fun hd hs hne => absurd (hd.trans (hu a hab hd hs)) hne
    · simp only [setHeld, setBuf, Function.update_of_ne hab, Function.update_of_ne hcb]
      exact h.unique a c
  · by_cases hab : a = b
    · exact ⟨p, by simp [hab]⟩
    · obtain ⟨q, hq⟩ := h.busy a (by simpa [hab] using ha)
      refine ⟨q, ?_⟩
      by_cases hqp : q = p
      · subst hqp; simpa [hab] using hq
      · simpa [hqp] using hq
  · rcases hheld q a hq with ⟨-, rfl⟩ | ⟨hab, hq⟩
    · simpa using hx
    · simpa [hab] using h.held q a hq
  · rcases hheld q a hq with ⟨rfl, rfl⟩ | ⟨hab, hq⟩
    · rcases hheld r a hr with ⟨rfl, -⟩ | ⟨hne, -⟩
      · rfl
      · exact absurd rfl hne
    · rcases hheld r a hr with ⟨-, rfl⟩ | ⟨-, hr⟩
      · exact absurd rfl hab
      · exact h.once q r a hq hr

theorem Owned.take {s : Bio N P} (h : s.Owned) (p : P) {dev sector : BitVec 32} {g : Got N}
    (hg : s.Gets dev sector g) : (s.take p dev sector g).Owned := by
  cases g with
  | hit b =>
    have hgrant := h.grant p (x := { s.buf b with busy := true }) hg rfl
      fun a hab hd hs => by_contra fun hne => hab (h.unique a b hd hs (hd ▸ hne))
    exact hgrant.congr hgrant.linked rfl fun _ => ⟨rfl, rfl, rfl⟩
  | recycle b =>
    have hgrant := h.grant p (x := ⟨true, false, false, dev, sector⟩) hg.1 rfl
      fun a _ hd hs => absurd ⟨hd, hs⟩ (hg.2.2 a)
    exact hgrant.congr hgrant.linked rfl fun _ => ⟨rfl, rfl, rfl⟩
  | sleep b => exact h.congr h.linked rfl fun _ => ⟨rfl, rfl, rfl⟩

theorem Owned.brelse {s : Bio N P} (h : s.Owned) {p : P} {b : Fin N} (hp : s.held p b = true) :
    ((({ s with links := (s.links.unlink (.buf b)).insert .head (.buf b) }).setBuf b
        { s.buf b with busy := false }).setHeld p b false).Owned := by
  have hbuf : ∀ a, (Function.update s.buf b { s.buf b with busy := false } a).dev = (s.buf a).dev ∧
      (Function.update s.buf b { s.buf b with busy := false } a).sector = (s.buf a).sector := by
    intro a
    by_cases hab : a = b
    · subst hab; simp
    · simp [hab]
  have hheld : ∀ q a, Function.update s.held p (Function.update (s.held p) b false) q a = true →
      a ≠ b ∧ s.held q a = true := by
    intro q a hq
    by_cases hqp : q = p
    · subst hqp
      by_cases hab : a = b
      · subst hab; simp at hq
      · exact ⟨hab, by simpa [hab] using hq⟩
    · rw [Function.update_of_ne hqp] at hq
      refine ⟨?_, hq⟩
      rintro rfl
      exact hqp (h.once q p a hq hp)
  refine ⟨relink_linked h.linked b, fun a c => ?_, fun a ha => ?_, fun q a hq => ?_,
    fun q r a hq hr => h.once q r a (hheld q a hq).2 (hheld r a hr).2⟩
  · simp only [setHeld, setBuf, (hbuf _).1, (hbuf _).2]
    exact h.unique a c
  · by_cases hab : a = b
    · subst hab; simp at ha
    · obtain ⟨q, hq⟩ := h.busy a (by simpa [hab] using ha)
      refine ⟨q, ?_⟩
      by_cases hqp : q = p
      · subst hqp; simpa [hab] using hq
      · simpa [hqp] using hq
  · obtain ⟨hab, hq⟩ := hheld q a hq
    simpa [hab] using h.held q a hq

theorem owned_step (s : Bio N P) (e : P × BioOp N) (t : Bio N P) (h : s.Owned) (ho : s.Obtained e)
    (hst : s.step e = some t) : t.Owned := by
  obtain ⟨p, op⟩ := e
  unfold step at hst
  generalize s.pc p = pc at hst
  cases op <;> cases pc <;>
    simp only [exec, reduceCtorEq, Option.ite_none_right_eq_some, Option.some.injEq,
      Option.map_eq_some_iff] at hst
  case bread.user dev sector => exact hst ▸ h.congr h.linked rfl fun _ => ⟨rfl, rfl, rfl⟩
  case bwrite.user b =>
    obtain ⟨hb, rfl⟩ := hst
    have hflags := h.flags (x := { s.buf b with dirty := true }) ⟨rfl, rfl, rfl⟩
    exact hflags.congr h.linked rfl fun _ => ⟨rfl, rfl, rfl⟩
  case brelse.user b =>
    obtain ⟨hb, rfl⟩ := hst
    exact (h.brelse ho).congr (h.brelse ho).linked rfl fun _ => ⟨rfl, rfl, rfl⟩
  case logWrite.user b => exact hst ▸ h.flags ⟨rfl, rfl, rfl⟩
  case kill.asleep b dev sector => exact hst ▸ h.congr h.linked rfl fun _ => ⟨rfl, rfl, rfl⟩
  case tick.bget dev sector =>
    obtain ⟨g, hg, rfl⟩ := hst
    exact h.take p (bget_gets h.linked hg)
  case tick.iderw b =>
    have hflags := h.flags (x := { s.buf b with valid := true, dirty := false }) ⟨rfl, rfl, rfl⟩
    exact hst ▸ hflags.congr h.linked rfl fun _ => ⟨rfl, rfl, rfl⟩

theorem assigned_free {s t : Bio N P} {e : P × BioOp N} (h : s.Owned) (hst : s.step e = some t)
    {b : Fin N} (hb : s.Assigned t b) : (s.buf b).busy = false ∧ (s.buf b).dirty = false := by
  have hkeep : ∀ (c : Fin N) (x : CacheBuf), t.buf = Function.update s.buf c x →
      x.dev = (s.buf c).dev → x.sector = (s.buf c).sector → False := by
    intro c x ht hd hsec
    rw [Assigned, ht] at hb
    by_cases hbc : b = c
    · subst hbc
      simp [hd, hsec] at hb
    · simp [hbc] at hb
  have hsame : t.buf = s.buf → False := fun ht => by simp [Assigned, ht] at hb
  obtain ⟨p, op⟩ := e
  unfold step at hst
  generalize s.pc p = pc at hst
  cases op <;> cases pc <;>
    simp only [exec, reduceCtorEq, Option.ite_none_right_eq_some, Option.some.injEq,
      Option.map_eq_some_iff] at hst
  case bread.user | kill.asleep => exact (hsame (by rw [← hst]; rfl)).elim
  case bwrite.user c => exact (hkeep c _ (congrArg Bio.buf hst.2.symm) rfl rfl).elim
  case brelse.user c => exact (hkeep c _ (congrArg Bio.buf hst.2.symm) rfl rfl).elim
  case logWrite.user c => exact (hkeep c _ (congrArg Bio.buf hst.symm) rfl rfl).elim
  case tick.iderw c => exact (hkeep c _ (congrArg Bio.buf hst.symm) rfl rfl).elim
  case tick.bget dev sector =>
    obtain ⟨g, hg, rfl⟩ := hst
    have hgets := bget_gets h.linked hg
    cases g with
    | hit c => exact (hkeep c _ rfl rfl rfl).elim
    | sleep c => exact (hsame rfl).elim
    | recycle c =>
      by_cases hbc : b = c
      · subst hbc
        exact ⟨hgets.1, hgets.2.1⟩
      · simp [Assigned, take, hbc] at hb

def Waits (s : Bio N P) : Prop :=
  ∀ p b dev sector, s.pc p = .asleep b dev sector → (s.buf b).busy = true

theorem Waits.goto {s : Bio N P} (h : s.Waits) (p : P) {pc : BioPc N}
    (hpc : ∀ b dev sector, pc = .asleep b dev sector → (s.buf b).busy = true) :
    (s.goto p pc).Waits := by
  intro q b dev sector hq
  by_cases hqp : q = p
  · subst hqp
    exact hpc b dev sector (by simpa using hq)
  · exact h q b dev sector (by simpa [hqp] using hq)

omit [DecidableEq P] in
theorem Waits.setBuf {s : Bio N P} (h : s.Waits) {b : Fin N} {x : CacheBuf}
    (hx : (s.buf b).busy = true → x.busy = true) : (s.setBuf b x).Waits := by
  intro q a dev sector hq
  have hbusy := h q a dev sector hq
  by_cases hab : a = b
  · subst hab
    simpa using hx hbusy
  · simpa [hab] using hbusy

-- Nobody is asleep on `b` after the wakeup, whatever has become of `b`.
omit [DecidableEq P] in
theorem Waits.wakeup {s t : Bio N P} (h : s.Waits) {b : Fin N} (hpc : t.pc = s.pc)
    (hbuf : ∀ a, a ≠ b → t.buf a = s.buf a) : (t.wakeup b).Waits := by
  intro q a dev sector hq
  simp only [Bio.wakeup, hpc] at hq
  split at hq
  · next hasleep =>
    split at hq
    · cases hq
    · next hne =>
      cases hq
      change (t.buf a).busy = true
      rw [hbuf a hne]
      exact h q a dev sector hasleep
  · next hother => exact absurd hq (hother a dev sector)

theorem waits_step (s : Bio N P) (e : P × BioOp N) (t : Bio N P) (h : s.Owned ∧ s.Waits)
    (ho : s.Obtained e) (hst : s.step e = some t) : t.Owned ∧ t.Waits := by
  refine ⟨owned_step s e t h.1 ho hst, ?_⟩
  obtain ⟨hown, h⟩ := h
  obtain ⟨p, op⟩ := e
  unfold step at hst
  generalize s.pc p = pc at hst
  cases op <;> cases pc <;>
    simp only [exec, reduceCtorEq, Option.ite_none_right_eq_some, Option.some.injEq,
      Option.map_eq_some_iff] at hst
  case bread.user | kill.asleep => exact hst ▸ h.goto p (by simp)
  case bwrite.user b =>
    obtain ⟨-, rfl⟩ := hst
    refine Waits.goto (h.setBuf ?_) p ?_
    · exact id
    · simp
  case brelse.user b => exact hst.2 ▸ h.wakeup rfl fun a hab => Function.update_of_ne hab ..
  case logWrite.user b => exact hst ▸ h.setBuf id
  case tick.iderw b =>
    have huser : (s.goto p .user).Waits := h.goto p (by simp)
    exact hst ▸ huser.wakeup rfl fun a hab => Function.update_of_ne hab ..
  case tick.bget dev sector =>
    obtain ⟨g, hg, rfl⟩ := hst
    cases g with
    | hit b => exact Waits.goto (h.setBuf fun _ => rfl) p (by split <;> simp)
    | recycle b => exact Waits.goto (h.setBuf fun _ => rfl) p (by simp)
    | sleep b =>
      refine h.goto p fun a _ _ heq => ?_
      cases heq
      exact bget_gets hown.linked hg

omit [DecidableEq P] in
theorem Start.owned {s : Bio N P} (hs : s.Start) : s.Owned := by
  obtain ⟨L, hL⟩ := hs.links
  refine ⟨hL ▸ binit_linked L, fun a b _ _ hne => absurd (hs.dev a) hne, fun b hb => ?_,
    fun p b hp => ?_, fun p q b hp => ?_⟩
  · simp [hs.busy b] at hb
  · simp [hs.held p b] at hp
  · simp [hs.held p b] at hp

theorem bcache_consistent {s : Bio N P} {es : List (P × BioOp N)} (hs : s.Start)
    (hes : GuardedRun.along step Obtained s es) :
    (∀ t, s.run es = some t → t.Consistent) ∧
      GuardedRun.along step (fun s e => ∀ t, s.step e = some t → ∀ b, s.Assigned t b →
        (s.buf b).busy = false ∧ (s.buf b).dirty = false) s es :=
  ⟨fun _ hr => (GuardedRun.run_invariant owned_step hs.owned hes hr).consistent,
    GuardedRun.along_of_invariant owned_step (fun _ _ h _ _ hst _ hb => assigned_free h hst hb)
      hs.owned hes⟩

theorem sleepers_await_holder {s t : Bio N P} {es : List (P × BioOp N)} {p : P} {b : Fin N}
    {dev sector : BitVec 32} (hs : s.Start) (hes : GuardedRun.along step Obtained s es)
    (hr : s.run es = some t) (hp : t.pc p = .asleep b dev sector) : ∃! q, t.held q b = true := by
  have hinit : s.Waits := fun p b dev sector hp => by simp [hs.user p] at hp
  obtain ⟨hown, hwaits⟩ := GuardedRun.run_invariant waits_step ⟨hs.owned, hinit⟩ hes hr
  exact (hown.consistent.holder b).mp (hwaits p b dev sector hp)

def fresh : Bio 10 (Fin 2) where
  buf _ := ⟨false, false, false, -1, 0⟩
  links := binit ⟨fun _ => .head, fun _ => .head⟩
  pc _ := .user
  held _ _ := false

theorem fresh_start : fresh.Start where
  links := ⟨_, rfl⟩
  dev _ := rfl
  busy _ := rfl
  user _ := rfl
  held _ _ := rfl

def contended : List (Fin 2 × BioOp 10) :=
  [(0, .bread 1 7), (0, .tick), (0, .tick), (1, .bread 1 7), (1, .tick), (0, .bwrite 0), (0, .tick),
    (1, .tick), (0, .brelse 0), (1, .tick)]

theorem bcache_consistent_contended :
    (∃ t, fresh.run contended = some t ∧ t.held 1 0 = true ∧ t.Consistent) ∧
      GuardedRun.along step (fun s e => ∀ t, s.step e = some t → ∀ b, s.Assigned t b →
        (s.buf b).busy = false ∧ (s.buf b).dirty = false) fresh contended := by
  have hrun : ∃ t, fresh.run contended = some t ∧ t.held 1 0 = true :=
    GuardedRun.exists_of_any (by decide +kernel)
  obtain ⟨t, ht, hheld⟩ := hrun
  have hcons := bcache_consistent fresh_start
    (show GuardedRun.along step Obtained fresh contended from
      GuardedRun.along_of_checks (by decide +kernel))
  exact ⟨⟨t, ht, hheld, hcons.1 t ht⟩, hcons.2⟩

theorem sleepers_await_holder_contended :
    ∃ t, fresh.run (contended.take 5) = some t ∧ t.pc 1 = .asleep 0 1 7 ∧
      ∃! q, t.held q 0 = true := by
  obtain ⟨t, ht, hpc⟩ : ∃ t, fresh.run (contended.take 5) = some t ∧ t.pc 1 = .asleep 0 1 7 :=
    GuardedRun.exists_of_any (by decide +kernel)
  exact ⟨t, ht, hpc, sleepers_await_holder fresh_start
    (GuardedRun.along_of_checks (by decide +kernel)) ht hpc⟩

end Bio

end Xv6
