import Xv6.Console.Basic

namespace Xv6

open RingBuffer

namespace Input

variable {s t : Input} {c : UInt8}

def unread (s : Input) : List UInt8 := entries 128 s.buf s.r.toNat (s.w - s.r).toNat

def line (s : Input) : List UInt8 := entries 128 s.buf s.w.toNat (s.e - s.w).toNat

structure Bounded (s : Input) : Prop where
  committed : (s.w - s.r).toNat ≤ (s.e - s.r).toNat
  room : (s.e - s.r).toNat ≤ inputBuf.toNat

theorem Bounded.split (h : s.Bounded) :
    (s.e - s.r).toNat = (s.w - s.r).toNat + (s.e - s.w).toNat := by
  obtain ⟨h1, h2⟩ := h
  bv_omega

theorem slot_add (i k : BitVec 32) :
    ((i + k).toNat : Int) % 128 = (i.toNat + k.toNat) % 128 := by
  rw [BitVec.toNat_add]
  omega

theorem slot_sub (i j : BitVec 32) : (i.toNat : Int) % 128 = (j.toNat + (i - j).toNat) % 128 := by
  bv_omega

theorem line_last (h : s.e ≠ s.w) :
    s.line = line { s with e := s.e - 1 } ++ [s.byteAt (s.e - 1)] := by
  have hcount : ((s.e - s.w).toNat : Int) = (s.e - 1 - s.w).toNat + 1 := by bv_omega
  have hslot : (s.w.toNat + ((s.e - 1 - s.w).toNat : Int)) % 128 = (s.e - 1).toNat % 128 :=
    (slot_sub _ _).symm
  rw [line, hcount, entries_append _ (by omega) (by omega), entries_one, hslot]
  rfl

theorem line_empty (h : s.e = s.w) : s.line = [] := by
  simp [line, entries, h]

theorem killLoop_eq {k : Nat} (hk : (s.e - s.w).toNat = k) (hn : newline ∉ s.line) :
    killLoop k s = { s with e := s.w } := by
  induction k generalizing s with
  | zero =>
    obtain ⟨buf, r, w, e⟩ := s
    obtain rfl : e = w := by
      dsimp only at hk
      bv_omega
    rfl
  | succ k ih =>
    have hne : s.e ≠ s.w := by
      intro he
      rw [he] at hk
      simp at hk
    rw [line_last hne] at hn
    have hlast : s.byteAt (s.e - 1) ≠ newline := by
      intro hc
      exact hn (List.mem_append_right _ (List.mem_singleton.mpr hc.symm))
    rw [killLoop, if_pos ⟨hne, hlast⟩]
    exact ih (by dsimp only; bv_omega) fun hmem => hn (List.mem_append_left _ hmem)

theorem accepts_room (h : s.accepts c) : (s.e - s.r).toNat < 128 := by
  have hlt := h.2
  rw [BitVec.lt_def] at hlt
  simpa using hlt

theorem put_unread (h : s.Bounded) (hr : (s.e - s.r).toNat < 128) (c : UInt8) :
    (s.put c).unread = s.unread := by
  have hcount := h.committed
  rw [unread, put]
  dsimp only
  rw [slot_sub s.e s.r]
  exact entries_update _ _ (by omega) (by omega) (by omega)

theorem put_line (h : s.Bounded) (hr : (s.e - s.r).toNat < 128) (c : UInt8) :
    (s.put c).line = s.line ++ [c] := by
  have hsplit := h.split
  have hcount : ((s.e + 1 - s.w).toNat : Int) = (s.e - s.w).toNat + 1 := by bv_omega
  rw [line, put]
  dsimp only
  rw [slot_sub s.e s.w, hcount]
  exact entries_enqueue _ _ (by omega) (by omega)

theorem put_bounded (h : s.Bounded) (hr : (s.e - s.r).toNat < 128) (c : UInt8) :
    (s.put c).Bounded := by
  obtain ⟨h1, h2⟩ := h
  refine ⟨?_, ?_⟩ <;> simp only [put] <;> bv_omega

theorem commit_unread (h : s.Bounded) : unread { s with w := s.e } = s.unread ++ s.line := by
  rw [unread]
  dsimp only
  rw [h.split, Nat.cast_add, entries_append _ (by omega) (by omega), unread, line]
  congr 1
  exact entries_congr_start _ (slot_sub _ _).symm

structure Holds (s : Input) (consumed : List UInt8) (ed : Edited) : Prop where
  bounded : s.Bounded
  stream : consumed ++ s.unread = ed.committed
  line : s.line = ed.line
  unfinished : newline ∉ s.line

variable {consumed : List UInt8} {ed : Edited}

theorem Holds.killLine (h : s.Holds consumed ed) :
    (killLoop (s.e - s.w).toNat s).Holds consumed ⟨ed.committed, []⟩ := by
  rw [killLoop_eq rfl h.unfinished]
  have hline : Input.line { s with e := s.w } = [] := line_empty rfl
  refine ⟨⟨le_rfl, ?_⟩, h.stream, hline, by simp [hline]⟩
  exact h.bounded.committed.trans h.bounded.room

theorem Holds.backspace (h : s.Holds consumed ed) :
    s.backspace.Holds consumed ⟨ed.committed, ed.line.dropLast⟩ := by
  unfold Input.backspace
  split
  · rename_i hne
    have hlast := line_last hne
    have hsplit := h.bounded.split
    obtain ⟨h1, h2⟩ := h.bounded
    refine ⟨⟨?_, ?_⟩, h.stream, ?_, fun hmem => h.unfinished ?_⟩
    · dsimp only
      bv_omega
    · dsimp only
      bv_omega
    · rw [← h.line, hlast, List.dropLast_concat]
    · rw [hlast]
      exact List.mem_append_left _ hmem
  · rename_i heq
    have hline := line_empty (not_not.mp heq)
    refine ⟨h.bounded, h.stream, ?_, h.unfinished⟩
    rw [← h.line, hline, List.dropLast_nil]

theorem Holds.length (h : s.Holds consumed ed) :
    (s.e - s.r).toNat = ed.committed.length - consumed.length + ed.line.length := by
  rw [h.bounded.split, ← h.stream, ← h.line]
  simp only [unread, Input.line, entries, List.length_append, List.length_map, List.length_range,
    Int.toNat_natCast, Nat.add_sub_cancel_left]

theorem Holds.store (h : s.Holds consumed ed) (hr : (s.e - s.r).toNat < 128) (c : UInt8) :
    (s.store c).Holds consumed (ed.store (ed.committed.length - consumed.length) c) := by
  have hb := put_bounded h.bounded hr c
  have hu := put_unread h.bounded hr c
  have hl := put_line h.bounded hr c
  have hfull : (s.put c).e = s.r + inputBuf ↔
      ed.committed.length - consumed.length + ed.line.length + 1 = 128 := by
    rw [← h.length, put]
    dsimp only
    bv_omega
  simp only [Input.store, Edited.store, ← hfull]
  split
  · have hline : Input.line { s.put c with w := (s.put c).e } = [] := line_empty rfl
    refine ⟨⟨le_rfl, hb.room⟩, ?_, hline, by simp [hline]⟩
    rw [commit_unread hb, hu, hl, ← h.line, ← List.append_assoc, h.stream]
  · rename_i hc
    refine ⟨hb, hu.symm ▸ h.stream, by rw [hl, h.line], ?_⟩
    rw [hl, List.mem_append, not_or]
    refine ⟨h.unfinished, fun hmem => hc ?_⟩
    exact .inl (List.mem_singleton.mp hmem).symm

theorem Holds.consoleintr (h : s.Holds consumed ed) (c : UInt8) :
    (s.consoleintr c).Holds consumed (ed.key (ed.committed.length - consumed.length) c) := by
  have haccepts : s.accepts c ↔
      c ≠ 0 ∧ ed.committed.length - consumed.length + ed.line.length < 128 := by
    rw [← h.length, accepts, BitVec.lt_def]
    rfl
  simp only [Input.consoleintr, Edited.key, ← haccepts]
  split_ifs with hp hu hb ha
  · exact h
  · exact h.killLine
  · exact h.backspace
  · exact h.store (accepts_room ha) _
  · exact h

def edits (c : UInt8) : Prop := c = ctrl 'U' ∨ c = ctrl 'H' ∨ c = delete

theorem Holds.keeps_committed (h : s.Holds consumed ed) (c : UInt8) :
    (s.consoleintr c).r = s.r ∧ s.unread <+: (s.consoleintr c).unread ∧
      (edits c → (s.consoleintr c).w = s.w ∧ (s.consoleintr c).unread = s.unread) := by
  unfold Input.consoleintr
  split_ifs with hp hu hb ha
  · exact ⟨rfl, List.prefix_rfl, fun _ => ⟨rfl, rfl⟩⟩
  · rw [killLoop_eq rfl h.unfinished]
    exact ⟨rfl, List.prefix_rfl, fun _ => ⟨rfl, rfl⟩⟩
  · unfold Input.backspace
    split
    · exact ⟨rfl, List.prefix_rfl, fun _ => ⟨rfl, rfl⟩⟩
    · exact ⟨rfl, List.prefix_rfl, fun _ => ⟨rfl, rfl⟩⟩
  · have hroom := accepts_room ha
    have hunread := put_unread h.bounded hroom (translate c)
    refine ⟨?_, ?_, fun he => absurd he fun he => ?_⟩
    · unfold Input.store
      split <;> rfl
    · unfold Input.store
      split
      · rw [commit_unread (put_bounded h.bounded hroom _), hunread]
        exact List.prefix_append _ _
      · rw [hunread]
    · rcases he with he | he
      · exact hu he
      · exact hb he
  · exact ⟨rfl, List.prefix_rfl, fun _ => ⟨rfl, rfl⟩⟩

theorem unread_cons (h : s.r ≠ s.w) :
    s.unread = s.byteAt s.r :: unread { s with r := s.r + 1 } := by
  have hpos : 0 < ((s.w - s.r).toNat : Int) := by bv_omega
  have hcount : ((s.w - s.r).toNat : Int) - 1 = (s.w - (s.r + 1)).toNat := by bv_omega
  rw [unread, entries_dequeue _ hpos, hcount]
  congr 1
  apply entries_congr_start
  rw [slot_add s.r 1]
  simp

theorem Bounded.take (h : s.Bounded) (hne : s.r ≠ s.w) : Bounded { s with r := s.r + 1 } := by
  obtain ⟨h1, h2⟩ := h
  refine ⟨?_, ?_⟩ <;> dsimp only <;> bv_omega

inductive Reads (killed : Bool) (target n : Nat) (s : Input) :
    List UInt8 × Input × ReadEnd → Prop
  | bytes {bs : List UInt8} {t : Input} {how : ReadEnd} (hne : how ≠ .eof) (hd : ctrl 'D' ∉ bs)
      (hu : bs ++ t.unread = s.unread) (hsame : t.line = s.line ∧ t.Bounded)
      (hdone : ∀ k, how = .done k ∨ how = .asleep k → k + bs.length = n)
      (hkill : how = .killed → killed = true) : Reads killed target n s (bs, t, how)
  | eof {t : Input} (hn : target ≤ n) (hu : ctrl 'D' :: t.unread = s.unread)
      (hsame : t.line = s.line ∧ t.Bounded) : Reads killed target n s ([], t, .eof)

theorem readLoop_reads {killed : Bool} {target n : Nat} (h : s.Bounded) (hn : n ≤ target) :
    Reads killed target n s (s.readLoop killed target n) := by
  induction n generalizing s with
  | zero => exact .bytes (by simp) (by simp) rfl ⟨rfl, h⟩ (by simp) (by simp)
  | succ n ih =>
    unfold readLoop
    split
    · refine .bytes ?_ (by simp) rfl ⟨rfl, h⟩ ?_ ?_ <;> cases killed <;> simp
    rename_i hempty
    split
    · rename_i heof
      split
      · exact .bytes (by simp) (by simp) rfl ⟨rfl, h⟩ (by simp) (by simp)
      · refine .eof (by omega) ?_ ⟨rfl, h.take hempty⟩
        rw [unread_cons hempty, heof]
    rename_i heof
    have hd : ∀ bs, ctrl 'D' ∉ bs → ctrl 'D' ∉ s.byteAt s.r :: bs := by
      intro bs hbs
      rw [List.mem_cons, not_or]
      exact ⟨Ne.symm heof, hbs⟩
    split
    · refine .bytes (by simp) (hd [] (by simp)) ?_ ⟨rfl, h.take hempty⟩ (by simp) (by simp)
      rw [unread_cons hempty]
      rfl
    · have hrest := ih (h.take hempty) (by omega)
      generalize readLoop killed target n { s with r := s.r + 1 } = x at hrest
      cases hrest with
      | @bytes bs u how hne hbs hu hsame hdone hkill =>
        refine .bytes hne (hd bs hbs) ?_ hsame (fun k hk => ?_) hkill
        · rw [unread_cons hempty, ← hu]
          rfl
        · rw [List.length_cons, ← hdone k hk]
          omega
      | eof hle => omega

theorem Holds.take (h : s.Holds consumed ed) {v : List UInt8} (hu : v ++ t.unread = s.unread)
    (hsame : t.line = s.line ∧ t.Bounded) : t.Holds (consumed ++ v) ed := by
  refine ⟨hsame.2, ?_, hsame.1.trans h.line, hsame.1 ▸ h.unfinished⟩
  rw [List.append_assoc, hu, h.stream]

end Input

namespace Console

variable {P : Type} [DecidableEq P] {s t : Console P} {p : P}

structure Start (s : Console P) : Prop where
  empty : s.input.w = s.input.r ∧ s.input.e = s.input.r
  user : ∀ p, s.pc p = .user
  edited : s.edited = ⟨[], []⟩
  consumed : s.consumed = []

def got (s : Console P) (p : P) : Int :=
  match s.pc p with
  | .user => 0
  | .asleep target n => target - n

inductive Took (s t : Console P) (p : P) : Prop
  | bytes (bs : List UInt8) (hd : ctrl 'D' ∉ bs) (hc : t.consumed = s.consumed ++ bs)
      (hret : t.pc p = .user → t.eax p = s.got p + bs.length ∨ s.killed p = true ∧ t.eax p = -1)
      (hsleep : t.pc p ≠ .user → t.got p = s.got p + bs.length)
  | eof (hg : s.got p = 0) (hc : t.consumed = s.consumed ++ [ctrl 'D']) (hret : t.pc p = .user)
      (heax : t.eax p = 0)

def Faithful (s : Console P) (e : ConsoleEvent P) : Prop :=
  ∀ t, s.step e = some t →
    match e with
    | .intr c => t.input.r = s.input.r ∧ s.input.unread <+: t.input.unread ∧
        (Input.edits c → t.input.w = s.input.w ∧ t.input.unread = s.input.unread)
    | .read p _ | .tick p => Took s t p
    | .kill _ => True

structure Inv (s : Console P) : Prop where
  holds : s.input.Holds s.consumed s.edited
  asleep : ∀ p target n, s.pc p = .asleep target n → n ≤ target

theorem Inv.woken (h : s.Inv) {input : Input} {consumed : List UInt8}
    (hh : input.Holds consumed s.edited) {pc : P → ReadPc} {eax : P → Int}
    (hpc : ∀ target n, pc p = .asleep target n → n ≤ target)
    (hother : ∀ q, q ≠ p → pc q = s.pc q) :
    Inv { s with input := input, consumed := consumed, pc := pc, eax := eax } := by
  refine ⟨hh, fun q target n hq => ?_⟩
  by_cases hqp : q = p
  · subst hqp
    exact hpc target n hq
  · exact h.asleep q target n (hother q hqp ▸ hq)

theorem Inv.readSection (h : s.Inv) {target n : Nat} (hn : n ≤ target)
    (hg : s.got p = target - n) :
    (s.readSection p target n).Inv ∧ Took s (s.readSection p target n) p := by
  have hreads : Input.Reads (s.killed p) target n s.input
      (s.input.readLoop (s.killed p) target n) := Input.readLoop_reads h.holds.bounded hn
  have hother : ∀ pc q, q ≠ p → Function.update s.pc p pc q = s.pc q :=
    fun _ q hq => Function.update_of_ne hq _ _
  unfold Console.readSection
  generalize s.input.readLoop (s.killed p) target n = x at hreads
  cases hreads with
  | @bytes bs input how hne hd hu hsame hdone hkill =>
    have hh := h.holds.take hu hsame
    cases how with
    | eof => exact absurd rfl hne
    | done k =>
      have hk := hdone k (.inl rfl)
      refine ⟨h.woken hh (by simp) (hother _), .bytes bs hd rfl (fun _ => .inl ?_) ?_⟩
      · simp only [returns, Function.update_self, hg]
        omega
      · simp [returns]
    | killed =>
      refine ⟨h.woken hh (by simp) (hother _), .bytes bs hd rfl (fun _ => .inr ⟨hkill rfl, ?_⟩) ?_⟩
      · simp [returns]
      · simp [returns]
    | asleep k =>
      have hk := hdone k (.inr rfl)
      refine ⟨h.woken hh ?_ (hother _), .bytes bs hd rfl ?_ fun _ => ?_⟩
      · intro target' n' heq
        simp only [Function.update_self, ReadPc.asleep.injEq] at heq
        omega
      · simp
      · simp only [got, Function.update_self] at hg ⊢
        omega
  | @eof input hle hu hsame =>
    have hh := h.holds.take (v := [ctrl 'D']) hu hsame
    refine ⟨h.woken (by simpa using hh) (by simp) (hother _), .eof ?_ ?_ ?_ ?_⟩
    · omega
    · simp [returns]
    · simp [returns]
    · simp [returns]

theorem step_inv (s : Console P) (e : ConsoleEvent P) (t : Console P) (h : s.Inv) (_ : True)
    (hst : s.step e = some t) : t.Inv := by
  cases e with
  | intr c =>
    cases hst
    exact ⟨h.holds.consoleintr c, h.asleep⟩
  | read p n =>
    simp only [step] at hst
    split at hst <;> cases hst
    rename_i hpc
    exact (h.readSection le_rfl (by simp [got, hpc])).1
  | tick p =>
    simp only [step] at hst
    split at hst <;> cases hst
    rename_i target n hpc
    exact (h.readSection (h.asleep p target n hpc) (by simp [got, hpc])).1
  | kill p =>
    cases hst
    exact ⟨h.holds, h.asleep⟩

theorem Inv.faithful (h : s.Inv) (e : ConsoleEvent P) : s.Faithful e := by
  intro t hst
  cases e with
  | intr c =>
    cases hst
    exact h.holds.keeps_committed c
  | read p n =>
    simp only [step] at hst
    split at hst <;> cases hst
    rename_i hpc
    exact (h.readSection le_rfl (by simp [got, hpc])).2
  | tick p =>
    simp only [step] at hst
    split at hst <;> cases hst
    rename_i target n hpc
    exact (h.readSection (h.asleep p target n hpc) (by simp [got, hpc])).2
  | kill p => trivial

omit [DecidableEq P] in
theorem Start.inv (hs : s.Start) : s.Inv := by
  obtain ⟨hw, he⟩ := hs.empty
  have hunread : s.input.unread = [] := by simp [Input.unread, entries, hw]
  have hline : s.input.line = [] := Input.line_empty (he.trans hw.symm)
  refine ⟨⟨⟨?_, ?_⟩, ?_, ?_, ?_⟩, fun p target n hp => ?_⟩
  · simp [hw]
  · simp [he]
  · rw [hunread, hs.consumed, hs.edited]
    rfl
  · rw [hline, hs.edited]
  · simp [hline]
  · simp [hs.user p] at hp

theorem console_stream {s : Console P} {es : List (ConsoleEvent P)} (hs : s.Start) :
    (∀ t, s.run es = some t → t.input.Bounded ∧
      t.consumed ++ t.input.unread = t.edited.committed) ∧
    GuardedRun.along step Faithful s es := by
  have hall : GuardedRun.along step (fun _ _ => True) s es :=
    GuardedRun.along_of_forall (fun _ _ _ => trivial) s
  refine ⟨fun t ht => ?_, GuardedRun.along_of_invariant step_inv
    (fun _ e h _ => h.faithful e) hs.inv hall⟩
  have hinv := GuardedRun.run_invariant step_inv hs.inv hall ht
  exact ⟨hinv.holds.bounded, hinv.holds.stream⟩

def idleConsole (i : BitVec 32) : Console (Fin 2) where
  input := ⟨fun _ => 0, i, i, i⟩
  pc _ := .user
  killed _ := false
  eax _ := 0
  edited := ⟨[], []⟩
  consumed := []

theorem idleConsole_start (i : BitVec 32) : (idleConsole i).Start :=
  ⟨⟨rfl, rfl⟩, fun _ => rfl, rfl, rfl⟩

def editedLine : List (ConsoleEvent (Fin 2)) :=
  [.read 0 9, .intr 97, .intr 98, .intr (ctrl 'H'), .intr 99, .intr carriageReturn, .tick 0,
    .intr (ctrl 'D'), .read 1 5]

theorem console_stream_editedLine : ∃ t, (idleConsole 0xfffffffe).run editedLine = some t ∧
    (t.consumed = [97, 99, newline, ctrl 'D'] ∧ t.input.r = 2 ∧ t.eax 0 = 3 ∧ t.eax 1 = 0) ∧
    t.input.Bounded ∧ t.consumed ++ t.input.unread = t.edited.committed ∧
    GuardedRun.along step Faithful (idleConsole 0xfffffffe) editedLine := by
  have hrun : ∃ t, (idleConsole 0xfffffffe).run editedLine = some t ∧
      (t.consumed = [97, 99, newline, ctrl 'D'] ∧ t.input.r = 2 ∧ t.eax 0 = 3 ∧ t.eax 1 = 0) :=
    GuardedRun.exists_of_any (by decide +kernel)
  obtain ⟨t, ht, hout⟩ := hrun
  obtain ⟨hstream, hfaithful⟩ := console_stream (idleConsole_start 0xfffffffe)
  obtain ⟨hbounded, hcommitted⟩ := hstream t ht
  exact ⟨t, ht, hout, hbounded, hcommitted, hfaithful⟩

end Console
end Xv6
