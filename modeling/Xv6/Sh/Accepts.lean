import Xv6.Sh.Phrases

namespace Xv6.Sh

variable {W V : Type}

theorem not_mem_stringAt (buf : List Char) (s : Nat) : '\x00' ∉ stringAt buf s := by
  intro h
  simpa using List.mem_takeWhile_imp h

theorem tokens_length (cs : List Char) : (tokens cs).length ≤ cs.length := by
  fun_induction tokens cs with
  | case1 => exact Nat.le_refl 0
  | case11 c cs _ _ _ _ _ _ _ _ _ ih =>
    have := (List.dropWhile_suffix wordChar (l := cs)).length_le
    simp only [List.length_cons]
    omega
  | _ =>
    simp only [List.length_cons]
    omega

theorem getD_set (buf : List Char) (i j : Nat) :
    (buf.set i '\x00').getD j '\x00' = if i = j then '\x00' else buf.getD j '\x00' := by
  rw [List.getD_eq_getElem?_getD, List.getD_eq_getElem?_getD, List.getElem?_set]
  split_ifs <;> simp_all

theorem getD_foldl_set (ws : List Span) (buf : List Char) (j : Nat) :
    (ws.foldl (fun buf w => buf.set w.eq '\x00') buf).getD j '\x00' =
      if j ∈ ws.map Span.eq then '\x00' else buf.getD j '\x00' := by
  induction ws generalizing buf with
  | nil => rfl
  | cons w ws ih =>
    rw [List.foldl_cons, ih, getD_set, List.map_cons]
    grind

theorem getD_nulterminate (c : Cmd Span) (buf : List Char) (j : Nat) :
    (c.nulterminate buf).getD j '\x00' =
      if j ∈ c.words.map Span.eq then '\x00' else buf.getD j '\x00' := by
  induction c generalizing buf with
  | exec argv => exact getD_foldl_set argv buf j
  | redir c file mode fd ih =>
    rw [Cmd.nulterminate, getD_set, ih, Cmd.words, List.map_cons]
    grind
  | pipe l r ihl ihr | list l r ihl ihr =>
    rw [Cmd.nulterminate, ihr, ihl, Cmd.words, List.map_append]
    grind
  | back c ih => exact ih buf

theorem stringAt_eq {mem v : List Char} {q : Nat}
    (h : ∀ i, i < v.length → mem.getD (q + i) '\x00' = v.getD i '\x00') (hv : '\x00' ∉ v)
    (hend : mem.getD (q + v.length) '\x00' = '\x00') : stringAt mem q = v := by
  induction v generalizing q with
  | nil =>
    unfold stringAt
    cases hd : mem.drop q with
    | nil => rfl
    | cons c cs =>
      obtain rfl : '\x00' = c := hend.symm.trans (charAt_of_drop hd)
      rfl
  | cons c v ih =>
    have hc : charAt mem q = c := h 0 (Nat.zero_lt_succ _)
    have hne : c ≠ '\x00' := fun he => hv (he ▸ List.mem_cons_self)
    have htail : stringAt mem (q + 1) = v := by
      refine ih (fun i hi => ?_) (fun hm => hv (List.mem_cons_of_mem _ hm)) ?_
      · have := h (i + 1) (Nat.succ_lt_succ hi)
        rwa [← Nat.add_assoc, Nat.add_right_comm] at this
      · rwa [List.length_cons, ← Nat.add_assoc, Nat.add_right_comm] at hend
    unfold stringAt at htail ⊢
    cases hd : mem.drop q with
    | nil =>
      rw [charAt_of_drop_nil hd] at hc
      exact absurd hc.symm hne
    | cons d cs =>
      obtain rfl : d = c := (charAt_of_drop hd).symm.trans hc
      rw [drop_succ hd] at htail
      rw [List.takeWhile_cons_of_pos (by simpa using hne), htail]

theorem charAt_stringAt {buf : List Char} {i : Nat} (h : i < (stringAt buf 0).length) :
    charAt (stringAt buf 0) i = buf.getD i '\x00' := by
  have hp : stringAt buf 0 <+: buf := List.takeWhile_prefix _
  have hlt := Nat.lt_of_lt_of_le h hp.length_le
  rw [charAt, List.getD_eq_getElem?_getD, List.getD_eq_getElem?_getD,
    List.getElem?_eq_getElem h, List.getElem?_eq_getElem hlt, hp.getElem h]

theorem Span.Word.length_text {str : List Char} {w : Span} (h : w.Word str) :
    (w.text str).length = w.eq - w.q := by
  have := h.le
  rw [text, List.length_take, List.length_drop]
  omega

theorem Span.text_getD {str : List Char} {w : Span} {i : Nat} (hi : i < w.eq - w.q) :
    (w.text str).getD i '\x00' = charAt str (w.q + i) := by
  rw [text, charAt, List.getD_eq_getElem?_getD, List.getD_eq_getElem?_getD,
    List.getElem?_take_of_lt hi, List.getElem?_drop]

theorem stringAt_nulterminate {buf : List Char} {c : Cmd Span}
    (hc : ∀ w ∈ c.words, w.Word (stringAt buf 0)) {w : Span} (hw : w ∈ c.words) :
    stringAt (c.nulterminate buf) w.q = w.text (stringAt buf 0) := by
  have hword := hc w hw
  have hlen := hword.length_text
  have horder := hword.order
  refine stringAt_eq (fun i hi => ?_) (fun hm => ?_) ?_
  · rw [hlen] at hi
    have hle := hword.le
    rw [getD_nulterminate, if_neg ?_, Span.text_getD hi, charAt_stringAt (by omega)]
    intro hmem
    obtain ⟨v, hv, he⟩ := List.mem_map.mp hmem
    rcases (hc v hv).ends with hend | hend
    · omega
    · rw [he, hword.inside _ (Nat.le_add_right _ _) (by omega)] at hend
      cases hend
  · exact not_mem_stringAt buf 0 (List.mem_of_mem_drop (List.mem_of_mem_take hm))
  · rw [getD_nulterminate, if_pos]
    rw [hlen, Nat.add_sub_cancel' horder]
    exact List.mem_map_of_mem hw

theorem Cmd.map_congr {f g : W → V} {c : Cmd W} (h : ∀ w ∈ c.words, f w = g w) :
    c.map f = c.map g := by
  induction c with
  | exec argv => exact congrArg Cmd.exec (List.map_congr_left h)
  | redir c file mode fd ih =>
    rw [map, map, h file List.mem_cons_self, ih fun w hw => h w (List.mem_cons_of_mem _ hw)]
  | pipe l r ihl ihr | list l r ihl ihr =>
    rw [map, map, ihl fun w hw => h w (List.mem_append_left _ hw),
      ihr fun w hw => h w (List.mem_append_right _ hw)]
  | back c ih => exact congrArg Cmd.back (ih h)

theorem peek_end {str : List Char} {s : Nat} {ts : List (Token (List Char))} (h : At str s ts) :
    (peek str s []).2 = str.length ↔ ts = [] := by
  have hs := h.skipBlanks
  change skipBlanks str s = str.length ↔ _
  constructor
  · intro he
    rw [← hs.2, he, List.drop_length, tokens]
  · rintro rfl
    cases hd : str.drop (skipBlanks str s) with
    | nil => exact Nat.le_antisymm hs.1 (List.drop_eq_nil_iff.mp hd)
    | cons c cs =>
      rw [At, hd] at hs
      exact absurd hs.2 (tokens_ne_nil (skipBlanks_head hd) cs)

theorem parsecmd_returns {fuel : Nat} {buf : List Char} {d : Cmd (List Char)}
    (h : Returns (stringAt buf 0) (parseline (stringAt buf 0) fuel 0) d []) :
    ∃ cmd mem, parsecmd fuel buf = .ok (cmd, mem) ∧ cmd.map (fun w => stringAt mem w.q) = d := by
  obtain ⟨c, s, he, hs, hb⟩ := h
  refine ⟨c, c.nulterminate buf, ?_, ?_⟩
  · rw [parsecmd, he]
    simp [bind, Except.bind, (peek_end hs).mpr rfl]
  · rw [← hb.tree]
    exact Cmd.map_congr fun w hw => stringAt_nulterminate hb.words hw

theorem parsecmd_leftovers {fuel : Nat} {buf : List Char} {d : Cmd (List Char)}
    {ts : List (Token (List Char))} (hts : ts ≠ [])
    (h : Returns (stringAt buf 0) (parseline (stringAt buf 0) fuel 0) d ts) :
    parsecmd fuel buf = .error (.panic "syntax") := by
  obtain ⟨c, s, he, hs, -⟩ := h
  have hne := mt (peek_end hs).mp hts
  rw [parsecmd, he]
  simp [bind, Except.bind, hne]

theorem parsecmd_ok {fuel : Nat} {buf mem : List Char} {cmd : Cmd Span}
    (hf : 4 * (stringAt buf 0).length + 4 ≤ fuel) (h : parsecmd fuel buf = .ok (cmd, mem)) :
    mem = cmd.nulterminate buf ∧ ∃ d, Builds (stringAt buf 0) cmd d ∧
      Derives .line (tokens (stringAt buf 0)) d := by
  have hnul := not_mem_stringAt buf 0
  have h0 : At (stringAt buf 0) 0 (tokens (stringAt buf 0)) :=
    ⟨Nat.zero_le _, by rw [List.drop_zero]⟩
  have hlen := tokens_length (stringAt buf 0)
  rcases parseline_settles hnul h0 (k := fuel) (by omega) with
    ⟨msg, hp⟩ | ⟨us, rest, d, hts, hd, c, s, hp, hs, hb⟩
  · rw [parsecmd, hp] at h
    cases h
  · rw [parsecmd, hp] at h
    simp only [bind, Except.bind] at h
    split at h
    · cases h
    · next hend =>
      obtain ⟨rfl, rfl⟩ : c = cmd ∧ c.nulterminate buf = mem := by simpa using h
      obtain rfl : rest = [] := (peek_end hs).mp (by simpa using hend)
      rw [hts, List.append_nil]
      exact ⟨rfl, d, hb, hd⟩

theorem parsecmd_iff (fuel : Nat) (buf : List Char) (h : 4 * (stringAt buf 0).length + 4 ≤ fuel) :
    (∀ d, Derives .line (tokens (stringAt buf 0)) d ↔
      ∃ cmd mem, parsecmd fuel buf = .ok (cmd, mem) ∧ cmd.map (fun w => stringAt mem w.q) = d) ∧
    ((∃ msg, parsecmd fuel buf = .error (.panic msg)) ∨
      ∃ cmd mem, parsecmd fuel buf = .ok (cmd, mem)) := by
  have hnul := not_mem_stringAt buf 0
  have h0 : At (stringAt buf 0) 0 (tokens (stringAt buf 0)) :=
    ⟨Nat.zero_le _, by rw [List.drop_zero]⟩
  have hf : 4 * (tokens (stringAt buf 0)).length + 4 ≤ fuel := by
    have := tokens_length (stringAt buf 0)
    omega
  refine ⟨fun d => ⟨fun hd => ?_, ?_⟩, ?_⟩
  · rw [← List.append_nil (tokens _)] at h0 hf
    exact parsecmd_returns (parse_returns hnul hd h0 (.inl rfl) hf)
  · rintro ⟨cmd, mem, hok, rfl⟩
    obtain ⟨rfl, d, hb, hd⟩ := parsecmd_ok h hok
    rw [Cmd.map_congr fun w hw => stringAt_nulterminate hb.words hw, hb.tree]
    exact hd
  · rcases parseline_settles hnul h0 hf with ⟨msg, hp⟩ | ⟨us, rest, d, hts, hd, hret⟩
    · refine .inl ⟨msg, ?_⟩
      rw [parsecmd, hp]
      rfl
    · cases rest with
      | nil =>
        obtain ⟨cmd, mem, hok, -⟩ := parsecmd_returns hret
        exact .inr ⟨cmd, mem, hok⟩
      | cons t rest => exact .inl ⟨_, parsecmd_leftovers (List.cons_ne_nil t rest) hret⟩

def lineRead : List Char := "ls -l | (wc; cat <in >>out)& ;".toList

theorem parsecmd_iff_lineRead :
    4 * (stringAt lineRead 0).length + 4 ≤ 200 ∧
    ((∀ d, Derives .line (tokens (stringAt lineRead 0)) d ↔
      ∃ cmd mem, parsecmd 200 lineRead = .ok (cmd, mem) ∧
        cmd.map (fun w => stringAt mem w.q) = d) ∧
    ((∃ msg, parsecmd 200 lineRead = .error (.panic msg)) ∨
      ∃ cmd mem, parsecmd 200 lineRead = .ok (cmd, mem))) :=
  ⟨by decide, parsecmd_iff 200 lineRead (by decide)⟩

end Xv6.Sh
