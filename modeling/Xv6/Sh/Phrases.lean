import Xv6.Sh.Loops

namespace Xv6.Sh

variable {W : Type}

section Phrases

variable {str : List Char} {s k : Nat} {ts rest : List (Token (List Char))}

def parse (str : List Char) : Phrase → Nat → Nat → Except Stop (Cmd Span × Nat)
  | .line => parseline str
  | .pipe => parsepipe str
  | .exec => parseexec str

def Phrase.follow : Phrase → List Char
  | .line => [')']
  | .pipe => [')', '&', ';']
  | .exec => argStops

def Phrase.depth : Phrase → Nat
  | .line => 4
  | .pipe => 3
  | .exec => 2

theorem builds_execcmd (str : List Char) : Builds str (.exec []) (.exec []) :=
  ⟨rfl, fun _ h => absurd h List.not_mem_nil⟩

theorem Builds.pipe {c c' : Cmd Span} {d d' : Cmd (List Char)} (h : Builds str c d)
    (h' : Builds str c' d') : Builds str (.pipe c c') (.pipe d d') := by
  refine ⟨by rw [← h.tree, ← h'.tree]; rfl, fun w hw => ?_⟩
  rcases List.mem_append.mp hw with hw | hw
  · exact h.words w hw
  · exact h'.words w hw

theorem Builds.list {c c' : Cmd Span} {d d' : Cmd (List Char)} (h : Builds str c d)
    (h' : Builds str c' d') : Builds str (.list c c') (.list d d') := by
  refine ⟨by rw [← h.tree, ← h'.tree]; rfl, fun w hw => ?_⟩
  rcases List.mem_append.mp hw with hw | hw
  · exact h.words w hw
  · exact h'.words w hw

theorem parseexec_words (hnul : '\x00' ∉ str) (h : At str s ts) (hts : starts ['('] ts = false)
    (k : Nat) :
    ∃ s', At str s' ts ∧ parseexec str (k + 1) s =
      (parseredirs str k (.exec []) s').bind fun r => parseargs str k r.1 0 r.2 := by
  obtain ⟨s', hp, h'⟩ := peek_eq hnul h ['('] (by decide)
  refine ⟨s', h', ?_⟩
  rw [parseexec, hp, hts]
  rfl

theorem parseexec_block (hnul : '\x00' ∉ str) (h : At str s (.lparen :: ts)) (k : Nat) :
    ∃ s', At str s' ts ∧ parseexec str (k + 2) s =
      (parseline str k s').bind fun r => endblock str k r.1 r.2 := by
  obtain ⟨s1, hp, h1⟩ := peek_eq hnul h ['('] (by decide)
  obtain ⟨s2, hp', h2⟩ := peek_eq hnul h1 ['('] (by decide)
  obtain ⟨t, s3, hg, h3, -, -⟩ := gettoken_cons hnul h2
  have hst : starts ['('] (Token.lparen :: ts) = true := rfl
  rw [hst] at hp hp'
  refine ⟨s3, h3, ?_⟩
  rw [parseexec, hp]
  dsimp only
  rw [parseblock, hp']
  dsimp only
  rw [hg]
  rfl

theorem endblock_rparen (hnul : '\x00' ∉ str) (h : At str s (.rparen :: ts)) (k : Nat)
    (cmd : Cmd Span) :
    ∃ s', At str s' ts ∧ endblock str k cmd s = parseredirs str k cmd s' := by
  obtain ⟨s1, hp, h1⟩ := peek_eq hnul h [')'] (by decide)
  obtain ⟨t, s2, hg, h2, -, -⟩ := gettoken_cons hnul h1
  have hst : starts [')'] (Token.rparen :: ts) = true := rfl
  rw [hst] at hp
  refine ⟨s2, h2, ?_⟩
  rw [endblock, hp]
  dsimp only
  rw [hg]

theorem endblock_missing (hnul : '\x00' ∉ str) (h : At str s ts) (hts : starts [')'] ts = false)
    (k : Nat) (cmd : Cmd Span) :
    endblock str k cmd s = .error (.panic "syntax - missing )") := by
  obtain ⟨s1, hp, -⟩ := peek_eq hnul h [')'] (by decide)
  rw [endblock, hp, hts]

theorem parsepipe_last (hnul : '\x00' ∉ str) {d : Cmd (List Char)}
    (h : Returns str (parseexec str k s) d ts) (hts : starts ['|'] ts = false) :
    Returns str (parsepipe str (k + 1) s) d ts := by
  obtain ⟨c, s1, he, h1, hb⟩ := h
  obtain ⟨s2, hp, h2⟩ := peek_eq hnul h1 ['|'] (by decide)
  refine ⟨c, s2, ?_, h2, hb⟩
  rw [hts] at hp
  rw [parsepipe, he]
  simp only [bind, Except.bind, hp]

theorem parsepipe_more (hnul : '\x00' ∉ str) {d : Cmd (List Char)}
    (h : Returns str (parseexec str k s) d (.pipe :: ts)) :
    ∃ c s', At str s' ts ∧ Builds str c d ∧ parsepipe str (k + 1) s =
      (parsepipe str k s').bind fun r => .ok (.pipe c r.1, r.2) := by
  obtain ⟨c, s1, he, h1, hb⟩ := h
  obtain ⟨s2, hp, h2⟩ := peek_eq hnul h1 ['|'] (by decide)
  obtain ⟨t, s3, hg, h3, -, -⟩ := gettoken_cons hnul h2
  have hst : starts ['|'] (Token.pipe :: ts) = true := rfl
  rw [hst] at hp
  refine ⟨c, s3, h3, hb, ?_⟩
  rw [parsepipe, he]
  simp only [bind, Except.bind, hp, hg]

theorem parseline_last (hnul : '\x00' ∉ str) {d : Cmd (List Char)} {n : Nat}
    (h : Returns str (parsepipe str k s) d (List.replicate n .amp ++ ts)) (hn : n < k)
    (hamp : starts ['&'] ts = false) (hts : starts [';'] ts = false) :
    Returns str (parseline str (k + 1) s) (Cmd.back^[n] d) ts := by
  obtain ⟨c, s1, he, h1, hb⟩ := h
  obtain ⟨c', s2, he', h2, hb'⟩ := parsebacks_returns hnul h1 hamp hn hb
  obtain ⟨s3, hp, h3⟩ := peek_eq hnul h2 [';'] (by decide)
  refine ⟨c', s3, ?_, h3, hb'⟩
  rw [hts] at hp
  rw [parseline, he]
  simp only [bind, Except.bind, he', hp]

theorem parseline_more (hnul : '\x00' ∉ str) {d : Cmd (List Char)} {n : Nat}
    (h : Returns str (parsepipe str k s) d (List.replicate n .amp ++ .semi :: ts))
    (hn : n < k) :
    ∃ c s', At str s' ts ∧ Builds str c (Cmd.back^[n] d) ∧ parseline str (k + 1) s =
      (parseline str k s').bind fun r => .ok (.list c r.1, r.2) := by
  obtain ⟨c, s1, he, h1, hb⟩ := h
  obtain ⟨c', s2, he', h2, hb'⟩ := parsebacks_returns hnul h1 rfl hn hb
  obtain ⟨s3, hp, h3⟩ := peek_eq hnul h2 [';'] (by decide)
  obtain ⟨t, s4, hg, h4, -, -⟩ := gettoken_cons hnul h3
  have hst : starts [';'] (Token.semi :: ts) = true := rfl
  rw [hst] at hp
  refine ⟨c', s4, h4, hb', ?_⟩
  rw [parseline, he]
  simp only [bind, Except.bind, he', hp, hg]

theorem redirs_not_starts (rs : List (Redir W)) {ts : List (Token W)}
    (hts : starts ['(', '<', '>'] ts = false) :
    starts ['('] (rs.flatMap Redir.tokens ++ ts) = false := by
  cases rs with
  | nil => exact starts_false_mono hts (by decide)
  | cons r rs => exact starts_disjoint (redir_starts r.dir _) (by decide)

theorem parse_returns (hnul : '\x00' ∉ str) {ph : Phrase} {us : List (Token (List Char))}
    {d : Cmd (List Char)} (hd : Derives ph us d) (h : At str s (us ++ rest))
    (hrest : Ends ph.follow rest) (hf : 4 * (us ++ rest).length + ph.depth ≤ k) :
    Returns str (parse str ph k s) d rest := by
  induction hd generalizing s k rest with
  | @line ts c n _ ih =>
    rw [List.append_assoc] at h hf
    obtain ⟨k, rfl⟩ := Nat.exists_eq_add_of_le' (Nat.le_trans (Nat.le_add_left 4 _) hf)
    have hfollow : Ends Phrase.pipe.follow (List.replicate n .amp ++ rest) := by
      cases n with
      | zero => exact hrest.mono (by decide)
      | succ n => exact .inr rfl
    have hpipe := ih h hfollow (k := k + 3) (by simp only [Phrase.depth] at hf ⊢; omega)
    simp only [List.length_append, List.length_replicate, Phrase.depth] at hf
    exact parseline_last hnul hpipe (by omega) (hrest.not_starts (by decide))
      (hrest.not_starts (by decide))
  | @list ts us c d n _ _ ih ih' =>
    rw [List.append_assoc, List.append_assoc, List.cons_append] at h hf
    obtain ⟨k, rfl⟩ := Nat.exists_eq_add_of_le' (Nat.le_trans (Nat.le_add_left 4 _) hf)
    have hfollow : Ends Phrase.pipe.follow (List.replicate n .amp ++ .semi :: (us ++ rest)) := by
      cases n with
      | zero => exact .inr rfl
      | succ n => exact .inr rfl
    have hpipe := ih h hfollow (k := k + 3) (by simp only [Phrase.depth] at hf ⊢; omega)
    simp only [List.length_append, List.length_replicate, List.length_cons, Phrase.depth] at hf
    obtain ⟨c', s', h', hb, heq⟩ := parseline_more hnul hpipe (by omega)
    obtain ⟨c'', s'', he, h'', hb'⟩ := ih' h' hrest (k := k + 3)
      (by simp only [List.length_append, Phrase.depth]; omega)
    refine ⟨_, s'', ?_, h'', hb.list hb'⟩
    rw [parse] at he ⊢
    rw [heq, he]
    rfl
  | @exec ts c _ ih =>
    obtain ⟨k, rfl⟩ := Nat.exists_eq_add_of_le' (Nat.le_trans (Nat.le_add_left 3 _) hf)
    have hexec := ih h (hrest.mono (by decide)) (k := k + 2)
      (by simp only [Phrase.depth] at hf ⊢; omega)
    exact parsepipe_last hnul hexec (hrest.not_starts (by decide))
  | @pipe ts us c d _ _ ih ih' =>
    rw [List.append_assoc, List.cons_append] at h hf
    obtain ⟨k, rfl⟩ := Nat.exists_eq_add_of_le' (Nat.le_trans (Nat.le_add_left 3 _) hf)
    have hexec := ih h (.inr rfl) (k := k + 2) (by simp only [Phrase.depth] at hf ⊢; omega)
    obtain ⟨c', s', h', hb, heq⟩ := parsepipe_more hnul hexec
    simp only [List.length_append, List.length_cons, Phrase.depth] at hf
    obtain ⟨c'', s'', he, h'', hb'⟩ := ih' h' hrest (k := k + 2)
      (by simp only [List.length_append, Phrase.depth]; omega)
    refine ⟨_, s'', ?_, h'', hb.pipe hb'⟩
    rw [parse] at he ⊢
    rw [heq, he]
    rfl
  | @block ts c rs _ ih =>
    rw [List.append_assoc, List.cons_append, List.cons_append] at h hf
    obtain ⟨k, rfl⟩ := Nat.exists_eq_add_of_le' (Nat.le_trans (Nat.le_add_left 2 _) hf)
    obtain ⟨s1, h1, heq⟩ := parseexec_block hnul h k
    simp only [List.length_append, List.length_cons, Phrase.depth] at hf
    obtain ⟨c', s2, he, h2, hb⟩ := ih h1 (.inr rfl) (k := k)
      (by simp only [List.length_append, List.length_cons, Phrase.depth]; omega)
    obtain ⟨s3, h3, heq'⟩ := endblock_rparen hnul h2 k c'
    have hlen := length_flatMap_tokens rs
    have hret := parseredirs_returns hnul h3 (hrest.not_starts (by decide)) (k := k)
      (by omega) hb
    change parseline str k s1 = _ at he
    change Returns str (parseexec str (k + 2) s) _ _
    rw [heq, he]
    change Returns str (endblock str k c' s2) _ _
    rw [heq']
    exact hret
  | @words rs args hargs =>
    obtain ⟨k, rfl⟩ := Nat.exists_eq_add_of_le' (Nat.le_trans (Nat.le_add_left 2 _) hf)
    change At str s (rs.flatMap Redir.tokens ++ args.flatMap argTokens ++ rest) at h
    change 4 * (rs.flatMap Redir.tokens ++ args.flatMap argTokens ++ rest).length + 2 ≤ _ at hf
    rw [List.append_assoc] at h hf
    have hargs' : starts ['(', '<', '>'] (args.flatMap argTokens ++ rest) = false :=
      args_not_starts args hrest
    obtain ⟨s1, h1, heq⟩ := parseexec_words hnul h (redirs_not_starts rs hargs') (k + 1)
    have hlen := length_flatMap_tokens rs
    rw [List.length_append] at hf
    obtain ⟨c, s2, he, h2, hb⟩ := parseredirs_returns hnul h1
      (starts_false_mono hargs' (by decide)) (k := k + 1) (by omega) (builds_execcmd str)
    have hargc : 0 + args.length < maxargs := by
      rw [Nat.zero_add]
      exact Nat.lt_of_le_pred (by decide) hargs
    have hret := parseargs_returns hnul h2 hrest hargc (k := k + 1) (by omega) hb
    change Returns str (parseexec str (k + 1 + 1) s) _ _
    rw [heq, he]
    exact hret

theorem starts_eq {t : Token W} {c : Char} {ts : List (Token W)}
    (ht : ∀ t' : Token W, t'.sign = some c → t' = t) (h : starts [c] ts = true) :
    ∃ us, ts = t :: us := by
  cases ts with
  | nil => cases h
  | cons t' ts =>
    refine ⟨ts, congrArg (· :: ts) (ht t' ?_)⟩
    unfold starts at h
    rw [List.head?_cons, Option.bind_some] at h
    cases hs : t'.sign with
    | none =>
      rw [hs] at h
      cases h
    | some d =>
      rw [hs] at h
      simpa using h

theorem Settles.bind {r : Except Stop (Cmd Span × Nat)}
    {f : Cmd Span × Nat → Except Stop (Cmd Span × Nat)}
    {P Q : List (Token (List Char)) → Cmd (List Char) → Prop} (h : Settles str r ts P)
    (next : ∀ us rest d c s, ts = us ++ rest → P us d → At str s rest → Builds str c d →
      Settles str (f (c, s)) ts Q) : Settles str (r.bind f) ts Q := by
  rcases h with ⟨msg, rfl⟩ | ⟨us, rest, d, hts, hd, c, s, rfl, hs, hb⟩
  · exact .inl ⟨msg, rfl⟩
  · exact next us rest d c s hts hd hs hb

theorem Settles.after {r : Except Stop (Cmd Span × Nat)} {u : List (Token (List Char))}
    {P Q : List (Token (List Char)) → Cmd (List Char) → Prop} (h : Settles str r ts P)
    (next : ∀ vs d, P vs d → Q (u ++ vs) d) : Settles str r (u ++ ts) Q := by
  rcases h with hpanic | ⟨vs, rest, d, rfl, hd, hret⟩
  · exact .inl hpanic
  · exact .inr ⟨u ++ vs, rest, d, (List.append_assoc u vs rest).symm, next vs d hd, hret⟩

theorem parseexec_settles (hnul : '\x00' ∉ str)
    (ihline : ∀ {k' s ts}, k' < k → At str s ts → 4 * ts.length + 4 ≤ k' →
      Settles str (parseline str k' s) ts (Derives .line))
    (h : At str s ts) (hf : 4 * ts.length + 2 ≤ k) :
    Settles str (parseexec str k s) ts (Derives .exec) := by
  obtain ⟨k, rfl⟩ := Nat.exists_eq_add_of_le' (Nat.le_trans (Nat.le_add_left 2 _) hf)
  cases hst : starts ['('] ts with
  | true =>
    obtain ⟨ts, rfl⟩ := starts_eq (t := .lparen) (by rintro ⟨⟩ <;> simp [Token.sign]) hst
    obtain ⟨s1, h1, heq⟩ := parseexec_block hnul h k
    rw [List.length_cons] at hf
    rw [heq]
    refine Settles.after (u := [.lparen]) (Settles.bind (ihline (by omega) h1 (by omega))
      (Q := fun us d => Derives .exec (.lparen :: us) d) ?_) fun us d hd => hd
    rintro us rest d c s2 rfl hd h2 hb
    cases hst : starts [')'] rest with
    | false => exact .inl ⟨_, endblock_missing hnul h2 hst k c⟩
    | true =>
      obtain ⟨rest, rfl⟩ := starts_eq (t := .rparen) (by rintro ⟨⟩ <;> simp [Token.sign]) hst
      obtain ⟨s3, h3, heq'⟩ := endblock_rparen hnul h2 k c
      simp only [List.length_append, List.length_cons] at hf
      dsimp only
      rw [heq', List.append_cons]
      refine (parseredirs_settles hnul h3 (by omega) hb).after ?_
      rintro vs e ⟨rs, rfl, rfl⟩
      simpa using Derives.block rs hd
  | false =>
    obtain ⟨s1, h1, heq⟩ := parseexec_words hnul h hst (k + 1)
    change Settles str (parseexec str (k + 1 + 1) s) _ _
    rw [heq]
    refine (parseredirs_settles hnul h1 (by omega) (builds_execcmd str)).bind ?_
    rintro us rest d c s2 rfl ⟨rs, rfl, rfl⟩ h2 hb
    rw [List.length_append] at hf
    refine (parseargs_settles hnul h2 (by decide) (by omega) hb).after ?_
    rintro vs e ⟨args, rfl, hargs, rfl⟩
    rw [Nat.zero_add] at hargs
    exact .words rs args (Nat.le_pred_of_lt hargs)

theorem parsepipe_settles (hnul : '\x00' ∉ str)
    (ihline : ∀ {k' s ts}, k' < k → At str s ts → 4 * ts.length + 4 ≤ k' →
      Settles str (parseline str k' s) ts (Derives .line))
    (h : At str s ts) (hf : 4 * ts.length + 3 ≤ k) :
    Settles str (parsepipe str k s) ts (Derives .pipe) := by
  induction k generalizing s ts with
  | zero => omega
  | succ k ih =>
    rcases parseexec_settles hnul (fun hlt => ihline (Nat.lt_succ_of_lt hlt)) h
      (Nat.le_of_succ_le_succ hf) with ⟨msg, hp⟩ | ⟨us, rest, d, rfl, hd, hret⟩
    · refine .inl ⟨msg, ?_⟩
      rw [parsepipe, hp]
      rfl
    · cases hst : starts ['|'] rest with
      | false => exact .inr ⟨us, rest, d, rfl, .exec hd, parsepipe_last hnul hret hst⟩
      | true =>
        obtain ⟨rest, rfl⟩ := starts_eq (t := .pipe) (by rintro ⟨⟩ <;> simp [Token.sign]) hst
        obtain ⟨c, s', h', hb, heq⟩ := parsepipe_more hnul hret
        simp only [List.length_append, List.length_cons] at hf
        rw [heq, List.append_cons]
        refine Settles.after ((ih (fun hlt => ihline (Nat.lt_succ_of_lt hlt)) h'
          (by omega)).bind (Q := fun vs e => Derives .pipe (us ++ .pipe :: vs) e) ?_) ?_
        · rintro vs rest e c' s'' rfl he h'' hb'
          exact .inr ⟨vs, rest, _, rfl, .pipe hd he, _, s'', rfl, h'', hb.pipe hb'⟩
        · intro vs e he
          rwa [← List.append_cons]

theorem parseline_settles (hnul : '\x00' ∉ str) (h : At str s ts)
    (hf : 4 * ts.length + 4 ≤ k) :
    Settles str (parseline str k s) ts (Derives .line) := by
  induction k using Nat.strong_induction_on generalizing s ts with
  | _ k ih =>
    obtain ⟨k, rfl⟩ := Nat.exists_eq_add_of_le' (Nat.le_trans (Nat.le_add_left 1 3)
      (Nat.le_trans (Nat.le_add_left 4 _) hf))
    rcases parsepipe_settles hnul (fun hlt h hf => ih _ (Nat.lt_succ_of_lt hlt) h hf) h
      (Nat.le_of_succ_le_succ hf) with ⟨msg, hp⟩ | ⟨us, rest, d, rfl, hd, hret⟩
    · refine .inl ⟨msg, ?_⟩
      rw [parseline, hp]
      rfl
    · obtain ⟨n, rest, rfl, hamp⟩ := split_amps rest
      simp only [List.length_append, List.length_replicate] at hf
      rw [← List.append_assoc]
      cases hst : starts [';'] rest with
      | false =>
        exact .inr ⟨_, rest, _, rfl, .line n hd, parseline_last hnul hret (by omega) hamp hst⟩
      | true =>
        obtain ⟨rest, rfl⟩ := starts_eq (t := .semi) (by rintro ⟨⟩ <;> simp [Token.sign]) hst
        obtain ⟨c, s', h', hb, heq⟩ := parseline_more hnul hret (by omega)
        rw [List.length_cons] at hf
        rw [heq, List.append_cons]
        refine Settles.after ((ih k (Nat.lt_succ_self k) h' (by omega)).bind
          (Q := fun vs e => Derives .line (us ++ List.replicate n .amp ++ .semi :: vs) e) ?_) ?_
        · rintro vs rest e c' s'' rfl he h'' hb'
          exact .inr ⟨vs, rest, _, rfl, .list n hd he, _, s'', rfl, h'', hb.list hb'⟩
        · intro vs e he
          rwa [← List.append_cons]

end Phrases

end Xv6.Sh
