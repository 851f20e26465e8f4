import Xv6.Sh.Lexed

namespace Xv6.Sh

variable {W V : Type}

def Cmd.words : Cmd W → List W
  | .exec argv => argv
  | .redir cmd file _ _ => file :: cmd.words
  | .pipe left right | .list left right => left.words ++ right.words
  | .back cmd => cmd.words

theorem Cmd.map_pushArg (f : W → V) (c : Cmd W) (w : W) :
    (c.pushArg w).map f = (c.map f).pushArg (f w) := by
  induction c with
  | exec argv => simp [pushArg, map]
  | redir c file mode fd ih => simp [pushArg, map, ih]
  | _ => rfl

theorem Cmd.words_pushArg {c : Cmd W} {w v : W} (h : v ∈ (c.pushArg w).words) :
    v = w ∨ v ∈ c.words := by
  induction c with
  | exec argv => simpa [pushArg, words, or_comm] using h
  | redir c file mode fd ih =>
    rcases List.mem_cons.mp h with rfl | h
    · exact .inr List.mem_cons_self
    · rcases ih h with h | h
      · exact .inl h
      · exact .inr (List.mem_cons_of_mem _ h)
  | _ => exact .inr h

theorem Redir.wrap_pushArg (c : Cmd W) (r : Redir W) (w : W) :
    (wrap c r).pushArg w = wrap (c.pushArg w) r := by
  obtain ⟨dir, file⟩ := r
  cases dir <;> rfl

theorem Redir.foldl_pushArg (rs : List (Redir W)) (c : Cmd W) (w : W) :
    (rs.foldl wrap c).pushArg w = rs.foldl wrap (c.pushArg w) := by
  induction rs generalizing c with
  | nil => rfl
  | cons r rs ih => rw [List.foldl_cons, List.foldl_cons, ih, wrap_pushArg]

theorem Redir.map_wrap (f : W → V) (c : Cmd W) (dir : Direction) (file : W) :
    (wrap c ⟨dir, file⟩).map f = wrap (c.map f) ⟨dir, f file⟩ := by
  cases dir <;> rfl

theorem Redir.words_wrap (c : Cmd W) (r : Redir W) : (wrap c r).words = r.file :: c.words := by
  obtain ⟨dir, file⟩ := r
  cases dir <;> rfl

theorem Cmd.words_back (n : Nat) (c : Cmd W) : (Cmd.back^[n] c).words = c.words := by
  induction n generalizing c with
  | zero => rfl
  | succ n ih => exact ih (.back c)

def Ends (toks : List Char) (ts : List (Token W)) : Prop := ts = [] ∨ starts toks ts = true

theorem starts_nil (toks : List Char) : starts toks ([] : List (Token W)) = false := rfl

theorem starts_word (toks : List Char) (w : W) (ts : List (Token W)) :
    starts toks (.word w :: ts) = false := rfl

theorem starts_disjoint {toks toks' : List Char} {ts : List (Token W)}
    (h : starts toks ts = true) (hd : (toks.all fun c => !toks'.contains c) = true) :
    starts toks' ts = false := by
  unfold starts at h ⊢
  cases hs : ts.head?.bind Token.sign with
  | none => rfl
  | some c =>
    rw [hs] at h
    have hc := List.all_eq_true.mp hd c (by simpa using h)
    simpa using hc

theorem Ends.not_starts {toks toks' : List Char} {ts : List (Token W)} (h : Ends toks ts)
    (hd : (toks.all fun c => !toks'.contains c) = true) : starts toks' ts = false := by
  rcases h with rfl | h
  · rfl
  · exact starts_disjoint h hd

theorem starts_mono {toks toks' : List Char} {ts : List (Token W)} (h : starts toks ts = true)
    (hd : toks ⊆ toks') : starts toks' ts = true := by
  unfold starts at h ⊢
  cases hs : ts.head?.bind Token.sign with
  | none =>
    rw [hs] at h
    cases h
  | some c =>
    rw [hs] at h
    simpa using hd (by simpa using h)

theorem starts_false_mono {toks toks' : List Char} {ts : List (Token W)}
    (h : starts toks ts = false) (hd : toks' ⊆ toks) : starts toks' ts = false := by
  cases ht : starts toks' ts with
  | false => rfl
  | true =>
    rw [starts_mono ht hd] at h
    cases h

theorem Ends.mono {toks toks' : List Char} {ts : List (Token W)} (h : Ends toks ts)
    (hd : toks ⊆ toks') : Ends toks' ts :=
  h.imp_right fun h => starts_mono h hd

theorem starts_redir {ts : List (Token W)} (h : starts ['<', '>'] ts = true) :
    ∃ (dir : Direction) (us : List (Token W)), ts = dir.token :: us := by
  cases ts with
  | nil => cases h
  | cons t ts =>
    cases t with
    | lt => exact ⟨.input, ts, rfl⟩
    | gt => exact ⟨.output, ts, rfl⟩
    | gtgt => exact ⟨.append, ts, rfl⟩
    | _ => cases h

theorem redir_starts (dir : Direction) (ts : List (Token W)) :
    starts ['<', '>'] (dir.token :: ts) = true := by
  cases dir <;> rfl

section Loops

variable {str : List Char} {s k : Nat} {ts rest : List (Token (List Char))} {cmd : Cmd Span}

theorem parseredirs_stop (hnul : '\x00' ∉ str) (h : At str s ts)
    (hts : starts ['<', '>'] ts = false) (k : Nat) (cmd : Cmd Span) :
    ∃ s', parseredirs str (k + 1) cmd s = .ok (cmd, s') ∧ At str s' ts := by
  obtain ⟨s', hp, h'⟩ := peek_eq hnul h ['<', '>'] (by decide)
  rw [hts] at hp
  refine ⟨s', ?_, h'⟩
  rw [parseredirs, hp]

theorem parseredirs_step (hnul : '\x00' ∉ str) {r : Redir (List Char)}
    (h : At str s (r.tokens ++ ts)) (k : Nat) (cmd : Cmd Span) :
    ∃ w s', parseredirs str (k + 1) cmd s = parseredirs str k (Redir.wrap cmd ⟨r.dir, w⟩) s' ∧
      At str s' ts ∧ w.text str = r.file ∧ w.Word str := by
  obtain ⟨s1, hp, h1⟩ := peek_eq hnul h ['<', '>'] (by decide)
  have hst : starts ['<', '>'] (r.tokens ++ ts) = true := redir_starts r.dir _
  rw [hst] at hp
  obtain ⟨t, s2, hg, h2, ht, -⟩ := gettoken_cons hnul h1
  obtain ⟨w, s3, hg', h3, hw, hword⟩ := gettoken_word hnul h2
  refine ⟨w, s3, ?_, h3, hw, hword⟩
  rw [parseredirs, hp]
  dsimp only
  rw [hg]
  dsimp only
  rw [hg']
  obtain ⟨dir, file⟩ := r
  cases dir with
  | input | output | append =>
    cases t with
    | word => cases ht
    | _ => first | rfl | cases ht

theorem parseredirs_missing (hnul : '\x00' ∉ str) {dir : Direction}
    (h : At str s (dir.token :: ts)) (hts : ∀ v us, ts ≠ .word v :: us) (k : Nat)
    (cmd : Cmd Span) :
    parseredirs str (k + 1) cmd s = .error (.panic "missing file for redirection") := by
  obtain ⟨s1, hp, h1⟩ := peek_eq hnul h ['<', '>'] (by decide)
  rw [redir_starts dir ts] at hp
  obtain ⟨t, s2, hg, h2, -, -⟩ := gettoken_cons hnul h1
  have hnot := gettoken_not_word hnul h2 hts
  rw [parseredirs, hp]
  dsimp only
  rw [hg]
  dsimp only
  split
  · rename_i w s3 hg'
    exact absurd (congrArg Prod.fst hg') (hnot w)
  · rfl

theorem split_redirs (ts : List (Token W)) :
    ∃ (rs : List (Redir W)) (rest : List (Token W)), ts = rs.flatMap Redir.tokens ++ rest ∧
      (starts ['<', '>'] rest = false ∨
        ∃ (dir : Direction) (us : List (Token W)), rest = dir.token :: us ∧
          ∀ v vs, us ≠ .word v :: vs) := by
  induction hn : ts.length using Nat.strong_induction_on generalizing ts with
  | _ n ih =>
    cases hst : starts ['<', '>'] ts with
    | false => exact ⟨[], ts, rfl, .inl hst⟩
    | true =>
      obtain ⟨dir, us, rfl⟩ := starts_redir hst
      by_cases hus : ∃ v vs, us = .word v :: vs
      · obtain ⟨v, vs, rfl⟩ := hus
        obtain ⟨rs, rest, hvs, hrest⟩ := ih vs.length (by simp at hn; omega) vs rfl
        exact ⟨⟨dir, v⟩ :: rs, rest, by rw [hvs]; rfl, hrest⟩
      · exact ⟨[], _, rfl, .inr ⟨dir, us, rfl, fun v vs he => hus ⟨v, vs, he⟩⟩⟩

structure Builds (str : List Char) (c : Cmd Span) (d : Cmd (List Char)) : Prop where
  tree : c.map (Span.text str) = d
  words : ∀ w ∈ c.words, w.Word str

theorem Builds.wrap {d : Cmd (List Char)} (h : Builds str cmd d) {w : Span} (hw : w.Word str)
    (dir : Direction) :
    Builds str (Redir.wrap cmd ⟨dir, w⟩) (Redir.wrap d ⟨dir, w.text str⟩) := by
  refine ⟨by rw [Redir.map_wrap, h.tree], fun v hv => ?_⟩
  rw [Redir.words_wrap] at hv
  rcases List.mem_cons.mp hv with rfl | hv
  · exact hw
  · exact h.words v hv

def Returns (str : List Char) (r : Except Stop (Cmd Span × Nat)) (d : Cmd (List Char))
    (rest : List (Token (List Char))) : Prop :=
  ∃ c s', r = .ok (c, s') ∧ At str s' rest ∧ Builds str c d

theorem parseredirs_returns (hnul : '\x00' ∉ str) {rs : List (Redir (List Char))}
    {d : Cmd (List Char)} (h : At str s (rs.flatMap Redir.tokens ++ rest))
    (hrest : starts ['<', '>'] rest = false) (hf : rs.length < k) (hb : Builds str cmd d) :
    Returns str (parseredirs str k cmd s) (rs.foldl Redir.wrap d) rest := by
  induction rs generalizing k s cmd d with
  | nil =>
    obtain ⟨k, rfl⟩ := Nat.exists_eq_succ_of_ne_zero (Nat.ne_of_gt hf)
    obtain ⟨s', hp, h'⟩ := parseredirs_stop hnul h hrest k cmd
    exact ⟨cmd, s', hp, h', hb⟩
  | cons r rs ih =>
    obtain ⟨k, rfl⟩ := Nat.exists_eq_succ_of_ne_zero (Nat.ne_of_gt (Nat.zero_lt_of_lt hf))
    rw [List.flatMap_cons, List.append_assoc] at h
    obtain ⟨w, s', hp, h', hw, hword⟩ := parseredirs_step hnul h k cmd
    rw [Nat.succ_eq_add_one, hp, List.foldl_cons]
    refine ih h' (Nat.lt_of_succ_lt_succ hf) ?_
    rw [show r = ⟨r.dir, w.text str⟩ by rw [hw]]
    exact hb.wrap hword r.dir

theorem parseredirs_panics (hnul : '\x00' ∉ str) {rs : List (Redir (List Char))}
    {dir : Direction} (h : At str s (rs.flatMap Redir.tokens ++ dir.token :: ts))
    (hts : ∀ v us, ts ≠ .word v :: us) (hf : rs.length < k) :
    ∃ msg, parseredirs str k cmd s = .error (.panic msg) := by
  induction rs generalizing k s cmd with
  | nil =>
    obtain ⟨k, rfl⟩ := Nat.exists_eq_succ_of_ne_zero (Nat.ne_of_gt hf)
    exact ⟨_, parseredirs_missing hnul h hts k cmd⟩
  | cons r rs ih =>
    obtain ⟨k, rfl⟩ := Nat.exists_eq_succ_of_ne_zero (Nat.ne_of_gt (Nat.zero_lt_of_lt hf))
    rw [List.flatMap_cons, List.append_assoc] at h
    obtain ⟨w, s', hp, h', -, -⟩ := parseredirs_step hnul h k cmd
    rw [Nat.succ_eq_add_one, hp]
    exact ih h' (Nat.lt_of_succ_lt_succ hf)

theorem length_flatMap_tokens (rs : List (Redir W)) :
    rs.length ≤ (rs.flatMap Redir.tokens).length := by
  induction rs with
  | nil => exact Nat.le_refl 0
  | cons r rs ih =>
    rw [List.flatMap_cons, List.length_append, List.length_cons, Redir.tokens]
    simp only [List.length_cons, List.length_nil]
    omega

def Settles (str : List Char) (r : Except Stop (Cmd Span × Nat))
    (ts : List (Token (List Char)))
    (P : List (Token (List Char)) → Cmd (List Char) → Prop) : Prop :=
  (∃ msg, r = .error (.panic msg)) ∨
    ∃ us rest d, ts = us ++ rest ∧ P us d ∧ Returns str r d rest

def RedirsRead (d : Cmd W) (us : List (Token W)) (e : Cmd W) : Prop :=
  ∃ rs : List (Redir W), us = rs.flatMap Redir.tokens ∧ e = rs.foldl Redir.wrap d

theorem parseredirs_settles (hnul : '\x00' ∉ str) {d : Cmd (List Char)} (h : At str s ts)
    (hf : ts.length < k) (hb : Builds str cmd d) :
    Settles str (parseredirs str k cmd s) ts (RedirsRead d) := by
  obtain ⟨rs, rest, rfl, hrest | ⟨dir, us, rfl, hus⟩⟩ := split_redirs ts
  · have hlen := length_flatMap_tokens rs
    rw [List.length_append] at hf
    exact .inr ⟨_, rest, _, rfl, ⟨rs, rfl, rfl⟩, parseredirs_returns hnul h hrest (by omega) hb⟩
  · have hlen := length_flatMap_tokens rs
    rw [List.length_append] at hf
    exact .inl (parseredirs_panics hnul h hus (by omega))

theorem parsebacks_returns (hnul : '\x00' ∉ str) {n : Nat} {d : Cmd (List Char)}
    (h : At str s (List.replicate n .amp ++ rest)) (hrest : starts ['&'] rest = false)
    (hf : n < k) (hb : Builds str cmd d) :
    Returns str (parsebacks str k cmd s) (Cmd.back^[n] d) rest := by
  induction n generalizing k s cmd d with
  | zero =>
    obtain ⟨k, rfl⟩ := Nat.exists_eq_succ_of_ne_zero (Nat.ne_of_gt hf)
    obtain ⟨s', hp, h'⟩ := peek_eq hnul h ['&'] (by decide)
    refine ⟨cmd, s', ?_, h', hb⟩
    rw [List.replicate_zero, List.nil_append, hrest] at hp
    rw [Nat.succ_eq_add_one, parsebacks, hp]
  | succ n ih =>
    obtain ⟨k, rfl⟩ := Nat.exists_eq_succ_of_ne_zero (Nat.ne_of_gt (Nat.zero_lt_of_lt hf))
    obtain ⟨s1, hp, h1⟩ := peek_eq hnul h ['&'] (by decide)
    obtain ⟨t, s2, hg, h2, -, -⟩ := gettoken_cons hnul h1
    have hst : starts ['&'] (List.replicate (n + 1) Token.amp ++ rest) = true := rfl
    rw [hst] at hp
    rw [Nat.succ_eq_add_one, parsebacks, hp]
    dsimp only
    rw [hg]
    refine ih h2 (Nat.lt_of_succ_lt_succ hf) ⟨?_, hb.words⟩
    rw [← hb.tree]
    rfl

theorem split_amps (ts : List (Token W)) :
    ∃ n rest, ts = List.replicate n .amp ++ rest ∧ starts ['&'] rest = false := by
  induction ts with
  | nil => exact ⟨0, [], rfl, rfl⟩
  | cons t ts ih =>
    cases t with
    | amp =>
      obtain ⟨n, rest, rfl, hrest⟩ := ih
      exact ⟨n + 1, rest, rfl, hrest⟩
    | _ => exact ⟨0, _, rfl, rfl⟩

abbrev argStops : List Char := ['|', ')', '&', ';']

def argTokens (arg : W × List (Redir W)) : List (Token W) :=
  .word arg.1 :: arg.2.flatMap Redir.tokens

theorem parseargs_end (hnul : '\x00' ∉ str) {m : Nat} (h : At str s ts)
    (hts : Ends argStops ts) (hm : m < maxargs) (k : Nat) (ret : Cmd Span) :
    ∃ s', parseargs str (k + 1) ret m s = .ok (ret, s') ∧ At str s' ts := by
  obtain ⟨s', hp, h'⟩ := peek_eq hnul h argStops (by decide)
  rcases hts with rfl | hst
  · obtain ⟨s2, hg, h2⟩ := gettoken_nil hnul h'
    refine ⟨s2, ?_, h2⟩
    rw [parseargs, hp, starts_nil]
    dsimp only
    rw [hg]
    exact if_pos hm
  · refine ⟨s', ?_, h'⟩
    rw [parseargs, hp, hst]
    exact if_pos hm

theorem parseargs_word (hnul : '\x00' ∉ str) {m : Nat} {v : List Char}
    (h : At str s (.word v :: ts)) (k : Nat) (ret : Cmd Span) :
    ∃ w s', At str s' ts ∧ w.text str = v ∧ w.Word str ∧
      (m + 1 < maxargs → parseargs str (k + 1) ret m s =
        (parseredirs str k (ret.pushArg w) s').bind fun r =>
          parseargs str k r.1 (m + 1) r.2) ∧
      (m + 1 = maxargs →
        parseargs str (k + 1) ret m s = .error (.panic "too many args")) := by
  obtain ⟨s1, hp, h1⟩ := peek_eq hnul h argStops (by decide)
  obtain ⟨w, s2, hg, h2, hw, hword⟩ := gettoken_word hnul h1
  refine ⟨w, s2, h2, hw, hword, fun hm => ?_, fun hm => ?_⟩
  · rw [parseargs, hp, starts_word]
    dsimp only
    rw [hg]
    dsimp only
    rw [if_pos (by omega), if_neg (by omega)]
    rfl
  · rw [parseargs, hp, starts_word]
    dsimp only
    rw [hg]
    dsimp only
    rw [if_pos (by omega), if_pos (by omega)]

theorem parseargs_syntax (hnul : '\x00' ∉ str) {t : Token (List Char)} {m : Nat}
    (h : At str s (t :: ts)) (hword : ∀ v, t ≠ .word v) (hst : starts argStops (t :: ts) = false)
    (k : Nat) (ret : Cmd Span) :
    parseargs str (k + 1) ret m s = .error (.panic "syntax") := by
  obtain ⟨s1, hp, h1⟩ := peek_eq hnul h argStops (by decide)
  obtain ⟨t', s2, hg, -, ht, -⟩ := gettoken_cons hnul h1
  rw [parseargs, hp, hst]
  dsimp only
  rw [hg]
  cases t' with
  | word w => exact absurd ht.symm (hword _)
  | _ => rfl

theorem Builds.pushArg {rs : List (Redir (List Char))} {argv : List (List Char)} {ret : Cmd Span}
    (h : Builds str ret (rs.foldl Redir.wrap (.exec argv))) {w : Span} (hw : w.Word str) :
    Builds str (ret.pushArg w) (rs.foldl Redir.wrap (.exec (argv ++ [w.text str]))) := by
  refine ⟨?_, fun v hv => ?_⟩
  · rw [Cmd.map_pushArg, h.tree, Redir.foldl_pushArg]
    rfl
  · rcases Cmd.words_pushArg hv with rfl | hv
    · exact hw
    · exact h.words v hv

theorem args_not_starts (args : List (W × List (Redir W))) {rest : List (Token W)}
    (hrest : Ends argStops rest) :
    starts ['(', '<', '>'] (args.flatMap argTokens ++ rest) = false := by
  cases args with
  | nil => exact hrest.not_starts (by decide)
  | cons arg args => rfl

theorem parseargs_returns (hnul : '\x00' ∉ str)
    {args : List (List Char × List (Redir (List Char)))} {rs : List (Redir (List Char))}
    {argv : List (List Char)} {ret : Cmd Span} {m : Nat}
    (h : At str s (args.flatMap argTokens ++ rest)) (hrest : Ends argStops rest)
    (hm : m + args.length < maxargs) (hf : (args.flatMap argTokens ++ rest).length < k)
    (hb : Builds str ret (rs.foldl Redir.wrap (.exec argv))) :
    Returns str (parseargs str k ret m s)
      ((rs ++ args.flatMap Prod.snd).foldl Redir.wrap (.exec (argv ++ args.map Prod.fst)))
      rest := by
  induction args generalizing k s ret m rs argv with
  | nil =>
    obtain ⟨k, rfl⟩ := Nat.exists_eq_succ_of_ne_zero (Nat.ne_of_gt (Nat.zero_lt_of_lt hf))
    obtain ⟨s', hp, h'⟩ := parseargs_end hnul h hrest (m := m) hm k ret
    refine ⟨ret, s', hp, h', ?_⟩
    simpa using hb
  | cons arg args ih =>
    obtain ⟨k, rfl⟩ := Nat.exists_eq_succ_of_ne_zero (Nat.ne_of_gt (Nat.zero_lt_of_lt hf))
    obtain ⟨v, qs⟩ := arg
    simp only [List.length_cons, List.flatMap_cons, argTokens, List.cons_append,
      List.append_assoc] at h hm hf
    obtain ⟨w, s1, h1, rfl, hword, hstep, -⟩ := parseargs_word hnul h k ret (m := m)
    have hlen := length_flatMap_tokens qs
    simp only [List.length_append] at hf
    have hclean : starts ['<', '>'] (args.flatMap argTokens ++ rest) = false :=
      starts_false_mono (args_not_starts args hrest) (by decide)
    obtain ⟨c, s2, hp, h2, hb2⟩ := parseredirs_returns hnul h1 hclean (k := k) (by omega)
      (hb.pushArg hword)
    rw [Nat.succ_eq_add_one, hstep (by omega), hp]
    rw [← List.foldl_append] at hb2
    have hret := ih h2 (m := m + 1) (by omega) (k := k) (by rw [List.length_append]; omega) hb2
    simpa [Except.bind] using hret

def ArgsRead (rs : List (Redir W)) (argv : List W) (m : Nat) (us : List (Token W))
    (e : Cmd W) : Prop :=
  ∃ args : List (W × List (Redir W)), us = args.flatMap argTokens ∧
    m + args.length < maxargs ∧
    e = (rs ++ args.flatMap Prod.snd).foldl Redir.wrap (.exec (argv ++ args.map Prod.fst))

theorem parseargs_settles (hnul : '\x00' ∉ str) {rs : List (Redir (List Char))}
    {argv : List (List Char)} {ret : Cmd Span} {m : Nat} (h : At str s ts)
    (hm : m < maxargs) (hf : ts.length < k)
    (hb : Builds str ret (rs.foldl Redir.wrap (.exec argv))) :
    Settles str (parseargs str k ret m s) ts (ArgsRead rs argv m) := by
  induction k generalizing s ts ret m rs argv with
  | zero => exact absurd hf (Nat.not_lt_zero _)
  | succ k ih =>
    have hend : Ends argStops ts →
        Settles str (parseargs str (k + 1) ret m s) ts (ArgsRead rs argv m) := by
      intro hts
      obtain ⟨s', hp, h'⟩ := parseargs_end hnul h hts hm k ret
      exact .inr ⟨[], ts, _, rfl, ⟨[], rfl, hm, by simp⟩, ret, s', hp, h', hb⟩
    cases ts with
    | nil => exact hend (.inl rfl)
    | cons t ts =>
      cases hst : starts argStops (t :: ts) with
      | true => exact hend (.inr hst)
      | false =>
        by_cases hword : ∃ v, t = .word v
        · obtain ⟨v, rfl⟩ := hword
          obtain ⟨w, s1, h1, rfl, hw, hstep, hmany⟩ := parseargs_word hnul h k ret (m := m)
          by_cases hmax : m + 1 = maxargs
          · exact .inl ⟨_, hmany hmax⟩
          · rw [List.length_cons] at hf
            rw [hstep (by omega)]
            rcases parseredirs_settles hnul h1 (k := k) (by omega) (hb.pushArg hw) with
              ⟨msg, hp⟩ | ⟨us, rest, d, rfl, ⟨qs, rfl, rfl⟩, c, s2, hp, h2, hb2⟩
            · rw [hp]
              exact .inl ⟨msg, rfl⟩
            · rw [hp]
              rw [← List.foldl_append] at hb2
              rw [List.length_append] at hf
              rcases ih h2 (m := m + 1) (by omega) (by omega) hb2 with
                ⟨msg, hp'⟩ | ⟨us, rest, d, rfl, ⟨args, rfl, hlen, rfl⟩, hret⟩
              · exact .inl ⟨msg, hp'⟩
              · refine .inr ⟨_, rest, _, ?_, ⟨(w.text str, qs) :: args, rfl, ?_, rfl⟩, ?_⟩
                · simp [argTokens]
                · rw [List.length_cons]
                  omega
                · simpa [Except.bind] using hret
        · exact .inl ⟨_, parseargs_syntax hnul h (fun v hv => hword ⟨v, hv⟩) hst k ret⟩

end Loops

end Xv6.Sh
