import Xv6.Sh.Accepts

namespace Xv6.Sh

variable {W : Type}

def Token.word? : Token W → Option W
  | .word w => some w
  | _ => none

def wordTokens (ts : List (Token W)) : List W := ts.filterMap Token.word?

theorem wordTokens_append (ts us : List (Token W)) :
    wordTokens (ts ++ us) = wordTokens ts ++ wordTokens us := List.filterMap_append ..

theorem wordTokens_amps (n : Nat) : wordTokens (List.replicate n (.amp : Token W)) = [] := by
  induction n with
  | zero => rfl
  | succ n ih => exact ih

theorem wordTokens_redirs (rs : List (Redir W)) :
    wordTokens (rs.flatMap Redir.tokens) = rs.map Redir.file := by
  induction rs with
  | nil => rfl
  | cons r rs ih =>
    obtain ⟨dir, file⟩ := r
    rw [List.flatMap_cons, wordTokens_append, ih]
    cases dir <;> rfl

theorem words_foldl_wrap (rs : List (Redir W)) (c : Cmd W) :
    (rs.foldl Redir.wrap c).words.Perm (rs.map Redir.file ++ c.words) := by
  induction rs generalizing c with
  | nil => exact .refl _
  | cons r rs ih =>
    have hwrap := ih (Redir.wrap c r)
    rw [Redir.words_wrap] at hwrap
    exact hwrap.trans List.perm_middle

theorem wordTokens_args (args : List (W × List (Redir W))) :
    (wordTokens (args.flatMap argTokens)).Perm
      ((args.flatMap Prod.snd).map Redir.file ++ args.map Prod.fst) := by
  induction args with
  | nil => exact .refl _
  | cons arg args ih =>
    have hhead : wordTokens (argTokens arg) = arg.1 :: arg.2.map Redir.file :=
      congrArg (arg.1 :: ·) (wordTokens_redirs arg.2)
    rw [List.flatMap_cons, wordTokens_append, hhead, List.flatMap_cons, List.map_append,
      List.map_cons]
    refine List.Perm.trans ?_ List.perm_middle.symm
    rw [List.cons_append, List.append_assoc]
    exact (ih.append_left _).cons _

theorem Derives.wordTokens {ph : Phrase} {ts : List (Token W)} {d : Cmd W}
    (h : Derives ph ts d) : (wordTokens ts).Perm d.words := by
  induction h with
  | line n _ ih =>
    rw [wordTokens_append, wordTokens_amps, List.append_nil, Cmd.words_back]
    exact ih
  | list n _ _ ih ih' =>
    rw [wordTokens_append, wordTokens_append, wordTokens_amps, List.append_nil, Cmd.words,
      Cmd.words_back]
    exact ih.append ih'
  | exec _ ih => exact ih
  | pipe _ _ ih ih' =>
    rw [wordTokens_append]
    exact ih.append ih'
  | @block ts c rs _ ih =>
    have hfiles : Sh.wordTokens (.rparen :: rs.flatMap Redir.tokens) = rs.map Redir.file :=
      wordTokens_redirs rs
    rw [wordTokens_append, hfiles]
    exact (ih.append_right _).trans (List.perm_append_comm.trans (words_foldl_wrap rs c).symm)
  | words rs args _ =>
    rw [wordTokens_append, wordTokens_redirs]
    refine List.Perm.trans ?_ (words_foldl_wrap _ _).symm
    rw [List.map_append, List.append_assoc]
    exact (wordTokens_args args).append_left _

theorem Span.Word.apart {str : List Char} {v w : Span} (hv : v.Word str) (hw : w.Word str) :
    v.eq < w.q ∨ w.eq ≤ v.eq := by
  by_contra hin
  obtain ⟨hq, heq⟩ := not_or.mp hin
  have hle := hw.le
  rcases hv.ends with hend | hend
  · omega
  · rw [hw.inside v.eq (by omega) (by omega)] at hend
    cases hend

structure Cmd.Terminated (buf mem : List Char) (cmd : Cmd Span) : Prop where
  word : ∀ w ∈ cmd.words, w.Word (stringAt buf 0)
  string : ∀ w ∈ cmd.words, stringAt mem w.q = w.text (stringAt buf 0)
  apart : ∀ v ∈ cmd.words, ∀ w ∈ cmd.words, v.eq < w.q ∨ w.eq ≤ v.eq
  tokens : (wordTokens (tokens (stringAt buf 0))).Perm (cmd.words.map fun w => stringAt mem w.q)

theorem Cmd.map_words {V : Type} (f : W → V) (c : Cmd W) : (c.map f).words = c.words.map f := by
  induction c with
  | exec argv => rfl
  | redir c file mode fd ih => exact congrArg (f file :: ·) ih
  | pipe l r ihl ihr | list l r ihl ihr =>
    rw [map, words, words, ihl, ihr, List.map_append]
  | back c ih => exact ih

theorem parsecmd_terminated (fuel : Nat) (buf : List Char)
    (hf : 4 * (stringAt buf 0).length + 4 ≤ fuel) (cmd : Cmd Span) (mem : List Char)
    (h : parsecmd fuel buf = .ok (cmd, mem)) : cmd.Terminated buf mem := by
  obtain ⟨rfl, d, hb, hd⟩ := parsecmd_ok hf h
  have hstring : ∀ w ∈ cmd.words,
      stringAt (cmd.nulterminate buf) w.q = w.text (stringAt buf 0) := fun w hw =>
    stringAt_nulterminate hb.words hw
  refine ⟨hb.words, hstring, fun v hv w hw => (hb.words v hv).apart (hb.words w hw), ?_⟩
  rw [List.map_congr_left hstring, ← Cmd.map_words, hb.tree]
  exact hd.wordTokens

def lineTight : List Char := "ls>f|(wc)>>g".toList

def lineTightCmd : Cmd Span :=
  .pipe (.redir (.exec [⟨0, 2⟩]) ⟨3, 4⟩ .wronlyCreate 1)
    (.redir (.exec [⟨6, 8⟩]) ⟨11, 12⟩ .wronlyCreate 1)

theorem parsecmd_terminated_lineTight :
    lineTightCmd.Terminated lineTight "ls\x00f\x00(wc\x00>>g".toList :=
  parsecmd_terminated 100 lineTight (by decide) lineTightCmd _ (by decide +kernel)

end Xv6.Sh
