import Mathlib.Data.List.TakeWhile
import Xv6.Sh.Parse

namespace Xv6.Sh

variable {str : List Char} {s q : Nat} {c : Char} {cs : List Char}

theorem skip_eq (p : Char → Bool) (cs : List Char) (s : Nat) :
    skip p cs s = s + (cs.takeWhile p).length := by
  induction cs generalizing s with
  | nil => rfl
  | cons c cs ih =>
    rw [skip, List.takeWhile_cons]
    cases p c with
    | false => rfl
    | true =>
      rw [if_pos rfl, if_pos rfl, ih, List.length_cons]
      omega

theorem drop_skip (p : Char → Bool) (str : List Char) (s : Nat) :
    str.drop (skip p (str.drop s) s) = (str.drop s).dropWhile p := by
  rw [skip_eq, ← List.drop_drop]
  conv_lhs => arg 2; rw [← List.takeWhile_append_dropWhile (p := p) (l := str.drop s)]
  rw [List.drop_left]

theorem skip_le (p : Char → Bool) (h : s ≤ str.length) :
    skip p (str.drop s) s ≤ str.length := by
  have := (List.takeWhile_prefix p (l := str.drop s)).length_le
  rw [skip_eq]
  rw [List.length_drop] at this
  omega

theorem charAt_of_drop (h : str.drop q = c :: cs) : charAt str q = c := by
  rw [charAt, List.getD_eq_getElem?_getD, ← List.head?_drop, h]
  rfl

theorem charAt_of_drop_nil (h : str.drop q = []) : charAt str q = '\x00' := by
  rw [charAt, List.getD_eq_getElem?_getD, ← List.head?_drop, h]
  rfl

theorem drop_succ (h : str.drop q = c :: cs) : str.drop (q + 1) = cs := by
  rw [← List.drop_drop, h]
  rfl

theorem lt_of_drop (h : str.drop q = c :: cs) : q < str.length := by
  by_contra hq
  rw [List.drop_eq_nil_of_le (Nat.le_of_not_lt hq)] at h
  cases h

theorem tokens_blank (h : whitespace.contains c = true) (cs : List Char) :
    tokens (c :: cs) = tokens cs := by
  simp only [whitespace, List.contains_cons, List.contains_nil, Bool.or_false, Bool.or_eq_true,
    beq_iff_eq] at h
  rcases h with rfl | rfl | rfl | rfl | rfl <;> simp [tokens, whitespace]

theorem not_symbol_of_wordChar (h : wordChar c = true) : c ∉ symbols := by
  simp only [wordChar, Bool.and_eq_true, Bool.not_eq_true', List.contains_eq_mem,
    decide_eq_false_iff_not] at h
  exact h.2

theorem not_blank_of_wordChar (h : wordChar c = true) : whitespace.contains c = false := by
  simp only [wordChar, Bool.and_eq_true, Bool.not_eq_true'] at h
  exact h.1

theorem wordChar_of_not (hb : whitespace.contains c = false) (hc : c ∉ symbols) :
    wordChar c = true := by
  simp only [wordChar, hb, Bool.not_false, Bool.true_and, Bool.not_eq_true',
    List.contains_eq_mem, decide_eq_false_iff_not]
  exact hc

theorem tokens_word (h : wordChar c = true) (cs : List Char) :
    tokens (c :: cs) = .word (c :: cs.takeWhile wordChar) :: tokens (cs.dropWhile wordChar) := by
  have hs := not_symbol_of_wordChar h
  simp only [symbols, List.mem_cons, List.not_mem_nil, or_false, not_or] at hs
  obtain ⟨h1, h2, h3, h4, h5, h6, h7⟩ := hs
  rw [tokens, not_blank_of_wordChar h]
  · rfl
  all_goals grind

theorem tokens_dropBlanks (cs : List Char) :
    tokens (cs.dropWhile (whitespace.contains ·)) = tokens cs := by
  induction cs with
  | nil => rfl
  | cons c cs ih =>
    rw [List.dropWhile_cons]
    cases h : whitespace.contains c with
    | false => rfl
    | true => rw [if_pos rfl, ih, tokens_blank h]

def At (str : List Char) (s : Nat) (ts : List (Token (List Char))) : Prop :=
  s ≤ str.length ∧ tokens (str.drop s) = ts

theorem At.skipBlanks {ts : List (Token (List Char))} (h : At str s ts) :
    At str (skipBlanks str s) ts := by
  refine ⟨skip_le _ h.1, ?_⟩
  rw [Sh.skipBlanks, drop_skip, tokens_dropBlanks]
  exact h.2

theorem skipBlanks_head (h : str.drop (skipBlanks str s) = c :: cs) :
    whitespace.contains c = false := by
  rw [skipBlanks, drop_skip] at h
  have := List.head?_dropWhile_not (whitespace.contains ·) (str.drop s)
  rw [h] at this
  simpa using this

def Span.text (str : List Char) (w : Span) : List Char := (str.drop w.q).take (w.eq - w.q)

structure Span.Word (str : List Char) (w : Span) : Prop where
  order : w.q ≤ w.eq
  le : w.eq ≤ str.length
  inside : ∀ i, w.q ≤ i → i < w.eq → wordChar (charAt str i) = true
  ends : w.eq = str.length ∨ wordChar (charAt str w.eq) = false

theorem skip_wordChar_inside {i : Nat} (hq : q ≤ i) (hi : i < skip wordChar (str.drop q) q) :
    wordChar (charAt str i) = true := by
  rw [skip_eq] at hi
  obtain ⟨k, rfl⟩ := Nat.exists_eq_add_of_le hq
  have hk : k < ((str.drop q).takeWhile wordChar).length := by omega
  have hmem := List.getElem_mem hk
  have hpre := List.takeWhile_prefix wordChar (l := str.drop q)
  rw [hpre.getElem hk, List.getElem_drop] at hmem
  have hlen := hpre.length_le
  rw [List.length_drop] at hlen
  have hget : charAt str (q + k) = str[q + k] := by
    rw [charAt, List.getD_eq_getElem?_getD, List.getElem?_eq_getElem (by omega), Option.getD_some]
  rw [hget]
  exact List.mem_takeWhile_imp hmem

theorem skip_wordChar_ends (hq : q ≤ str.length) :
    skip wordChar (str.drop q) q = str.length ∨
      wordChar (charAt str (skip wordChar (str.drop q) q)) = false := by
  cases h : str.drop (skip wordChar (str.drop q) q) with
  | nil =>
    have := List.drop_eq_nil_iff.mp h
    exact .inl (Nat.le_antisymm (skip_le wordChar hq) this)
  | cons c cs =>
    rw [charAt_of_drop h]
    rw [drop_skip] at h
    have := List.head?_dropWhile_not wordChar (str.drop q)
    rw [h] at this
    exact .inr (by simpa using this)

theorem word_skip (hq : q ≤ str.length) : Span.Word str ⟨q, skip wordChar (str.drop q) q⟩ where
  order := skip_eq wordChar _ q ▸ Nat.le_add_right q _
  le := skip_le wordChar hq
  inside _ := skip_wordChar_inside
  ends := skip_wordChar_ends hq

theorem text_skip (str : List Char) (q : Nat) :
    Span.text str ⟨q, skip wordChar (str.drop q) q⟩ = (str.drop q).takeWhile wordChar := by
  rw [Span.text, skip_eq, Nat.add_sub_cancel_left]
  exact (List.prefix_iff_eq_take.mp (List.takeWhile_prefix wordChar)).symm

structure Reads (str : List Char) (r : Option (Token Span) × Nat)
    (ts : List (Token (List Char))) : Prop where
  head : r.1.map (Token.map (Span.text str)) = ts.head?
  tail : At str r.2 ts.tail
  word : ∀ w, r.1 = some (.word w) → w.Word str

theorem reads_symbol {t : Token Span} {ts : List (Token (List Char))} (hq : q ≤ str.length)
    (htail : tokens (str.drop q) = ts) (ht : ∀ w, t ≠ .word w) :
    Reads str (some t, q) (t.map (Span.text str) :: ts) where
  head := rfl
  tail := ⟨hq, htail⟩
  word w h := absurd (Option.some.inj h) (ht w)

theorem scan_reads (hnul : '\x00' ∉ str) (hq : q ≤ str.length)
    (hb : ∀ c cs, str.drop q = c :: cs → whitespace.contains c = false) :
    Reads str (scan str q) (tokens (str.drop q)) := by
  cases h : str.drop q with
  | nil =>
    have hscan : scan str q = (none, q) := by
      simp [scan, charAt_of_drop_nil h]
    rw [hscan, tokens]
    exact ⟨rfl, ⟨hq, by rw [h, tokens]; rfl⟩, fun w hw => by cases hw⟩
  | cons c cs =>
    have hlt := lt_of_drop h
    have hcs := drop_succ h
    have hc : c ≠ '\x00' := by
      rintro rfl
      exact hnul (List.mem_of_mem_drop (h ▸ List.mem_cons_self))
    have hblank := hb c cs h
    unfold scan
    rw [charAt_of_drop h]
    split
    · exact absurd rfl hc
    iterate 6
      · rw [tokens]
        exact reads_symbol hlt (by rw [hcs]) (by simp)
    · split
      · rename_i hgt
        cases cs with
        | nil =>
          rw [charAt_of_drop_nil hcs] at hgt
          cases hgt
        | cons d cs =>
          obtain rfl : d = '>' := (charAt_of_drop hcs).symm.trans hgt
          rw [tokens]
          exact reads_symbol (lt_of_drop hcs) (by rw [drop_succ hcs]) (by simp)
      · rename_i hgt
        rw [tokens]
        · exact reads_symbol hlt (by rw [hcs]) (by simp)
        · rintro cs' rfl
          exact hgt (charAt_of_drop hcs)
    · have hw : wordChar c = true := by
        refine wordChar_of_not hblank ?_
        simp only [symbols, List.mem_cons, List.not_mem_nil]
        grind
      rw [tokens_word hw]
      refine ⟨?_, ⟨skip_le wordChar hq, ?_⟩, ?_⟩
      · dsimp only
        rw [Option.map_some, Token.map, text_skip, h, List.takeWhile_cons, hw]
        rfl
      · rw [List.tail_cons]
        dsimp only
        rw [drop_skip, h, List.dropWhile_cons, hw]
        rfl
      · intro w hw
        cases hw
        exact word_skip hq

theorem gettoken_reads (hnul : '\x00' ∉ str) {ts : List (Token (List Char))} (h : At str s ts) :
    Reads str (gettoken str s) ts := by
  have hs := h.skipBlanks
  have hr := scan_reads hnul hs.1 fun c cs => skipBlanks_head
  rw [hs.2] at hr
  exact ⟨hr.head, hr.tail.skipBlanks, hr.word⟩

variable {W V : Type}

def Token.sign : Token W → Option Char
  | .pipe => some '|'
  | .lparen => some '('
  | .rparen => some ')'
  | .semi => some ';'
  | .amp => some '&'
  | .lt => some '<'
  | .gt | .gtgt => some '>'
  | .word _ => none

def starts (toks : List Char) (ts : List (Token W)) : Bool :=
  (ts.head?.bind Token.sign).any toks.contains

theorem tokens_sign (hb : whitespace.contains c = false) (cs : List Char) :
    (tokens (c :: cs)).head?.bind Token.sign = if c ∈ symbols then some c else none := by
  by_cases hc : c ∈ symbols
  · rw [if_pos hc]
    simp only [symbols, List.mem_cons, List.not_mem_nil, or_false] at hc
    rcases hc with rfl | rfl | rfl | rfl | rfl | rfl | rfl
    · rw [tokens]; rfl
    · rw [tokens]; rfl
    · cases cs with
      | nil => rw [tokens]; rfl; simp
      | cons d cs =>
        by_cases hd : d = '>'
        · subst hd
          rw [tokens]; rfl
        · rw [tokens]; rfl; simpa using hd
    · rw [tokens]; rfl
    · rw [tokens]; rfl
    · rw [tokens]; rfl
    · rw [tokens]; rfl
  · rw [if_neg hc, tokens_word (wordChar_of_not hb hc)]
    rfl

theorem tokens_ne_nil (hb : whitespace.contains c = false) (cs : List Char) :
    tokens (c :: cs) ≠ [] := by
  intro h
  have hs := tokens_sign hb cs
  rw [h] at hs
  by_cases hc : c ∈ symbols
  · rw [if_pos hc] at hs
    cases hs
  · rw [tokens_word (wordChar_of_not hb hc)] at h
    cases h

theorem peek_eq (hnul : '\x00' ∉ str) {ts : List (Token (List Char))} (h : At str s ts)
    (toks : List Char) (ht : toks ⊆ symbols) :
    ∃ s', peek str s toks = (starts toks ts, s') ∧ At str s' ts := by
  refine ⟨skipBlanks str s, ?_, h.skipBlanks⟩
  unfold peek starts
  rw [← h.skipBlanks.2]
  refine Prod.ext ?_ rfl
  dsimp only
  cases hd : str.drop (skipBlanks str s) with
  | nil =>
    rw [charAt_of_drop_nil hd, tokens]
    rfl
  | cons c cs =>
    have hc : c ≠ '\x00' := by
      rintro rfl
      exact hnul (List.mem_of_mem_drop (hd ▸ List.mem_cons_self))
    rw [charAt_of_drop hd, tokens_sign (skipBlanks_head hd), bne_iff_ne.mpr hc, Bool.true_and]
    by_cases hs : c ∈ symbols
    · rw [if_pos hs]
      rfl
    · rw [if_neg hs]
      simp only [Option.any_none, List.contains_eq_mem, decide_eq_false_iff_not]
      exact fun h => hs (ht h)

theorem gettoken_nil (hnul : '\x00' ∉ str) (h : At str s []) :
    ∃ s', gettoken str s = (none, s') ∧ At str s' [] := by
  obtain ⟨hhead, htail, -⟩ := gettoken_reads hnul h
  refine ⟨_, Prod.ext ?_ rfl, htail⟩
  cases hg : (gettoken str s).1 with
  | none => rfl
  | some t =>
    rw [hg] at hhead
    cases hhead

theorem gettoken_cons (hnul : '\x00' ∉ str) {t : Token (List Char)} {ts : List (Token (List Char))}
    (h : At str s (t :: ts)) :
    ∃ t' s', gettoken str s = (some t', s') ∧ At str s' ts ∧ t'.map (Span.text str) = t ∧
      ∀ w, t' = .word w → w.Word str := by
  obtain ⟨hhead, htail, hword⟩ := gettoken_reads hnul h
  cases hg : (gettoken str s).1 with
  | none =>
    rw [hg] at hhead
    cases hhead
  | some t' =>
    rw [hg] at hhead hword
    exact ⟨t', _, Prod.ext hg rfl, htail, Option.some.inj hhead, fun w hw => hword w (hw ▸ rfl)⟩

theorem gettoken_word (hnul : '\x00' ∉ str) {v : List Char} {ts : List (Token (List Char))}
    (h : At str s (.word v :: ts)) :
    ∃ w s', gettoken str s = (some (.word w), s') ∧ At str s' ts ∧ w.text str = v ∧
      w.Word str := by
  obtain ⟨t', s', hg, hat, hmap, hword⟩ := gettoken_cons hnul h
  cases t' with
  | word w => exact ⟨w, s', hg, hat, Token.word.inj hmap, hword w rfl⟩
  | _ => cases hmap

theorem gettoken_not_word (hnul : '\x00' ∉ str) {ts : List (Token (List Char))}
    (h : At str s ts) (hts : ∀ v us, ts ≠ .word v :: us) (w : Span) :
    (gettoken str s).1 ≠ some (.word w) := by
  intro hg
  have hhead := (gettoken_reads hnul h).head
  rw [hg] at hhead
  cases ts with
  | nil => cases hhead
  | cons t ts => exact hts _ ts (congrArg (· :: ts) (Option.some.inj hhead).symm)

end Xv6.Sh
