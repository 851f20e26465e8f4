import Xv6.Grep.Stream

namespace Xv6
namespace Grep

open Bytes (splice)
open Lines (lines rest)

theorem fdRead_length (chunks : List (List Nat)) (n : Nat) : (fdRead chunks n).1.length ≤ n := by
  cases chunks with
  | nil => exact Nat.zero_le n
  | cons d later =>
    rw [fdRead]
    split
    case isTrue h => exact h
    case isFalse h => exact List.length_take_le n d

theorem fdRead_chunks {chunks : List (List Nat)} (h : ∀ d ∈ chunks, d ≠ []) (n : Nat) :
    ∀ d ∈ (fdRead chunks n).2, d ≠ [] := by
  cases chunks with
  | nil => simp [fdRead]
  | cons c later =>
    rw [fdRead]
    split
    case isTrue hle => exact fun d hd => h d (List.mem_cons_of_mem _ hd)
    case isFalse hle =>
      intro d hd
      rcases List.mem_cons.mp hd with rfl | hd
      · exact fun hnil => hle (List.drop_eq_nil_iff.mp hnil)
      · exact h d (List.mem_cons_of_mem _ hd)

theorem fdRead_eof {chunks : List (List Nat)} {n : Nat} (h : ∀ d ∈ chunks, d ≠ []) (hn : 0 < n)
    (heof : (fdRead chunks n).1 = []) : chunks = [] := by
  cases chunks with
  | nil => rfl
  | cons d later =>
    have hd := List.length_pos_of_ne_nil (h d List.mem_cons_self)
    have hlen := congrArg List.length heof
    rw [fdRead] at hlen
    split at hlen
    case isTrue hle => exact absurd hlen hd.ne'
    case isFalse hle =>
      rw [List.length_take, List.length_nil] at hlen
      omega

theorem asked (m : Nat) : ((bufSize : Int) - m).toNat = bufSize - m := Int.toNat_sub bufSize m

theorem grepLoop_eof {pattern buf : List Nat} {m : Int} {chunks : List (List Nat)} {out : List Nat}
    (h : (fdRead chunks (bufSize - m).toNat).1 = []) :
    grepLoop pattern buf m chunks out = some out := by
  rw [grepLoop]
  split
  case h_1 heq => rfl
  case h_2 heq => rw [heq] at h; cases h

theorem grepLoop_before {pattern buf : List Nat} {m : Int} {chunks : List (List Nat)}
    {out : List Nat} (hm : m < 0) (h : (fdRead chunks (bufSize - m).toNat).1 ≠ []) :
    grepLoop pattern buf m chunks out = none := by
  rw [grepLoop]
  split
  case h_1 heq => rw [heq] at h; exact absurd rfl h
  case h_2 heq => rw [if_pos hm]

theorem grepLoop_read {pattern buf : List Nat} {m : Nat} {chunks later : List (List Nat)}
    {d out : List Nat} (hread : fdRead chunks (bufSize - m) = (d, later)) (hd : d ≠ []) :
    grepLoop pattern buf m chunks out =
      match searchLines pattern (splice buf m d) 0 out with
      | none => none
      | some (buf, p, out) =>
        if p = 0 then grepLoop pattern buf 0 later out
        else
          match memmove buf 0 p ((m : Int) + d.length - p).toNat with
          | none => none
          | some buf => grepLoop pattern buf ((m : Int) + d.length - p) later out := by
  rw [grepLoop]
  split
  case h_1 heq =>
    rw [asked, hread] at heq
    exact absurd (congrArg Prod.fst heq) hd
  case h_2 x d' later' heq =>
    rw [asked, hread] at heq
    obtain ⟨rfl, rfl⟩ := Prod.mk.inj heq
    exact if_neg (by omega)

def settle (v behind : List Nat) : List Nat :=
  rest newline v ++ (v ++ behind).drop (rest newline v).length

-- Reads after which the search stops at a NUL right where the data or old bytes without a
-- newline end, and that leave data without a newline only when no newline is to come.
inductive Clean : List Nat → Nat → List (List Nat) → Prop where
  | eof {buf : List Nat} {m : Nat} {chunks : List (List Nat)}
      (h : (fdRead chunks (bufSize - m)).1 = []) : Clean buf m chunks
  | lines {buf d : List Nat} {m : Nat} {chunks later : List (List Nat)}
      (hread : fdRead chunks (bufSize - m) = (d, later)) (hd : d ≠ [])
      (hbehind : strchr newline (buf.drop (m + d.length)) = some none)
      (hline : newline ∈ buf.take m ++ d)
      (hnext : Clean (settle (buf.take m ++ d) (buf.drop (m + d.length)))
        (rest newline (buf.take m ++ d)).length later) : Clean buf m chunks
  | last {buf d : List Nat} {m : Nat} {chunks later : List (List Nat)}
      (hread : fdRead chunks (bufSize - m) = (d, later)) (hd : d ≠ [])
      (hbehind : strchr newline (buf.drop (m + d.length)) = some none)
      (hline : newline ∉ buf.take m ++ d) (hlast : newline ∉ later.flatten)
      (hnext : Clean (splice buf m d) 0 later) : Clean buf m chunks

def Erased (kept buf : List Nat) : Prop :=
  List.Forall₂ (fun x y => y = x ∨ x = newline ∧ y = 0) kept buf

theorem Erased.refl (l : List Nat) : Erased l l := List.forall₂_same.mpr fun _ _ => .inl rfl

theorem Erased.append {k k' b b' : List Nat} (h : Erased k b) (h' : Erased k' b') :
    Erased (k ++ k') (b ++ b') := List.rel_append h h'

theorem Erased.eq {k b : List Nat} (h : Erased k b) (hk : newline ∉ k) : b = k := by
  induction h with
  | nil => rfl
  | cons hxy _ ih =>
    obtain ⟨hx, htail⟩ := not_or.mp (mt List.mem_cons.mpr hk)
    rcases hxy with rfl | ⟨rfl, -⟩
    · rw [ih htail]
    · exact absurd rfl hx

theorem Erased.strchr {k b : List Nat} (h : Erased k b)
    (hk : Grep.strchr newline k = some none) : Grep.strchr newline b = some none := by
  induction h with
  | nil => exact hk
  | @cons x y k b hxy _ ih =>
    rw [Grep.strchr] at hk ⊢
    rcases hxy with rfl | ⟨rfl, rfl⟩
    · split_ifs at hk ⊢ with h0 hnl
      · rfl
      · cases hk
      · obtain ⟨o, ho, hnone⟩ := Option.map_eq_some_iff.mp hk
        cases o with
        | none => rw [ih ho]; rfl
        | some j => cases hnone
    · rw [if_pos rfl]

theorem erased_marked (pattern v : List Nat) :
    Erased v (marked pattern v ++ rest newline v) := by
  induction v using Lines.induction_on newline with
  | hopen v hv =>
    rw [marked, Lines.lines_open hv, Lines.rest_open hv]
    exact Erased.refl v
  | hline l s hl ih =>
    rw [marked, Lines.lines_line hl, Lines.rest_line hl, List.flatMap_cons, List.append_assoc,
      List.append_assoc]
    refine (Erased.refl l).append (List.Forall₂.cons ?_ ih)
    rw [mark]
    split
    · exact .inl rfl
    · exact .inr ⟨rfl, rfl⟩

theorem rest_lt {v : List Nat} (h : newline ∈ v) : (rest newline v).length < v.length := by
  obtain ⟨l, s, hl, rfl⟩ := Lines.exists_line h
  have hlen := marked_length [] s
  rw [Lines.rest_line hl, List.length_append, List.length_cons]
  omega

theorem grepLoop_silent {pattern buf d out : List Nat} {m : Nat} {chunks later : List (List Nat)}
    (hread : fdRead chunks (bufSize - m) = (d, later)) (hd : d ≠ [])
    (hm : m + d.length ≤ buf.length) (h0 : 0 ∉ buf.take m ++ d)
    (hbehind : strchr newline (buf.drop (m + d.length)) = some none) :
    grepLoop pattern buf m chunks out =
      if newline ∈ buf.take m ++ d then
        grepLoop pattern
          (rest newline (buf.take m ++ d) ++
            (marked pattern (buf.take m ++ d) ++ (rest newline (buf.take m ++ d) ++
              buf.drop (m + d.length))).drop (rest newline (buf.take m ++ d)).length)
          (rest newline (buf.take m ++ d)).length later
          (out ++ matching pattern (buf.take m ++ d))
      else grepLoop pattern (splice buf m d) 0 later out := by
  have hbuf : splice buf m d = [] ++ ((buf.take m ++ d) ++ buf.drop (m + d.length)) := by
    rw [splice, List.nil_append, List.append_assoc]
  have hlen : (buf.take m ++ d).length = m + d.length := by
    rw [List.length_append, List.length_take]
    omega
  generalize buf.take m ++ d = v at *
  generalize buf.drop (m + d.length) = behind at *
  have hopen : newline ∉ rest newline v := Lines.sep_not_mem_rest v
  have hrest0 : 0 ∉ rest newline v := by
    intro h
    rw [← Lines.join_lines newline v] at h0
    exact h0 (List.mem_append_right _ h)
  have hsearch : searchLines pattern (splice buf m d) 0 out =
      some (marked pattern v ++ (rest newline v ++ behind), (marked pattern v).length,
        out ++ matching pattern v) := by
    have hstop : strchr newline (rest newline v ++ behind) = some none := by
      rw [strchr_append hrest0 hopen, hbehind]
      rfl
    rw [hbuf]
    exact (searchLines_data h0).trans (searchLines_stop hstop)
  have hmarked := marked_length pattern v
  rw [grepLoop_read hread hd, hsearch]
  dsimp only
  split
  case isTrue hzero =>
    have hnl : newline ∉ v := fun h => by
      have := rest_lt h
      omega
    rw [if_neg hnl, matching_open hnl, List.append_nil, hbuf]
    rw [List.eq_nil_of_length_eq_zero hzero, Lines.rest_open hnl]
  case isFalse hpos =>
    have hnl : newline ∈ v := by
      by_contra hnl
      exact hpos (by rw [marked, Lines.lines_open hnl]; rfl)
    have hcount : ((m : Int) + d.length - (marked pattern v).length) =
        (rest newline v).length := by omega
    rw [if_pos hnl, hcount, Int.toNat_natCast, memmove_eq (Nat.zero_le _) (by simp)]
    simp

theorem mem_of_mem_rest {x : Nat} {v : List Nat} (h : x ∈ rest newline v) : x ∈ v := by
  rw [← Lines.join_lines newline v]
  exact List.mem_append_right _ h

structure Holds (kept buf : List Nat) (m : Nat) (chunks : List (List Nat)) : Prop where
  size : kept.length = bufSize
  erased : Erased kept buf
  room : m < bufSize
  unfinished : newline ∉ kept.take m
  nul : 0 ∉ kept.take m ++ chunks.flatten
  arrived : ∀ d ∈ chunks, d ≠ []

section

variable {kept buf d : List Nat} {m : Nat} {chunks later : List (List Nat)}

theorem Holds.asked (h : Holds kept buf m chunks)
    (hread : fdRead chunks (bufSize - m) = (d, later)) : m + d.length ≤ bufSize := by
  have hlen := fdRead_length chunks (bufSize - m)
  have hroom := h.room
  rw [hread] at hlen
  dsimp only at hlen
  omega

theorem Holds.stream (hread : fdRead chunks (bufSize - m) = (d, later)) (l : List Nat) :
    l ++ chunks.flatten = (l ++ d) ++ later.flatten := by
  have hflat := fdRead_flatten chunks (bufSize - m)
  rw [hread] at hflat
  rw [← hflat, List.append_assoc]

theorem Holds.arrives (h : Holds kept buf m chunks)
    (hread : fdRead chunks (bufSize - m) = (d, later)) : ∀ c ∈ later, c ≠ [] := by
  have hchunks := fdRead_chunks h.arrived (bufSize - m)
  rwa [hread] at hchunks

theorem Holds.nul_data (h : Holds kept buf m chunks)
    (hread : fdRead chunks (bufSize - m) = (d, later)) : 0 ∉ kept.take m ++ d := by
  have hnul := h.nul
  rw [Holds.stream hread] at hnul
  exact fun h0 => hnul (List.mem_append_left _ h0)

theorem Holds.nul_later (h : Holds kept buf m chunks)
    (hread : fdRead chunks (bufSize - m) = (d, later)) : 0 ∉ later.flatten := by
  have hnul := h.nul
  rw [Holds.stream hread] at hnul
  exact fun h0 => hnul (List.mem_append_right _ h0)

theorem Holds.take (h : Holds kept buf m chunks) : buf.take m = kept.take m :=
  Erased.eq (List.forall₂_take m h.erased) h.unfinished

theorem Holds.data_length (h : Holds kept buf m chunks) :
    (kept.take m ++ d).length = m + d.length := by
  have hroom := h.room
  rw [List.length_append, List.length_take, h.size]
  omega

theorem Holds.lines (h : Holds kept buf m chunks)
    (hread : fdRead chunks (bufSize - m) = (d, later)) (pattern : List Nat)
    (hline : newline ∈ kept.take m ++ d) :
    Holds (settle (kept.take m ++ d) (kept.drop (m + d.length)))
      (rest newline (kept.take m ++ d) ++
        (marked pattern (kept.take m ++ d) ++ (rest newline (kept.take m ++ d) ++
          buf.drop (m + d.length))).drop (rest newline (kept.take m ++ d)).length)
      (rest newline (kept.take m ++ d)).length later := by
  have hasked := h.asked hread
  have hlen : (kept.take m ++ d).length = m + d.length := h.data_length
  have hlt := rest_lt hline
  refine ⟨?_, ?_, by omega, ?_, ?_, h.arrives hread⟩
  · rw [settle, List.length_append, List.length_drop, List.length_append, hlen,
      List.length_drop, h.size]
    omega
  · rw [← List.append_assoc (marked pattern _)]
    exact (Erased.refl _).append (List.forall₂_drop _
      ((erased_marked pattern _).append (List.forall₂_drop _ h.erased)))
  · rw [settle, List.take_left]
    exact Lines.sep_not_mem_rest _
  · rw [settle, List.take_left]
    intro h0
    rcases List.mem_append.mp h0 with h0 | h0
    · exact h.nul_data hread (mem_of_mem_rest h0)
    · exact h.nul_later hread h0

theorem Holds.last (h : Holds kept buf m chunks)
    (hread : fdRead chunks (bufSize - m) = (d, later)) :
    Holds (splice kept m d) (splice buf m d) 0 later := by
  have hasked := h.asked hread
  have hroom := h.room
  refine ⟨?_, ?_, by decide, by simp, by simpa using h.nul_later hread, h.arrives hread⟩
  · simp only [splice, List.length_append, List.length_take, List.length_drop, h.size]
    omega
  · exact Erased.append (List.forall₂_take m h.erased)
      ((Erased.refl d).append (List.forall₂_drop _ h.erased))

theorem Holds.silent (h : Holds kept buf m chunks) (pattern out : List Nat)
    (hread : fdRead chunks (bufSize - m) = (d, later)) (hd : d ≠ [])
    (hbehind : strchr newline (kept.drop (m + d.length)) = some none) :
    grepLoop pattern buf m chunks out =
      if newline ∈ kept.take m ++ d then
        grepLoop pattern
          (rest newline (kept.take m ++ d) ++
            (marked pattern (kept.take m ++ d) ++ (rest newline (kept.take m ++ d) ++
              buf.drop (m + d.length))).drop (rest newline (kept.take m ++ d)).length)
          (rest newline (kept.take m ++ d)).length later
          (out ++ matching pattern (kept.take m ++ d))
      else grepLoop pattern (splice buf m d) 0 later out := by
  have hsize : buf.length = bufSize := (List.Forall₂.length_eq h.erased).symm.trans h.size
  rw [← h.take]
  exact grepLoop_silent hread hd (by rw [hsize]; exact h.asked hread)
    (by rw [h.take]; exact h.nul_data hread)
    (Erased.strchr (List.forall₂_drop _ h.erased) hbehind)

end

theorem Clean.prints {kept : List Nat} {m : Nat} {chunks : List (List Nat)}
    (h : Clean kept m chunks) (pattern : List Nat) {buf : List Nat}
    (hh : Holds kept buf m chunks) (out : List Nat) :
    grepLoop pattern buf m chunks out =
      some (out ++ matching pattern (kept.take m ++ chunks.flatten)) := by
  induction h generalizing buf out with
  | @eof kept m chunks heof =>
    have hroom := hh.room
    obtain rfl := fdRead_eof hh.arrived (by omega) heof
    rw [grepLoop_eof rfl, List.flatten_nil, List.append_nil, matching_open hh.unfinished,
      List.append_nil]
  | @lines kept d m chunks later hread hd hbehind hline _ ih =>
    rw [hh.silent pattern out hread hd hbehind, if_pos hline,
      ih (hh.lines hread pattern hline), Holds.stream hread,
      matching_append pattern (kept.take m ++ d), settle, List.take_left, List.append_assoc out]
  | @last kept d m chunks later hread hd hbehind hline hlast _ ih =>
    have hnone : newline ∉ (kept.take m ++ d) ++ later.flatten := by
      rw [List.mem_append]
      exact not_or.mpr ⟨hline, hlast⟩
    have hnext := ih (hh.last hread) out
    rw [List.take_zero, List.nil_append, matching_open hlast] at hnext
    rw [hh.silent pattern out hread hd hbehind, if_neg hline, Holds.stream hread,
      matching_open hnone]
    exact hnext

theorem searchLines_keeps {pattern buf out buf' out' : List Nat} {p p' : Nat}
    (h : searchLines pattern buf p out = some (buf', p', out')) : p ≤ p' ∧ out <+: out' := by
  fun_induction searchLines pattern buf p out with
  | case1 => cases h
  | case2 =>
    cases h
    exact ⟨le_rfl, List.prefix_rfl⟩
  | case3 buf p out k _ ended _ restored ih =>
    obtain ⟨hp, hout⟩ := ih h
    exact ⟨by omega, (List.prefix_append out _).trans hout⟩
  | case4 buf p out k _ ended _ ih =>
    obtain ⟨hp, hout⟩ := ih h
    exact ⟨by omega, hout⟩

theorem grepLoop_keeps {pattern buf out o : List Nat} {m : Int} {chunks : List (List Nat)}
    (h : grepLoop pattern buf m chunks out = some o) : out <+: o := by
  fun_induction grepLoop pattern buf m chunks out with
  | case1 =>
    cases h
    exact List.prefix_rfl
  | case2 => cases h
  | case3 => cases h
  | case4 buf m chunks out _ _ _ _ _ _ _ hsearch ih =>
    exact (searchLines_keeps hsearch).2.trans (ih h)
  | case5 => cases h
  | case6 buf m chunks out _ _ _ _ _ _ _ _ hsearch _ _ _ ih =>
    exact (searchLines_keeps hsearch).2.trans (ih h)

theorem matchRe_nil (l : List Nat) : matchRe [] l = true := by
  rw [matchRe, matchLoop_iff]
  exact ⟨[], l, rfl, prefix_nil l⟩

theorem printed_nil (l : List Nat) : printed [] l = l ++ [newline] := if_pos (matchRe_nil l)

theorem marked_nil (v : List Nat) : marked [] v ++ rest newline v = v := by
  have hmark : ∀ l, mark [] l = newline := fun l => if_pos (matchRe_nil l)
  simp only [marked, hmark]
  exact Lines.join_lines newline v

section

variable {buf d out o : List Nat} {m : Nat} {chunks later : List (List Nat)}

theorem searchLines_whole (pattern out : List Nat) (hh : Holds buf buf m chunks)
    (hread : fdRead chunks (bufSize - m) = (d, later)) :
    searchLines pattern (splice buf m d) 0 out =
      searchLines pattern (marked pattern (buf.take m ++ d) ++
          (rest newline (buf.take m ++ d) ++ buf.drop (m + d.length)))
        (marked pattern (buf.take m ++ d)).length
        (out ++ matching pattern (buf.take m ++ d)) := by
  have hbuf : splice buf m d = [] ++ ((buf.take m ++ d) ++ buf.drop (m + d.length)) := by
    rw [splice, List.nil_append, List.append_assoc]
  rw [hbuf]
  exact searchLines_data (hh.nul_data hread)

theorem Holds.prints_data (hh : Holds buf buf m chunks)
    (hread : fdRead chunks (bufSize - m) = (d, later)) (hd : d ≠ []) {pattern : List Nat}
    (hrun : grepLoop pattern buf m chunks out = some o) :
    (out ++ matching pattern (buf.take m ++ d)) <+: o := by
  rw [grepLoop_read hread hd, searchLines_whole pattern out hh hread] at hrun
  split at hrun
  case h_1 => cases hrun
  case h_2 hsearch =>
    refine (searchLines_keeps hsearch).2.trans ?_
    split at hrun
    · exact grepLoop_keeps hrun
    · split at hrun
      · cases hrun
      · exact grepLoop_keeps hrun

theorem Holds.not_outside (hh : Holds buf buf m chunks)
    (hread : fdRead chunks (bufSize - m) = (d, later)) (hd : d ≠ []) {pattern : List Nat}
    (hrun : grepLoop pattern buf m chunks out = some o) :
    strchr newline (buf.drop (m + d.length)) ≠ none := by
  intro hnone
  have hstr : strchr newline (rest newline (buf.take m ++ d) ++ buf.drop (m + d.length)) =
      none := by
    rw [strchr_append (fun h => hh.nul_data hread (mem_of_mem_rest h))
      (Lines.sep_not_mem_rest _), hnone]
    rfl
  rw [grepLoop_read hread hd, searchLines_whole pattern out hh hread,
    searchLines_outside hstr] at hrun
  cases hrun

-- An old newline behind the data ends a line of its own; the search is then past the data and
-- the next bytes are stored in front of the array.
theorem Holds.overshoot (hh : Holds buf buf m chunks)
    (hread : fdRead chunks (bufSize - m) = (d, later)) (hd : d ≠ []) {k : Nat}
    (hstale : strchr newline (buf.drop (m + d.length)) = some (some k))
    (hrun : grepLoop [] buf m chunks out = some o) :
    later = [] ∧ ∃ extra ≠ [], o = out ++ matching [] (buf.take m ++ d) ++ extra := by
  have hlen : (buf.take m ++ d).length = m + d.length := hh.data_length
  have hmarked := marked_length [] (buf.take m ++ d)
  obtain ⟨stale, t, hbehind, -, hstale0, hstalenl⟩ := strchr_some hstale
  rw [grepLoop_read hread hd, searchLines_whole [] out hh hread, hbehind] at hrun
  have hnul := hh.nul_data hread
  generalize buf.take m ++ d = v at *
  have hline0 : 0 ∉ rest newline v ++ stale := by
    rw [List.mem_append]
    exact not_or.mpr ⟨fun h => hnul (mem_of_mem_rest h), hstale0⟩
  have hline : newline ∉ rest newline v ++ stale := by
    rw [List.mem_append]
    exact not_or.mpr ⟨Lines.sep_not_mem_rest v, hstalenl⟩
  rw [← List.append_assoc (rest newline v), searchLines_line hline0 hline, printed_nil] at hrun
  split at hrun
  case h_1 => cases hrun
  case h_2 buf' p out' hsearch =>
    obtain ⟨hp, hout⟩ := searchLines_keeps hsearch
    rw [List.length_append] at hp
    rw [if_neg (by omega), Int.toNat_of_nonpos (by omega), memmove] at hrun
    dsimp only at hrun
    have hpast : (m : Int) + d.length - p < 0 := by omega
    have hlater : later = [] := by
      by_contra hne
      have hmore : (fdRead later (bufSize - ((m : Int) + d.length - p)).toNat).1 ≠ [] :=
        fun heof => hne (fdRead_eof (hh.arrives hread) (by omega) heof)
      rw [grepLoop_before hpast hmore] at hrun
      cases hrun
    subst hlater
    rw [grepLoop_eof rfl] at hrun
    cases hrun
    obtain ⟨more, rfl⟩ := hout
    exact ⟨rfl, _, by simp, List.append_assoc _ _ more⟩

theorem Holds.kept_lines (hh : Holds buf buf m chunks)
    (hread : fdRead chunks (bufSize - m) = (d, later))
    (hline : newline ∈ buf.take m ++ d) :
    Holds (settle (buf.take m ++ d) (buf.drop (m + d.length)))
      (settle (buf.take m ++ d) (buf.drop (m + d.length)))
      (rest newline (buf.take m ++ d)).length later := by
  have hnext := hh.lines hread [] hline
  rwa [← List.append_assoc (marked [] _), marked_nil] at hnext

theorem Holds.silent_nil (hh : Holds buf buf m chunks) (out : List Nat)
    (hread : fdRead chunks (bufSize - m) = (d, later)) (hd : d ≠ [])
    (hbehind : strchr newline (buf.drop (m + d.length)) = some none) :
    grepLoop [] buf m chunks out =
      if newline ∈ buf.take m ++ d then
        grepLoop [] (settle (buf.take m ++ d) (buf.drop (m + d.length)))
          (rest newline (buf.take m ++ d)).length later (out ++ matching [] (buf.take m ++ d))
      else grepLoop [] (splice buf m d) 0 later out := by
  rw [hh.silent [] out hread hd hbehind, ← List.append_assoc (marked [] _), marked_nil]
  rfl

theorem Holds.first_line (hh : Holds buf buf m chunks) {w t : List Nat} (hw : newline ∉ w)
    (hstream : buf.take m ++ chunks.flatten = w ++ newline :: t)
    (hrun : grepLoop [] buf m chunks out = some o) :
    ∃ l s, newline ∉ l ∧ l.length ≤ w.length ∧ o = out ++ (l ++ newline :: s) := by
  induction hn : chunks.flatten.length using Nat.strong_induction_on
    generalizing buf m chunks w t with
  | _ n ih =>
    obtain ⟨d, later, hread⟩ : ∃ d later, fdRead chunks (bufSize - m) = (d, later) :=
      ⟨_, _, rfl⟩
    have hroom := hh.room
    have hd : d ≠ [] := by
      rintro rfl
      have hnil := fdRead_eof hh.arrived (show 0 < bufSize - m by omega) (by rw [hread])
      rw [hnil, List.flatten_nil, List.append_nil] at hstream
      exact hh.unfinished (by rw [hstream]; simp)
    have hflat := fdRead_flatten chunks (bufSize - m)
    rw [hread] at hflat
    have hless : later.flatten.length < n := by
      have hpos := List.length_pos_of_ne_nil hd
      rw [← hn, ← hflat, List.length_append]
      dsimp only
      omega
    rw [Holds.stream hread] at hstream
    by_cases hline : newline ∈ buf.take m ++ d
    · obtain ⟨w', t', hw', hv⟩ := Lines.exists_line hline
      obtain ⟨more, rfl⟩ := hh.prints_data hread hd hrun
      rw [hv, List.append_assoc, List.cons_append] at hstream
      obtain rfl := Lines.first_line_unique hw' hw hstream
      rw [hv, matching_line hw', printed_nil]
      exact ⟨w', matching [] t' ++ more, hw', le_rfl, by simp⟩
    · have hmore : newline ∈ later.flatten := by
        have hnl : newline ∈ buf.take m ++ d ++ later.flatten := by rw [hstream]; simp
        exact (List.mem_append.mp hnl).resolve_left hline
      obtain ⟨w', t', hw', hlater⟩ := Lines.exists_line hmore
      have hww : buf.take m ++ d ++ w' = w := by
        rw [hlater, ← List.append_assoc] at hstream
        refine Lines.first_line_unique ?_ hw hstream
        rw [List.mem_append]
        exact not_or.mpr ⟨hline, hw'⟩
      rcases hstr : strchr newline (buf.drop (m + d.length)) with _ | _ | k
      · exact absurd hstr (hh.not_outside hread hd hrun)
      · rw [hh.silent_nil out hread hd hstr, if_neg hline] at hrun
        obtain ⟨l, s, hl, hle, ho⟩ := ih _ hless (hh.last hread) hw' hlater hrun rfl
        refine ⟨l, s, hl, ?_, ho⟩
        rw [← hww, List.length_append]
        omega
      · obtain ⟨rfl, -⟩ := hh.overshoot hread hd hstr hrun
        cases hmore

theorem Clean.of_prints (hh : Holds buf buf m chunks) (out : List Nat)
    (hrun : grepLoop [] buf m chunks out =
      some (out ++ matching [] (buf.take m ++ chunks.flatten))) : Clean buf m chunks := by
  induction hn : chunks.flatten.length using Nat.strong_induction_on
    generalizing buf m chunks out with
  | _ n ih =>
    obtain ⟨d, later, hread⟩ : ∃ d later, fdRead chunks (bufSize - m) = (d, later) :=
      ⟨_, _, rfl⟩
    by_cases hd : d = []
    · exact .eof (by rw [hread, hd])
    have hless : later.flatten.length < n := by
      have hflat := congrArg List.length (Holds.stream hread [])
      have hpos := List.length_pos_of_ne_nil hd
      rw [List.length_append, List.length_append] at hflat
      simp only [List.nil_append, List.length_nil] at hflat
      omega
    have hdata : (buf.take m ++ d).length = m + d.length := hh.data_length
    rcases hstr : strchr newline (buf.drop (m + d.length)) with _ | _ | k
    · exact absurd hstr (hh.not_outside hread hd hrun)
    · have hnext := hh.silent_nil out hread hd hstr
      rw [hrun, Holds.stream hread] at hnext
      by_cases hline : newline ∈ buf.take m ++ d
      · rw [if_pos hline, matching_append, ← List.append_assoc] at hnext
        refine .lines hread hd hstr hline (ih _ hless (hh.kept_lines hread hline)
          (out ++ matching [] (buf.take m ++ d)) ?_ rfl)
        rw [settle, List.take_left]
        exact hnext.symm
      · rw [if_neg hline] at hnext
        have hlast : newline ∉ later.flatten := by
          intro hmore
          obtain ⟨w, t, hw, hlater⟩ := Lines.exists_line hmore
          obtain ⟨l, s, hl, hle, ho⟩ := (hh.last hread).first_line hw hlater hnext.symm
          have hlost : newline ∉ buf.take m ++ d ++ w := by
            rw [List.mem_append]
            exact not_or.mpr ⟨hline, hw⟩
          rw [hlater, ← List.append_assoc, matching_line hlost, printed_nil] at ho
          have heq := List.append_cancel_left ho
          rw [List.append_assoc, List.singleton_append] at heq
          have hsame := congrArg List.length (Lines.first_line_unique hlost hl heq)
          have hpos := List.length_pos_of_ne_nil hd
          rw [List.length_append, hdata] at hsame
          omega
        have hnone : newline ∉ buf.take m ++ d ++ later.flatten := by
          rw [List.mem_append]
          exact not_or.mpr ⟨hline, hlast⟩
        refine .last hread hd hstr hline hlast (ih _ hless (hh.last hread) out ?_ rfl)
        rw [matching_open hnone] at hnext
        rw [List.take_zero, List.nil_append, matching_open hlast]
        exact hnext.symm
    · obtain ⟨rfl, extra, hne, ho⟩ := hh.overshoot hread hd hstr hrun
      rw [Holds.stream hread, List.flatten_nil, List.append_nil] at ho
      exact absurd (List.self_eq_append_right.mp ho) hne

end

theorem grep_prints_matching_iff {buf : List Nat} {chunks : List (List Nat)}
    (hbuf : buf.length = bufSize) (hchunks : ∀ d ∈ chunks, d ≠ []) (hnul : 0 ∉ chunks.flatten) :
    (∀ pattern, grep pattern buf chunks = some (matching pattern chunks.flatten)) ↔
      Clean buf 0 chunks := by
  have hh : Holds buf buf 0 chunks :=
    ⟨hbuf, Erased.refl buf, by decide, by simp, by simpa using hnul, hchunks⟩
  constructor
  · intro h
    exact Clean.of_prints hh [] (h [])
  · intro h pattern
    exact h.prints pattern hh []

def freshBuf : List Nat := List.replicate bufSize 0

theorem clean_fresh : Clean freshBuf 0 [[97, 10, 98], [99, 10]] := by
  have hfirst : fdRead [[97, 10, 98], [99, 10]] (bufSize - 0) = ([97, 10, 98], [[99, 10]]) := rfl
  have hsecond : fdRead [[99, 10]] (bufSize - 1) = ([99, 10], []) := rfl
  refine .lines hfirst (by decide) (by decide +kernel) (by decide +kernel) ?_
  refine .lines hsecond (by decide) (by decide +kernel) (by decide +kernel) ?_
  exact .eof rfl

theorem grep_prints_split_line :
    grep [98] freshBuf [[97, 10, 98], [99, 10]] = some [98, 99, 10] := by
  have hsize : freshBuf.length = bufSize := List.length_replicate
  have hall := (grep_prints_matching_iff hsize (by decide) (by decide)).mpr clean_fresh
  have hline : matching [98] [97, 10, 98, 99, 10] = [98, 99, 10] := by decide +kernel
  exact (hall [98]).trans (congrArg some hline)

theorem grep_loses_line_start : ¬ ∀ (pattern : List Nat) (chunks : List (List Nat)),
    (∀ d ∈ chunks, d ≠ []) → 0 ∉ chunks.flatten →
      (∀ l ∈ lines newline chunks.flatten, l.length < bufSize) →
      (rest newline chunks.flatten).length < bufSize →
      grep pattern freshBuf chunks = some (matching pattern chunks.flatten) := by
  intro h
  -- The pattern "a" and the line "ab", read as "a" and "b\n".
  have hrun := h [97] [[97], [98, 10]] (by decide) (by decide) (by decide) (by decide)
  exact absurd hrun (by decide +kernel)

end Grep
end Xv6
