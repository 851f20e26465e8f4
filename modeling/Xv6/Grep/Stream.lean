import Xv6.Grep.Match
import Xv6.Lib.Bytes
import Xv6.Lib.Lines

namespace Xv6
namespace Grep

open Bytes (splice)
open Lines (lines rest)

def newline : Nat := 10

def bufSize : Nat := 1024

-- A string is read until its NUL; `none` is an access behind the end of the array.
def strchr (c : Nat) : List Nat → Option (Option Nat)
  | [] => none
  | x :: s =>
    if x = 0 then some none
    else if x = c then some (some 0)
    else (strchr c s).map (Option.map (· + 1))

def memmove (buf : List Nat) (dst src : Nat) : Nat → Option (List Nat)
  | 0 => some buf
  | n + 1 =>
    match buf[src]? with
    | none => none
    | some x =>
      if dst < buf.length then memmove (buf.set dst x) (dst + 1) (src + 1) n else none

def fdRead (chunks : List (List Nat)) (n : Nat) : List Nat × List (List Nat) :=
  match chunks with
  | [] => ([], [])
  | d :: later => if d.length ≤ n then (d, later) else (d.take n, d.drop n :: later)

theorem strchr_some {c k : Nat} {s : List Nat} (h : strchr c s = some (some k)) :
    ∃ l t, s = l ++ c :: t ∧ k = l.length ∧ 0 ∉ l ∧ c ∉ l := by
  induction s generalizing k with
  | nil => simp [strchr] at h
  | cons x s ih =>
    rw [strchr] at h
    split_ifs at h with h0 hc
    · cases h
    · cases h
      exact ⟨[], s, by rw [hc]; rfl, rfl, by simp, by simp⟩
    · obtain ⟨o, ho, heq⟩ := Option.map_eq_some_iff.mp h
      obtain ⟨j, rfl, rfl⟩ := Option.map_eq_some_iff.mp heq
      obtain ⟨l, t, rfl, rfl, hl0, hlc⟩ := ih ho
      refine ⟨x :: l, t, rfl, rfl, ?_, ?_⟩
      · rintro (_ | ⟨_, h⟩)
        · exact h0 rfl
        · exact hl0 h
      · rintro (_ | ⟨_, h⟩)
        · exact hc rfl
        · exact hlc h

theorem strchr_lt {c k : Nat} {s : List Nat} (h : strchr c s = some (some k)) : k < s.length := by
  obtain ⟨l, t, rfl, rfl, -, -⟩ := strchr_some h
  simp

theorem fdRead_flatten (chunks : List (List Nat)) (n : Nat) :
    (fdRead chunks n).1 ++ (fdRead chunks n).2.flatten = chunks.flatten := by
  cases chunks with
  | nil => rfl
  | cons d later =>
    rw [fdRead]
    split
    · rfl
    · rw [List.flatten_cons, ← List.append_assoc, List.take_append_drop, List.flatten_cons]

def searchLines (pattern buf : List Nat) (p : Nat) (out : List Nat) :
    Option (List Nat × Nat × List Nat) :=
  match h : strchr newline (buf.drop p) with
  | none => none
  | some none => some (buf, p, out)
  | some (some k) =>
    let ended := buf.set (p + k) 0
    if matchRe pattern ((ended.drop p).takeWhile (· ≠ 0)) then
      let restored := ended.set (p + k) newline
      searchLines pattern restored (p + k + 1) (out ++ (restored.drop p).take (k + 1))
    else searchLines pattern ended (p + k + 1) out
termination_by buf.length - p
decreasing_by
  all_goals
    have hlt := strchr_lt h
    rw [List.length_drop] at hlt
    simp only [List.length_set]
    omega

def grepLoop (pattern buf : List Nat) (m : Int) (chunks : List (List Nat)) (out : List Nat) :
    Option (List Nat) :=
  match _hread : fdRead chunks (bufSize - m).toNat with
  | ([], _) => some out
  | (x :: d, later) =>
    -- The bytes read are stored in front of the array.
    if m < 0 then none
    else
      match searchLines pattern (splice buf m.toNat (x :: d)) 0 out with
      | none => none
      | some (buf, p, out) =>
        if p = 0 then grepLoop pattern buf 0 later out
        else
          match memmove buf 0 p (m + (x :: d).length - p).toNat with
          | none => none
          | some buf => grepLoop pattern buf (m + (x :: d).length - p) later out
termination_by chunks.flatten.length
decreasing_by
  all_goals
    have hlen := congrArg List.length (fdRead_flatten chunks (bufSize - m).toNat)
    rw [show fdRead chunks _ = _ from _hread, List.length_append, List.length_cons] at hlen
    dsimp only at hlen
    omega

def grep (pattern buf : List Nat) (chunks : List (List Nat)) : Option (List Nat) :=
  grepLoop pattern buf 0 chunks []

-- The lines of a stream that a newline ends and that match.
def matching (pattern s : List Nat) : List Nat :=
  ((lines newline s).filter (matchRe pattern)).flatMap (· ++ [newline])

theorem strchr_append {c : Nat} {l s : List Nat} (h0 : 0 ∉ l) (hc : c ∉ l) :
    strchr c (l ++ s) = (strchr c s).map (Option.map (· + l.length)) := by
  induction l with
  | nil => simp
  | cons x l ih =>
    obtain ⟨hx0, hl0⟩ := not_or.mp (mt List.mem_cons.mpr h0)
    obtain ⟨hxc, hlc⟩ := not_or.mp (mt List.mem_cons.mpr hc)
    rw [List.cons_append, strchr, if_neg (Ne.symm hx0), if_neg (Ne.symm hxc), ih hl0 hlc,
      Option.map_map]
    congr 1
    funext o
    cases o with
    | none => rfl
    | some k => simp [Nat.add_assoc]

theorem strchr_line {c : Nat} {l s : List Nat} (hnul : c ≠ 0) (h0 : 0 ∉ l) (hc : c ∉ l) :
    strchr c (l ++ c :: s) = some (some l.length) := by
  rw [strchr_append h0 hc, strchr, if_neg hnul, if_pos rfl]
  simp

theorem memmove_eq {buf : List Nat} {dst src n : Nat} (hle : dst ≤ src)
    (hin : src + n ≤ buf.length) :
    memmove buf dst src n =
      some (buf.take dst ++ ((buf.drop src).take n ++ buf.drop (dst + n))) := by
  induction n generalizing buf dst src with
  | zero => simp [memmove]
  | succ n ih =>
    have hsrc : src < buf.length := by omega
    rw [memmove, List.getElem?_eq_getElem hsrc]
    simp only [if_pos (show dst < buf.length by omega)]
    rw [ih (by omega) (by rw [List.length_set]; omega), List.take_succ_eq_append_getElem
      (by rw [List.length_set]; omega), List.getElem_set_self, List.take_set_of_le le_rfl,
      List.drop_set_of_lt (by omega), List.drop_set_of_lt (by omega),
      List.drop_eq_getElem_cons hsrc, List.take_succ_cons]
    simp [Nat.add_assoc, Nat.add_comm 1]

def mark (pattern l : List Nat) : Nat := if matchRe pattern l then newline else 0

def printed (pattern l : List Nat) : List Nat :=
  if matchRe pattern l then l ++ [newline] else []

theorem matching_open {pattern t : List Nat} (h : newline ∉ t) : matching pattern t = [] := by
  rw [matching, Lines.lines_open h]
  rfl

theorem matching_line {pattern l : List Nat} (h : newline ∉ l) (s : List Nat) :
    matching pattern (l ++ newline :: s) = printed pattern l ++ matching pattern s := by
  rw [matching, Lines.lines_line h, printed, List.filter_cons]
  split
  · rfl
  · rfl

theorem matching_append (pattern s t : List Nat) :
    matching pattern (s ++ t) = matching pattern s ++ matching pattern (rest newline s ++ t) := by
  rw [matching, Lines.lines_append, List.filter_append, List.flatMap_append]
  rfl

theorem searchLines_line {pattern pre l s out : List Nat} (h0 : 0 ∉ l) (hl : newline ∉ l) :
    searchLines pattern (pre ++ (l ++ newline :: s)) pre.length out =
      searchLines pattern (pre ++ (l ++ mark pattern l :: s)) (pre.length + l.length + 1)
        (out ++ printed pattern l) := by
  have hset : ∀ x y, (pre ++ (l ++ x :: s)).set (pre.length + l.length) y =
      pre ++ (l ++ y :: s) := by
    intro x y
    rw [List.set_append_right _ _ (by omega), Nat.add_sub_cancel_left,
      List.set_append_right _ _ le_rfl, Nat.sub_self, List.set_cons_zero]
  have htext : (l ++ 0 :: s).takeWhile (· ≠ 0) = l := by
    rw [List.takeWhile_append_of_pos fun x hx => by
      simpa using fun h : x = 0 => h0 (h ▸ hx)]
    simp
  have hout : (l ++ newline :: s).take (l.length + 1) = l ++ [newline] := by
    rw [List.take_append, List.take_of_length_le (by omega)]
    simp
  rw [searchLines]
  split
  case h_1 h =>
    rw [List.drop_left, strchr_line (by decide) h0 hl] at h
    cases h
  case h_2 h =>
    rw [List.drop_left, strchr_line (by decide) h0 hl] at h
    cases h
  case h_3 k h =>
    rw [List.drop_left, strchr_line (by decide) h0 hl] at h
    cases h
    simp only [hset, List.drop_left, htext, hout, mark, printed]
    split
    · rfl
    · rw [List.append_nil]

theorem searchLines_stop {pattern pre s out : List Nat} (h : strchr newline s = some none) :
    searchLines pattern (pre ++ s) pre.length out = some (pre ++ s, pre.length, out) := by
  rw [searchLines]
  split
  case h_1 h' => rw [List.drop_left, h] at h'; cases h'
  case h_2 h' => rfl
  case h_3 k h' => rw [List.drop_left, h] at h'; cases h'

theorem searchLines_outside {pattern pre s out : List Nat} (h : strchr newline s = none) :
    searchLines pattern (pre ++ s) pre.length out = none := by
  rw [searchLines]
  split
  case h_1 h' => rfl
  case h_2 h' => rw [List.drop_left, h] at h'; cases h'
  case h_3 k h' => rw [List.drop_left, h] at h'; cases h'

def marked (pattern s : List Nat) : List Nat :=
  (lines newline s).flatMap fun l => l ++ [mark pattern l]

theorem marked_length (pattern s : List Nat) :
    (marked pattern s).length + (rest newline s).length = s.length := by
  have h := congrArg List.length (Lines.join_lines newline s)
  rw [List.length_append, List.length_flatMap] at h
  rw [marked, List.length_flatMap]
  simpa using h

theorem searchLines_data {pattern pre v behind out : List Nat} (h0 : 0 ∉ v) :
    searchLines pattern (pre ++ (v ++ behind)) pre.length out =
      searchLines pattern ((pre ++ marked pattern v) ++ (rest newline v ++ behind))
        (pre ++ marked pattern v).length (out ++ matching pattern v) := by
  induction v using Lines.induction_on newline generalizing pre out with
  | hopen v hv =>
    rw [matching_open hv, marked, Lines.lines_open hv, Lines.rest_open hv]
    simp
  | hline l s hl ih =>
    have hl0 : 0 ∉ l := fun h => h0 (List.mem_append_left _ h)
    have hs0 : 0 ∉ s := fun h => h0 (List.mem_append_right _ (List.mem_cons_of_mem _ h))
    have hmarked : marked pattern (l ++ newline :: s) =
        l ++ mark pattern l :: marked pattern s := by
      rw [marked, Lines.lines_line hl, List.flatMap_cons]
      simp [marked]
    have hpre : pre.length + l.length + 1 = (pre ++ (l ++ [mark pattern l])).length := by
      simp [Nat.add_assoc]
    have hbuf : pre ++ (l ++ mark pattern l :: (s ++ behind)) =
        (pre ++ (l ++ [mark pattern l])) ++ (s ++ behind) := by simp
    rw [List.append_assoc, List.cons_append, searchLines_line hl0 hl, hpre, hbuf, ih hs0, hmarked,
      Lines.rest_line hl, matching_line hl]
    simp

end Grep
end Xv6
