import Mathlib.Data.List.GetD
import Mathlib.Data.List.Range
import Mathlib.Tactic

namespace Bytes

def slice (b : Nat → Nat) (off n : Nat) : List Nat := (List.range n).map fun i => b (off + i)

def patch (b : Nat → Nat) (off : Nat) (l : List Nat) : Nat → Nat := fun k =>
  if off ≤ k ∧ k < off + l.length then l.getD (k - off) 0 else b k

variable {b : Nat → Nat} {off : Nat} {l : List Nat}

@[simp] theorem slice_length (b : Nat → Nat) (off n : Nat) : (slice b off n).length = n := by
  simp [slice]

theorem patch_inside {i : Nat} (h : i < l.length) : patch b off l (off + i) = l.getD i 0 := by
  simp [patch, h]

theorem patch_outside {k : Nat} (h : k < off ∨ off + l.length ≤ k) : patch b off l k = b k := by
  rw [patch, if_neg]
  omega

theorem slice_patch_self (b : Nat → Nat) (off : Nat) (l : List Nat) :
    slice (patch b off l) off l.length = l := by
  refine List.ext_getElem (by simp) fun i hi hi' => ?_
  simp only [slice, List.getElem_map, List.getElem_range]
  rw [patch_inside hi']
  simp [hi']

theorem slice_congr {b' : Nat → Nat} {n : Nat} (h : ∀ i < n, b' (off + i) = b (off + i)) :
    slice b' off n = slice b off n :=
  List.map_congr_left fun i hi => h i (List.mem_range.mp hi)

theorem slice_patch_disjoint {pos n : Nat} (h : pos + n ≤ off ∨ off + l.length ≤ pos) :
    slice (patch b off l) pos n = slice b pos n :=
  slice_congr fun i hi => patch_outside (by omega)

theorem slice_append (b : Nat → Nat) (off m n : Nat) :
    slice b off (m + n) = slice b off m ++ slice b (off + m) n := by
  simp [slice, List.range_add, Nat.add_assoc]

theorem slice_take (b : Nat → Nat) (off : Nat) {m n : Nat} (h : m ≤ n) :
    (slice b off n).take m = slice b off m := by
  obtain ⟨k, rfl⟩ := Nat.exists_eq_add_of_le h
  rw [slice_append, List.take_left' (slice_length ..)]

theorem slice_drop (b : Nat → Nat) (off : Nat) {m n : Nat} (h : m ≤ n) :
    (slice b off n).drop m = slice b (off + m) (n - m) := by
  obtain ⟨k, rfl⟩ := Nat.exists_eq_add_of_le h
  rw [slice_append, List.drop_left' (slice_length ..), Nat.add_sub_cancel_left]

def splice (l : List Nat) (off : Nat) (src : List Nat) : List Nat :=
  l.take off ++ (src ++ l.drop (off + src.length))

theorem slice_eq_splice {b' : Nat → Nat} {src : List Nat} {size : Nat} (hoff : off ≤ size)
    (hin : ∀ i < src.length, b' (off + i) = src.getD i 0)
    (hout : ∀ k < size, k < off ∨ off + src.length ≤ k → b' k = b k) :
    slice b' 0 (max size (off + src.length)) = splice (slice b 0 size) off src := by
  have hsrc : slice b' off src.length = src := by
    refine List.ext_getElem (by simp) fun i hi hi' => ?_
    simp only [slice, List.getElem_map, List.getElem_range]
    rw [hin i hi', List.getD_eq_getElem _ _ hi']
  have hlow : slice b' 0 off = slice b 0 off := slice_congr fun i hi =>
    hout _ (by omega) (by omega)
  have hlen : max size (off + src.length) =
      off + (src.length + (size - (off + src.length))) := by omega
  rw [splice, slice_take b 0 hoff, hlen, slice_append, slice_append, hlow, Nat.zero_add, hsrc]
  rcases Nat.le_total (off + src.length) size with hle | hle
  · rw [slice_drop b 0 hle, Nat.zero_add]
    congr 2
    exact slice_congr fun i hi => hout _ (by omega) (by omega)
  · rw [List.drop_of_length_le (by simpa using hle), Nat.sub_eq_zero_of_le hle]
    rfl

theorem splice_getElem? {src : List Nat} (hoff : off ≤ l.length) (k : Nat) :
    (splice l off src)[k]? =
      if off ≤ k ∧ k < off + src.length then src[k - off]? else l[k]? := by
  have hlen : (l.take off).length = off := by rw [List.length_take]; omega
  rw [splice, List.getElem?_append, List.getElem?_append, hlen, List.getElem?_take,
    List.getElem?_drop]
  split
  · rw [if_neg (by omega)]
  · split
    · rw [if_pos (by omega)]
    · rw [if_neg (by omega)]
      congr 1
      omega

theorem splice_here {src : List Nat} (hoff : off ≤ l.length) :
    ((splice l off src).drop off).take src.length = src := by
  rw [splice, List.drop_left' (by rw [List.length_take]; omega), List.take_left' rfl]

theorem splice_apart {src : List Nat} {a m : Nat} (hoff : off ≤ l.length)
    (h : a + m ≤ off ∨ off + src.length ≤ a) :
    ((splice l off src).drop a).take m = (l.drop a).take m := by
  refine List.ext_getElem? fun k => ?_
  rw [List.getElem?_take, List.getElem?_take, List.getElem?_drop, List.getElem?_drop,
    splice_getElem? hoff]
  split
  · rw [if_neg (by omega)]
  · rfl

def toBytes : Nat → Nat → List Nat
  | 0, _ => []
  | n + 1, v => v % 256 :: toBytes n (v / 256)

def ofBytes : List Nat → Nat
  | [] => 0
  | x :: l => x + 256 * ofBytes l

@[simp] theorem toBytes_length (n v : Nat) : (toBytes n v).length = n := by
  induction n generalizing v with
  | zero => rfl
  | succ n ih => simp [toBytes, ih]

theorem ofBytes_toBytes {n v : Nat} (h : v < 256 ^ n) : ofBytes (toBytes n v) = v := by
  induction n generalizing v with
  | zero =>
    simp only [Nat.pow_zero] at h
    simp only [toBytes, ofBytes]
    omega
  | succ n ih =>
    have hdiv : v / 256 < 256 ^ n := Nat.div_lt_of_lt_mul (by rw [Nat.pow_succ'] at h; exact h)
    rw [toBytes, ofBytes, ih hdiv]
    omega

theorem drop_field {a b : List Nat} {n : Nat} (k : Nat) (h : a.length = n) :
    (a ++ b).drop (n + k) = b.drop k := by
  rw [← List.drop_drop, List.drop_left' h]

theorem flatten_at {w i : Nat} {ls : List (List Nat)} {l : List Nat} (hw : ∀ l ∈ ls, l.length = w)
    (hl : ls[i]? = some l) : (ls.flatten.drop (w * i)).take w = l := by
  induction ls generalizing i with
  | nil => cases hl
  | cons a ls ih =>
    have ha := hw a List.mem_cons_self
    cases i with
    | zero =>
      obtain rfl : a = l := Option.some.inj hl
      rw [Nat.mul_zero, List.drop_zero, List.flatten_cons, List.take_left' ha]
    | succ i =>
      rw [Nat.mul_succ, Nat.add_comm, List.flatten_cons, drop_field _ ha]
      exact ih (fun l hl => hw l (List.mem_cons_of_mem _ hl)) hl

def words (w : Nat) (f : Nat → Nat) (n : Nat) : List Nat :=
  (List.range n).flatMap fun i => toBytes w (f i)

@[simp] theorem words_length (w : Nat) (f : Nat → Nat) (n : Nat) :
    (words w f n).length = w * n := by
  induction n with
  | zero => rfl
  | succ n ih =>
    rw [words] at ih ⊢
    rw [List.range_succ, List.flatMap_append, List.length_append, ih, Nat.mul_succ]
    simp

theorem words_at (w : Nat) (f : Nat → Nat) {i n : Nat} (h : i < n) :
    ((words w f n).drop (w * i)).take w = toBytes w (f i) := by
  rw [words, List.flatMap_def]
  refine flatten_at (fun l hl => ?_) ?_
  · obtain ⟨k, -, rfl⟩ := List.mem_map.mp hl
    exact toBytes_length ..
  · rw [List.getElem?_map, List.getElem?_range h, Option.map_some]

theorem ofBytes_zero (n : Nat) : ofBytes (List.replicate n 0) = 0 := by
  induction n with
  | zero => rfl
  | succ n ih => simp [List.replicate_succ, ofBytes, ih]

theorem slice_zero (off n : Nat) : slice (fun _ => 0) off n = List.replicate n 0 := by
  simp [slice]

end Bytes
