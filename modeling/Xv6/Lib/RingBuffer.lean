import Mathlib.Logic.Function.Basic
import Mathlib.Tactic

namespace RingBuffer

variable {α : Type} {N start count : Int}

def entries (N : Int) (f : Int → α) (start count : Int) : List α :=
  (List.range count.toNat).map (fun k : Nat => f ((start + (k : Int)) % N))

theorem slot_injective {j k : Int} (hj : 0 ≤ j) (hjN : j < N) (hk : 0 ≤ k) (hkN : k < N)
    (h : (start + j) % N = (start + k) % N) : j = k := by
  have hd : (j - k) % N = 0 := by
    rw [show j - k = start + j - (start + k) by ring, Int.sub_emod, h]
    simp
  obtain ⟨c, hc⟩ := Int.dvd_of_emod_eq_zero hd
  have hN : 0 < N := by omega
  rcases lt_trichotomy c 0 with hneg | hzero | hpos
  · nlinarith
  · subst hzero; omega
  · nlinarith

theorem entries_congr_start (f : Int → α) {start' : Int} (h : start % N = start' % N) :
    entries N f start count = entries N f start' count := by
  apply List.map_congr_left
  intro k _
  rw [Int.add_emod, h, ← Int.add_emod]

theorem entries_enqueue (f : Int → α) (v : α) (hc : 0 ≤ count) (hN : count < N) :
    entries N (Function.update f ((start + count) % N) v) start (count + 1) =
      entries N f start count ++ [v] := by
  have hn : (count + 1).toNat = count.toNat + 1 := by omega
  have hcount : ((count.toNat : Nat) : Int) = count := Int.toNat_of_nonneg hc
  simp only [entries, hn, List.range_succ, List.map_append, List.map_cons, List.map_nil, hcount,
    Function.update_self]
  congr 1
  apply List.map_congr_left
  intro k hk
  have hk' : k < count.toNat := List.mem_range.mp hk
  apply Function.update_of_ne
  intro he
  have hkc : (k : Int) = count := slot_injective (by omega) (by omega) hc hN he
  omega

theorem entries_append (f : Int → α) {more : Int} (hc : 0 ≤ count) (hm : 0 ≤ more) :
    entries N f start (count + more) =
      entries N f start count ++ entries N f (start + count) more := by
  have hn : (count + more).toNat = count.toNat + more.toNat := by omega
  simp only [entries, hn, List.range_add, List.map_append, List.map_map]
  congr 1
  apply List.map_congr_left
  intro k _
  simp only [Function.comp_apply, Nat.cast_add, Int.toNat_of_nonneg hc, Int.add_assoc]

theorem entries_one (f : Int → α) : entries N f start 1 = [f (start % N)] := by
  simp [entries]

theorem entries_update (f : Int → α) (v : α) {k : Int} (hk : count ≤ k) (hc : 0 ≤ k) (hN : k < N) :
    entries N (Function.update f ((start + k) % N) v) start count = entries N f start count := by
  apply List.map_congr_left
  intro j hj
  have hj' : j < count.toNat := List.mem_range.mp hj
  apply Function.update_of_ne
  intro he
  have hjk : (j : Int) = k := slot_injective (by omega) (by omega) hc hN he
  omega

theorem entries_dequeue (f : Int → α) (hc : 0 < count) :
    entries N f start count =
      f (start % N) :: entries N f ((start + 1) % N) (count - 1) := by
  have hn : count.toNat = (count - 1).toNat + 1 := by omega
  simp only [entries, hn, List.range_succ_eq_map, List.map_cons, List.map_map]
  congr 1
  · simp
  · apply List.map_congr_left
    intro k _
    simp only [Function.comp_apply, Nat.succ_eq_add_one, Nat.cast_add, Nat.cast_one,
      Int.emod_add_emod]
    ring_nf

end RingBuffer
