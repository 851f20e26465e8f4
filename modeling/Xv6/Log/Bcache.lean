import Mathlib.Data.List.FinRange
import Mathlib.Tactic
import Xv6.Param

namespace Xv6

abbrev Block := Fin 128 → Int

abbrev Disk := Nat → Block

-- No sector stands for a buffer whose dev is still -1.
structure Buf where
  sector : Option Nat
  busy : Bool
  valid : Bool
  dirty : Bool
  data : Block

-- `order` is the list of all buffers, most recently used first.
structure Bcache where
  buf : Fin nbuf → Buf
  order : List (Fin nbuf)

namespace Bcache

def binit : Bcache where
  buf := fun _ => ⟨none, false, false, false, fun _ => 0⟩
  order := (List.finRange nbuf).reverse

def set (c : Bcache) (i : Fin nbuf) (b : Buf) : Bcache := { c with buf := Function.update c.buf i b }

@[simp] theorem set_buf (c : Bcache) (i j : Fin nbuf) (b : Buf) :
    (c.set i b).buf j = if j = i then b else c.buf j := by
  by_cases h : j = i
  · subst h; simp [set]
  · simp [set, h]

def cached (c : Bcache) (s : Nat) : Option (Fin nbuf) :=
  c.order.find? fun i => decide ((c.buf i).sector = some s)

def recyclable (c : Bcache) : Option (Fin nbuf) :=
  c.order.reverse.find? fun i => !(c.buf i).busy && !(c.buf i).dirty

def bget (c : Bcache) (s : Nat) : Option (Fin nbuf × Bcache) :=
  match c.cached s with
  | some i => if (c.buf i).busy then none else some (i, c.set i { c.buf i with busy := true })
  | none => c.recyclable.map fun i => (i, c.set i ⟨some s, true, false, false, (c.buf i).data⟩)

def bread (disk : Disk) (c : Bcache) (s : Nat) : Option (Fin nbuf × Bcache) :=
  (c.bget s).map fun x =>
    if (x.2.buf x.1).valid then x
    else (x.1, x.2.set x.1 { x.2.buf x.1 with valid := true, dirty := false, data := disk s })

def brelse (c : Bcache) (i : Fin nbuf) : Bcache :=
  { (c.set i { c.buf i with busy := false }) with order := i :: c.order.erase i }

def written (c : Bcache) (i : Fin nbuf) (d : Block) : Bcache :=
  c.set i { c.buf i with data := d, valid := true, dirty := false }

structure Coherent (c : Bcache) (disk : Disk) (start : Nat) : Prop where
  complete : ∀ i, i ∈ c.order
  unique : ∀ i j s, (c.buf i).sector = some s → (c.buf j).sector = some s → i = j
  agree : ∀ i s, (c.buf i).sector = some s → (c.buf i).valid = true → start ≤ s →
    (c.buf i).data = disk s

theorem binit_coherent (disk : Disk) (start : Nat) : binit.Coherent disk start :=
  ⟨fun i => by simp [binit], fun i j s hi => by simp [binit] at hi,
    fun i s hi => by simp [binit] at hi⟩

variable {c c' : Bcache} {disk : Disk} {start s : Nat} {i : Fin nbuf}

theorem cached_some (h : c.cached s = some i) : (c.buf i).sector = some s := by
  unfold cached at h
  simpa using List.find?_some h

theorem Coherent.cached_none (h : c.Coherent disk start) (hn : c.cached s = none) (j : Fin nbuf) :
    (c.buf j).sector ≠ some s := by
  have := List.find?_eq_none.mp hn j (h.complete j)
  simpa using this

theorem Coherent.fill (h : c.Coherent disk start) {b : Buf} (hs : b.sector = (c.buf i).sector)
    (hb : ∀ t, b.sector = some t → b.valid = true → start ≤ t → b.data = disk t) :
    (c.set i b).Coherent disk start := by
  have hsector : ∀ j, ((c.set i b).buf j).sector = (c.buf j).sector := by
    intro j
    by_cases hj : j = i
    · subst hj; simpa using hs
    · simp [hj]
  refine ⟨h.complete, fun j k t hj hk => ?_, fun j t hj hv ht => ?_⟩
  · rw [hsector] at hj hk
    exact h.unique j k t hj hk
  · by_cases hji : j = i
    · subst hji
      simpa using hb t (by simpa using hj) (by simpa using hv) ht
    · simpa [hji] using h.agree j t (by simpa [hji] using hj) (by simpa [hji] using hv) ht

theorem Coherent.set_flags (h : c.Coherent disk start) (i : Fin nbuf) (busy dirty : Bool) :
    (c.set i { c.buf i with busy := busy, dirty := dirty }).Coherent disk start :=
  h.fill rfl fun t => h.agree i t

theorem Coherent.brelse (h : c.Coherent disk start) (i : Fin nbuf) :
    (c.brelse i).Coherent disk start := by
  obtain ⟨_, hunique, hagree⟩ := h.set_flags i false (c.buf i).dirty
  refine ⟨fun j => ?_, hunique, hagree⟩
  by_cases hj : j = i
  · subst hj; exact List.mem_cons_self
  · exact List.mem_cons_of_mem i ((List.mem_erase_of_ne hj).mpr (h.complete j))

structure Reads (disk : Disk) (start : Nat) (c : Bcache) (s : Nat) (i : Fin nbuf) (c' : Bcache) :
    Prop where
  free : (c.buf i).busy = false
  busy : (c'.buf i).busy = true
  clean : (c.buf i).dirty = false → (c'.buf i).dirty = false
  coherent : c'.Coherent disk start
  sector : (c'.buf i).sector = some s
  valid : (c'.buf i).valid = true
  data : start ≤ s → (c'.buf i).data = disk s
  other : ∀ j, j ≠ i → c'.buf j = c.buf j

theorem recyclable_some (h : c.recyclable = some i) : (c.buf i).busy = false := by
  have := List.find?_some h
  simp only [Bool.and_eq_true, Bool.not_eq_true'] at this
  exact this.1

theorem bget_free (hg : c.bget s = some (i, c')) : (c.buf i).busy = false ∧
    (c'.buf i).busy = true ∧ ((c.buf i).dirty = false → (c'.buf i).dirty = false) := by
  unfold bget at hg
  split at hg
  · split at hg <;> cases hg
    rename_i hbusy
    exact ⟨by simpa using hbusy, by simp, by simp⟩
  · obtain ⟨k, hk, hx⟩ := Option.map_eq_some_iff.mp hg
    cases hx
    exact ⟨recyclable_some hk, by simp, by simp⟩

theorem bget_coherent (h : c.Coherent disk start) (hg : c.bget s = some (i, c')) :
    c'.Coherent disk start ∧ (c'.buf i).sector = some s ∧ ∀ j, j ≠ i → c'.buf j = c.buf j := by
  unfold bget at hg
  split at hg
  · rename_i k hk
    split at hg <;> cases hg
    refine ⟨h.set_flags i true (c.buf i).dirty, by simpa using cached_some hk, fun j hj => ?_⟩
    simp [hj]
  · rename_i hn
    obtain ⟨k, _, hx⟩ := Option.map_eq_some_iff.mp hg
    cases hx
    have hsector : ∀ j t, ((c.set i ⟨some s, true, false, false, (c.buf i).data⟩).buf j).sector =
        some t → j = i ∧ t = s ∨ j ≠ i ∧ (c.buf j).sector = some t := by
      intro j t hj
      by_cases hji : j = i
      · subst hji
        exact Or.inl ⟨rfl, by simpa using hj.symm⟩
      · exact Or.inr ⟨hji, by simpa [hji] using hj⟩
    refine ⟨⟨h.complete, fun a b t ha hb => ?_, fun a t ha hv ht => ?_⟩, by simp, fun j hj => ?_⟩
    · rcases hsector a t ha with ⟨hai, hts⟩ | ⟨_, ha⟩ <;>
        rcases hsector b t hb with ⟨hbi, hts⟩ | ⟨_, hb⟩
      · exact hai.trans hbi.symm
      · exact absurd hb (hts ▸ h.cached_none hn b)
      · exact absurd ha (hts ▸ h.cached_none hn a)
      · exact h.unique a b t ha hb
    · rcases hsector a t ha with ⟨rfl, _⟩ | ⟨hai, ha⟩
      · simp at hv
      · simpa [hai] using h.agree a t ha (by simpa [hai] using hv) ht
    · simp [hj]

theorem bread_reads (h : c.Coherent disk start) (hr : c.bread disk s = some (i, c')) :
    Reads disk start c s i c' := by
  obtain ⟨⟨k, c1⟩, hg, hx⟩ := Option.map_eq_some_iff.mp hr
  obtain ⟨hc1, hsector, hother⟩ := bget_coherent h hg
  obtain ⟨hfree, hbusy, hclean⟩ := bget_free hg
  dsimp only at hx
  split at hx
  · rename_i hv
    cases hx
    exact ⟨hfree, hbusy, hclean, hc1, hsector, hv, hc1.agree i s hsector hv, hother⟩
  · cases hx
    refine ⟨hfree, by simpa using hbusy, by simp, hc1.fill rfl fun t ht _ _ => ?_,
      by simpa using hsector, by simp, by simp, fun j hj => ?_⟩
    · have ht : (c1.buf i).sector = some t := ht
      rw [hsector, Option.some.injEq] at ht
      subst ht
      rfl
    · simp [hj, hother j hj]

theorem Coherent.written (h : c.Coherent disk start) (hs : (c.buf i).sector = some s) (d : Block) :
    (c.written i d).Coherent (Function.update disk s d) start := by
  have hsector : ∀ j, ((c.written i d).buf j).sector = (c.buf j).sector := by
    intro j
    by_cases hj : j = i
    · subst hj; simp [Bcache.written]
    · simp [Bcache.written, hj]
  refine ⟨h.complete, fun j k t hj hk => ?_, fun j t hj hv ht => ?_⟩
  · rw [hsector] at hj hk
    exact h.unique j k t hj hk
  · rw [hsector] at hj
    by_cases hji : j = i
    · subst hji
      rw [hs, Option.some.injEq] at hj
      subst hj
      simp [Bcache.written]
    · have hts : t ≠ s := by
        rintro rfl
        exact hji (h.unique j i t hj hs)
      rw [Function.update_of_ne hts]
      simpa [Bcache.written, hji] using
        h.agree j t hj (by simpa [Bcache.written, hji] using hv) ht

theorem Coherent.bread_some (h : c.Coherent disk start)
    (hs : ∀ i, (c.buf i).sector = some s → (c.buf i).busy = false)
    (hr : ∃ i, (c.buf i).busy = false ∧ (c.buf i).dirty = false) :
    ∃ i c', c.bread disk s = some (i, c') := by
  have hget : (c.bget s).isSome := by
    unfold bget
    split
    · rename_i i hi
      rw [hs i (cached_some hi)]
      rfl
    · obtain ⟨i, hbusy, hdirty⟩ := hr
      rw [Option.isSome_map, recyclable, List.find?_isSome]
      exact ⟨i, List.mem_reverse.mpr (h.complete i), by simp [hbusy, hdirty]⟩
  obtain ⟨x, hx⟩ := Option.isSome_iff_exists.mp hget
  exact ⟨_, _, by rw [bread, hx]; rfl⟩

def Quiet (c : Bcache) : Prop := ∀ i, (c.buf i).busy = false ∧ (c.buf i).dirty = false

theorem binit_quiet : binit.Quiet := fun _ => ⟨rfl, rfl⟩

theorem Coherent.bread_quiet (h : c.Coherent disk start) (hq : c.Quiet) (s : Nat) :
    ∃ i c', c.bread disk s = some (i, c') :=
  h.bread_some (fun i _ => (hq i).1) ⟨0, hq 0⟩

theorem brelse_buf (c : Bcache) (i j : Fin nbuf) :
    (c.brelse i).buf j = if j = i then { c.buf i with busy := false } else c.buf j :=
  c.set_buf i j _

theorem written_buf (c : Bcache) (i j : Fin nbuf) (d : Block) : (c.written i d).buf j =
    if j = i then { c.buf i with data := d, valid := true, dirty := false } else c.buf j :=
  c.set_buf i j _

theorem brelse_quiet (ho : ∀ j, j ≠ i → (c.buf j).busy = false ∧ (c.buf j).dirty = false)
    (hi : (c.buf i).dirty = false) : (c.brelse i).Quiet := by
  intro j
  rw [brelse_buf]
  split
  · exact ⟨rfl, hi⟩
  · rename_i hj
    exact ho j hj

end Bcache
end Xv6
