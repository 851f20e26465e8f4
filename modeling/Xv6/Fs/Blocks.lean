import Xv6.Fs.Basic

namespace Xv6
namespace Fs

open Bytes

theorem word_setWord_self {b : Nat → Nat} {j x : Nat} (hx : x < 2 ^ 32) :
    word (setWord b j x) j = x := by
  have hlen : (toBytes 4 x).length = 4 := toBytes_length 4 x
  have hself := slice_patch_self b (4 * j) (toBytes 4 x)
  rw [hlen] at hself
  rw [word, setWord, hself, ofBytes_toBytes (by norm_num; exact hx)]

theorem word_setWord_of_ne {b : Nat → Nat} {j j' x : Nat} (h : j' ≠ j) :
    word (setWord b j x) j' = word b j' := by
  rw [word, word, setWord, slice_patch_disjoint]
  rw [toBytes_length]
  omega

theorem word_zero (j : Nat) : word (fun _ => 0) j = 0 := by
  rw [word, slice_zero, ofBytes_zero]

abbrev nref : Nat := ndirect + 1 + nindirect

def Dinode.ref (d : Dinode) (data : Nat → Nat → Nat) (k : Nat) : Nat :=
  if k ≤ ndirect then d.addrs k
  else if d.addrs ndirect = 0 then 0
  else word (data (d.addrs ndirect)) (k - ndirect - 1)

def blockRef (bn : Nat) : Nat := if bn < ndirect then bn else bn + 1

theorem blockRef_ne (bn : Nat) : blockRef bn ≠ ndirect := by
  unfold blockRef
  split <;> omega

theorem blockRef_lt {bn : Nat} (h : bn < maxfile) : blockRef bn < nref := by
  unfold blockRef
  simp only [maxfile, nref, nindirect] at *
  split <;> omega

theorem blockRef_inj {bn bn' : Nat} (h : blockRef bn = blockRef bn') : bn = bn' := by
  unfold blockRef at h
  split at h <;> split at h <;> omega

namespace Volume

variable {sb : Superblock} {v : Volume} {j k b : Nat}

def ref (v : Volume) (j k : Nat) : Nat := (v.dinode j).ref v.data k

def byteAt (v : Volume) (j pos : Nat) : Nat :=
  v.data (v.ref j (blockRef (pos / bsize))) (pos % bsize)

def content (v : Volume) (j : Nat) : List Nat := slice (v.byteAt j) 0 (v.dinode j).size

structure Sound (sb : Superblock) (v : Volume) : Prop where
  reserved : ∀ b < sb.dataStart, v.bitmap b = true
  marked : ∀ j k, (v.dinode j).type ≠ .free → k < nref → v.ref j k ≠ 0 →
    v.bitmap (v.ref j k) = true ∧ sb.dataStart ≤ v.ref j k ∧ v.ref j k < sb.logStart
  unique : ∀ j k j' k', (v.dinode j).type ≠ .free → (v.dinode j').type ≠ .free → k < nref →
    k' < nref → v.ref j k ≠ 0 → v.ref j k = v.ref j' k' → j = j' ∧ k = k'
  whole : ∀ j bn, (v.dinode j).type ≠ .free → bn * bsize < (v.dinode j).size →
    v.ref j (blockRef bn) ≠ 0
  size : ∀ j, (v.dinode j).type ≠ .free → (v.dinode j).size ≤ maxfile * bsize

def give (v : Volume) (j k b : Nat) : Volume where
  dinode := if k ≤ ndirect then
      Function.update v.dinode j
        { v.dinode j with addrs := Function.update (v.dinode j).addrs k b }
    else v.dinode
  bitmap := Function.update v.bitmap b true
  data := if k ≤ ndirect then Function.update v.data b fun _ => 0
    else Function.update (Function.update v.data b fun _ => 0) ((v.dinode j).addrs ndirect)
      (setWord (v.data ((v.dinode j).addrs ndirect)) (k - ndirect - 1) b)

def setDinode (v : Volume) (j : Nat) (d : Dinode) : Volume :=
  { v with dinode := Function.update v.dinode j d }

def setData (v : Volume) (b : Nat) (bytes : Nat → Nat) : Volume :=
  { v with data := Function.update v.data b bytes }

theorem ref_direct (hk : k ≤ ndirect) : v.ref j k = (v.dinode j).addrs k := if_pos hk

theorem ref_indirect (hk : ndirect < k) (hind : v.ref j ndirect ≠ 0) :
    v.ref j k = word (v.data (v.ref j ndirect)) (k - ndirect - 1) := by
  rw [ref_direct le_rfl] at hind ⊢
  rw [ref, Dinode.ref, if_neg (by omega), if_neg hind]

theorem ref_none (hk : ndirect < k) (hind : v.ref j ndirect = 0) : v.ref j k = 0 := by
  rw [ref_direct le_rfl] at hind
  rw [ref, Dinode.ref, if_neg (by omega), if_pos hind]

theorem ind_of_ref (hk : ndirect < k) (href : v.ref j k ≠ 0) : v.ref j ndirect ≠ 0 :=
  fun hind => href (ref_none hk hind)

theorem ref_congr {w : Volume} (ha : (w.dinode j).addrs = (v.dinode j).addrs)
    (hd : v.ref j ndirect ≠ 0 → w.data (v.ref j ndirect) = v.data (v.ref j ndirect)) :
    w.ref j k = v.ref j k := by
  rw [ref_direct le_rfl] at hd
  unfold ref Dinode.ref
  rw [ha]
  split
  · rfl
  · split
    · rfl
    · next hind => rw [hd hind]

theorem Sound.ref_ne (h : Sound sb v) (hj : (v.dinode j).type ≠ .free) (hk : k < nref)
    (href : v.ref j k ≠ 0) (hb : v.bitmap b = false) : v.ref j k ≠ b := by
  rintro rfl
  rw [(h.marked j k hj hk href).1] at hb
  cases hb

theorem Sound.fresh_ne_zero (h : Sound sb v) (hb : v.bitmap b = false) :
    sb.dataStart ≤ b ∧ b ≠ 0 := by
  have hge : sb.dataStart ≤ b := by
    by_contra hlt
    rw [h.reserved b (by omega)] at hb
    cases hb
  refine ⟨hge, ?_⟩
  unfold Superblock.dataStart at hge
  simp only [ipb, bpb] at hge
  omega

theorem attrs_give (v : Volume) (j k b j' : Nat) :
    (v.give j k b).dinode j' =
      { v.dinode j' with addrs := ((v.give j k b).dinode j').addrs } := by
  simp only [give]
  split
  · by_cases hj : j' = j
    · rw [hj, Function.update_self]
    · rw [Function.update_of_ne hj]
  · rfl

theorem type_give (v : Volume) (j k b j' : Nat) :
    ((v.give j k b).dinode j').type = (v.dinode j').type := by rw [attrs_give]

theorem size_give (v : Volume) (j k b j' : Nat) :
    ((v.give j k b).dinode j').size = (v.dinode j').size := by rw [attrs_give]

theorem data_give {x : Nat} (hx : x ≠ b) (hind : ndirect < k → x ≠ v.ref j ndirect) :
    (v.give j k b).data x = v.data x := by
  simp only [give]
  split
  · rw [Function.update_of_ne hx]
  · next hk =>
    rw [Function.update_of_ne, Function.update_of_ne hx]
    have := hind (by omega)
    rwa [ref_direct le_rfl] at this

theorem ref_give (h : Sound sb v) (hj : (v.dinode j).type ≠ .free)
    (hnone : v.ref j k = 0) (hind : ndirect < k → v.ref j ndirect ≠ 0) (hb : v.bitmap b = false)
    (hlt : b < 2 ^ 32) {j' k' : Nat} (hj' : (v.dinode j').type ≠ .free) :
    (v.give j k b).ref j' k' = if j' = j ∧ k' = k then b else v.ref j' k' := by
  have hne : v.ref j' ndirect ≠ 0 → v.ref j' ndirect ≠ b := fun href =>
    h.ref_ne hj' (by decide) href hb
  by_cases hjj : j' = j
  · subst hjj
    rcases Nat.lt_or_ge ndirect k with hlt' | hle
    · -- The number goes into the indirect block.
      have hind' := hind hlt'
      have haddr : ((v.give j' k b).dinode j').addrs = (v.dinode j').addrs := by
        simp only [give, if_neg (Nat.not_le.mpr hlt')]
      have hindg : (v.give j' k b).ref j' ndirect = v.ref j' ndirect := by
        rw [ref_direct le_rfl, ref_direct le_rfl, haddr]
      have hdata : (v.give j' k b).data (v.ref j' ndirect) =
          setWord (v.data (v.ref j' ndirect)) (k - ndirect - 1) b := by
        rw [ref_direct le_rfl]
        simp only [give, if_neg (Nat.not_le.mpr hlt'), Function.update_self]
      rcases Nat.lt_or_ge ndirect k' with hk'' | hk''
      · rw [ref_indirect hk'' (by rw [hindg]; exact hind'), hindg, hdata]
        by_cases heq : k' = k
        · rw [heq, word_setWord_self hlt, if_pos ⟨rfl, rfl⟩]
        · rw [word_setWord_of_ne (by omega), if_neg (by omega), ref_indirect hk'' hind']
      · rw [ref_direct hk'', haddr, if_neg (by omega), ref_direct hk'']
    · have haddr : ((v.give j' k b).dinode j').addrs =
          Function.update (v.dinode j').addrs k b := by
        simp only [give, if_pos hle, Function.update_self]
      rcases Nat.lt_or_ge ndirect k' with hk'' | hk''
      · rw [if_neg (by omega)]
        rcases Nat.lt_or_eq_of_le hle with hlt' | rfl
        · have hindg : (v.give j' k b).ref j' ndirect = v.ref j' ndirect := by
            rw [ref_direct le_rfl, haddr, Function.update_of_ne (by omega), ref_direct le_rfl]
          rcases eq_or_ne (v.ref j' ndirect) 0 with hzero | hsome
          · rw [ref_none hk'' hzero, ref_none hk'' (by rw [hindg, hzero])]
          · rw [ref_indirect hk'' hsome, ref_indirect hk'' (by rw [hindg]; exact hsome), hindg,
              data_give (hne hsome) (fun hgt => by omega)]
        · -- The indirect block itself is new, and all numbers in it are 0.
          have hindg : (v.give j' ndirect b).ref j' ndirect = b := by
            rw [ref_direct le_rfl, haddr, Function.update_self]
          have hdata : (v.give j' ndirect b).data b = fun _ => 0 := by
            simp only [give, if_pos le_rfl, Function.update_self]
          have hb0 := (h.fresh_ne_zero hb).2
          rw [ref_indirect hk'' (by rw [hindg]; exact hb0), hindg, hdata, word_zero,
            ref_none hk'' hnone]
      · rw [ref_direct hk'', haddr, ref_direct hk'', Function.update_apply]
        simp
  · rw [if_neg (by tauto)]
    refine ref_congr ?_ fun href => data_give (hne href) fun hlt' heq => ?_
    · simp only [give]
      split
      · rw [Function.update_of_ne hjj]
      · rfl
    · exact hjj (h.unique j' ndirect j ndirect hj' hj (by decide) (by decide) href heq).1

theorem Sound.give (h : Sound sb v) (hj : (v.dinode j).type ≠ .free)
    (hnone : v.ref j k = 0) (hind : ndirect < k → v.ref j ndirect ≠ 0) (hb : v.bitmap b = false)
    (hlog : b < sb.logStart) (hlt : b < 2 ^ 32) : Sound sb (v.give j k b) := by
  have href : ∀ {j' k'}, ((v.give j k b).dinode j').type ≠ .free →
      (v.give j k b).ref j' k' = if j' = j ∧ k' = k then b else v.ref j' k' := fun hj' =>
    ref_give h hj hnone hind hb hlt (by rwa [type_give] at hj')
  have hfree : ∀ {j' k'}, (v.dinode j').type ≠ .free → k' < nref → v.ref j' k' ≠ 0 →
      v.ref j' k' ≠ b := fun hj' hk' hne => h.ref_ne hj' hk' hne hb
  have hb0 := h.fresh_ne_zero hb
  refine ⟨fun x hx => ?_, fun j' k' hj' hk' hne => ?_, fun j₁ k₁ j₂ k₂ hj₁ hj₂ hk₁ hk₂ hne heq => ?_,
    fun j' bn hj' hbn => ?_, fun j' hj' => ?_⟩
  · simp only [Volume.give, Function.update_apply]
    split
    · rfl
    · exact h.reserved x hx
  · rw [href hj'] at hne ⊢
    rw [type_give] at hj'
    split at hne
    · next heq =>
      rw [if_pos heq]
      exact ⟨Function.update_self .., hb0.1, hlog⟩
    · next hneq =>
      rw [if_neg hneq]
      have hm := h.marked j' k' hj' hk' hne
      refine ⟨?_, hm.2⟩
      simp only [Volume.give]
      rw [Function.update_of_ne (hfree hj' hk' hne), hm.1]
  · rw [href hj₁] at hne heq
    rw [href hj₂] at heq
    rw [type_give] at hj₁ hj₂
    split at heq
    · next h₁ =>
      split at heq
      · next h₂ => exact ⟨h₁.1.trans h₂.1.symm, h₁.2.trans h₂.2.symm⟩
      · exact absurd heq.symm (hfree hj₂ hk₂ (by rw [← heq]; exact hb0.2))
    · next h₁ =>
      rw [if_neg h₁] at hne
      split at heq
      · exact absurd heq (hfree hj₁ hk₁ hne)
      · exact h.unique j₁ k₁ j₂ k₂ hj₁ hj₂ hk₁ hk₂ hne heq
  · rw [href hj']
    split
    · exact hb0.2
    · rw [type_give] at hj'
      rw [size_give] at hbn
      exact h.whole j' bn hj' hbn
  · rw [type_give] at hj'
    rw [size_give]
    exact h.size j' hj'

structure Grows (v v' : Volume) (j : Nat) (K : Nat → Prop) : Prop where
  attrs : ∀ j', v'.dinode j' = { v.dinode j' with addrs := (v'.dinode j').addrs }
  dinode : ∀ j', j' ≠ j → v'.dinode j' = v.dinode j'
  kept : ∀ j' k, (v.dinode j').type ≠ .free → k < nref → v.ref j' k ≠ 0 → v'.ref j' k = v.ref j' k
  other : ∀ j' k, (v.dinode j').type ≠ .free → ¬ (j' = j ∧ K k) → v'.ref j' k = v.ref j' k
  bytes : ∀ j' pos, (v.dinode j').type ≠ .free → pos < maxfile * bsize →
    v.ref j' (blockRef (pos / bsize)) ≠ 0 → v'.byteAt j' pos = v.byteAt j' pos

theorem Grows.refl (v : Volume) (j : Nat) (K : Nat → Prop) : Grows v v j K :=
  ⟨fun _ => rfl, fun _ _ => rfl, fun _ _ _ _ _ => rfl, fun _ _ _ _ => rfl, fun _ _ _ _ _ => rfl⟩

theorem Grows.type {v' : Volume} {K : Nat → Prop} (h : Grows v v' j K) (j' : Nat) :
    (v'.dinode j').type = (v.dinode j').type := by rw [h.attrs]

theorem div_bsize {pos : Nat} (h : pos < maxfile * bsize) : pos / bsize < maxfile :=
  Nat.div_lt_of_lt_mul (by rw [Nat.mul_comm]; exact h)

theorem Grows.trans {v' v'' : Volume} {K K' : Nat → Prop} (h : Grows v v' j K)
    (h' : Grows v' v'' j K') : Grows v v'' j fun k => K k ∨ K' k := by
  refine ⟨fun j' => by rw [h'.attrs, h.attrs], fun j' hj' => (h'.dinode j' hj').trans (h.dinode j' hj'), fun j' k hj' hk hne => ?_,
    fun j' k hj' hK => ?_, fun j' pos hj' hpos hne => ?_⟩
  · have hkept := h.kept j' k hj' hk hne
    rw [h'.kept j' k (by rwa [h.type]) hk (by rwa [hkept]), hkept]
  · rw [h'.other j' k (by rwa [h.type]) (by tauto), h.other j' k hj' (by tauto)]
  · have hkept := h.kept j' _ hj' (blockRef_lt (div_bsize hpos)) hne
    rw [h'.bytes j' pos (by rwa [h.type]) hpos (by rwa [hkept]), h.bytes j' pos hj' hpos hne]

theorem Grows.mono {v' : Volume} {K K' : Nat → Prop} (h : Grows v v' j K) (hK : ∀ k, K k → K' k) :
    Grows v v' j K' :=
  { h with other := fun j' k hj' hn => h.other j' k hj' fun hk => hn ⟨hk.1, hK k hk.2⟩ }

theorem Sound.grows_give (h : Sound sb v) (hj : (v.dinode j).type ≠ .free)
    (hnone : v.ref j k = 0) (hind : ndirect < k → v.ref j ndirect ≠ 0) (hb : v.bitmap b = false)
    (hlt : b < 2 ^ 32) : Grows v (v.give j k b) j (· = k) := by
  have href : ∀ {j' k'}, (v.dinode j').type ≠ .free →
      (v.give j k b).ref j' k' = if j' = j ∧ k' = k then b else v.ref j' k' := fun hj' =>
    ref_give h hj hnone hind hb hlt hj'
  have hkept : ∀ j' k', (v.dinode j').type ≠ .free → v.ref j' k' ≠ 0 →
      (v.give j k b).ref j' k' = v.ref j' k' := by
    intro j' k' hj' hne
    rw [href hj', if_neg]
    rintro ⟨rfl, rfl⟩
    exact hne hnone
  refine ⟨attrs_give v j k b, fun j' hj' => ?_,
    fun j' k' hj' _ hne => hkept j' k' hj' hne, fun j' k' hj' hn => ?_,
    fun j' pos hj' hpos hne => ?_⟩
  · simp only [Volume.give]
    split
    · exact Function.update_of_ne hj' ..
    · rfl
  · rw [href hj', if_neg hn]
  · have hk := blockRef_lt (div_bsize hpos)
    rw [byteAt, byteAt, hkept j' _ hj' hne, data_give (h.ref_ne hj' hk hne hb)]
    intro hgt heq
    exact blockRef_ne _ (h.unique j' _ j ndirect hj' hj hk (by decide) hne heq).2

theorem setSize_dinode (v : Volume) (j n j' : Nat) :
    (v.setDinode j { v.dinode j with size := n }).dinode j' =
      { v.dinode j' with size := if j' = j then n else (v.dinode j').size } := by
  simp only [setDinode, Function.update_apply]
  split
  · next hj => rw [hj]
  · rfl

theorem ref_setSize (v : Volume) (j n j' k : Nat) :
    (v.setDinode j { v.dinode j with size := n }).ref j' k = v.ref j' k :=
  ref_congr (by rw [setSize_dinode]) fun _ => rfl

theorem Sound.setSize {n : Nat} (h : Sound sb v) (hn : n ≤ maxfile * bsize)
    (hfound : ∀ bn, bn * bsize < n → v.ref j (blockRef bn) ≠ 0) :
    Sound sb (v.setDinode j { v.dinode j with size := n }) := by
  have hdin := setSize_dinode v j n
  have href := ref_setSize v j n
  refine ⟨h.reserved, fun j' k' hj' hk' hne => ?_, fun j₁ k₁ j₂ k₂ hj₁ hj₂ hk₁ hk₂ hne heq => ?_,
    fun j' bn hj' hbn => ?_, fun j' hj' => ?_⟩
  · rw [href] at hne ⊢
    rw [hdin] at hj'
    exact h.marked j' k' hj' hk' hne
  · rw [href] at hne
    rw [href, href] at heq
    rw [hdin] at hj₁ hj₂
    exact h.unique j₁ k₁ j₂ k₂ hj₁ hj₂ hk₁ hk₂ hne heq
  · rw [href]
    rw [hdin] at hj' hbn
    simp only at hbn
    split at hbn
    · next hj => exact hj ▸ hfound bn hbn
    · exact h.whole j' bn hj' hbn
  · rw [hdin] at hj' ⊢
    simp only
    split
    · exact hn
    · exact h.size j' hj'

theorem ref_setData {x : Nat} {bytes : Nat → Nat}
    (hx : v.ref j ndirect ≠ 0 → v.ref j ndirect ≠ x) : (v.setData x bytes).ref j k = v.ref j k :=
  ref_congr rfl fun hne => Function.update_of_ne (hx hne) ..

theorem Sound.ref_setData (h : Sound sb v) (hj : (v.dinode j).type ≠ .free) {bn : Nat}
    (hbn : bn < maxfile) (bytes : Nat → Nat) {j' k' : Nat} (hj' : (v.dinode j').type ≠ .free) :
    (v.setData (v.ref j (blockRef bn)) bytes).ref j' k' = v.ref j' k' := by
  refine Volume.ref_setData fun hind heq => ?_
  exact blockRef_ne bn (h.unique j' ndirect j _ hj' hj (by decide) (blockRef_lt hbn) hind heq).2.symm

theorem Sound.setData (h : Sound sb v) (hj : (v.dinode j).type ≠ .free) {bn : Nat}
    (hbn : bn < maxfile) (bytes : Nat → Nat) :
    Sound sb (v.setData (v.ref j (blockRef bn)) bytes) := by
  have href : ∀ {j' k'}, (v.dinode j').type ≠ .free →
      (v.setData (v.ref j (blockRef bn)) bytes).ref j' k' = v.ref j' k' := fun hj' =>
    h.ref_setData hj hbn bytes hj'
  refine ⟨h.reserved, fun j' k' hj' hk' hne' => ?_, fun j₁ k₁ j₂ k₂ hj₁ hj₂ hk₁ hk₂ hne' heq => ?_,
    fun j' bn' hj' hbn' => ?_, h.size⟩
  · rw [href hj'] at hne' ⊢
    exact h.marked j' k' hj' hk' hne'
  · rw [href hj₁] at hne' heq
    rw [href hj₂] at heq
    exact h.unique j₁ k₁ j₂ k₂ hj₁ hj₂ hk₁ hk₂ hne' heq
  · rw [href hj']
    exact h.whole j' bn' hj' hbn'

theorem Sound.byteAt_setData (h : Sound sb v) (hj : (v.dinode j).type ≠ .free) {bn : Nat}
    (hbn : bn < maxfile) (bytes : Nat → Nat) {j' pos : Nat}
    (hj' : (v.dinode j').type ≠ .free) (hpos : pos < maxfile * bsize)
    (hne' : v.ref j' (blockRef (pos / bsize)) ≠ 0) :
    (v.setData (v.ref j (blockRef bn)) bytes).byteAt j' pos =
      if j' = j ∧ pos / bsize = bn then bytes (pos % bsize) else v.byteAt j' pos := by
  rw [byteAt, h.ref_setData hj hbn bytes hj']
  split
  · next heq =>
    obtain ⟨rfl, rfl⟩ := heq
    simp only [Volume.setData, Function.update_self]
  · next hneq =>
    have hx : v.ref j' (blockRef (pos / bsize)) ≠ v.ref j (blockRef bn) := by
      intro heq
      obtain ⟨rfl, hk⟩ := h.unique j' _ j _ hj' hj (blockRef_lt (div_bsize hpos))
        (blockRef_lt hbn) hne' heq
      exact hneq ⟨rfl, blockRef_inj hk⟩
    simp only [Volume.setData, Function.update_of_ne hx]
    rfl

def freeCount (sb : Superblock) (v : Volume) : Nat :=
  ((Finset.range sb.logStart).filter fun b => v.bitmap b = false).card

theorem freeCount_give (hb : v.bitmap b = false) (hlog : b < sb.logStart) :
    freeCount sb v = freeCount sb (v.give j k b) + 1 := by
  have hmem : b ∈ (Finset.range sb.logStart).filter fun b => v.bitmap b = false := by
    simp [hb, hlog]
  have herase : ((Finset.range sb.logStart).filter fun b' => (v.give j k b).bitmap b' = false) =
      ((Finset.range sb.logStart).filter fun b => v.bitmap b = false).erase b := by
    ext x
    simp only [Volume.give, Finset.mem_filter, Finset.mem_range, Finset.mem_erase]
    by_cases hx : x = b
    · simp [hx]
    · simp [hx]
  rw [freeCount, freeCount, herase, Finset.card_erase_add_one hmem]

end Volume

end Fs
end Xv6
