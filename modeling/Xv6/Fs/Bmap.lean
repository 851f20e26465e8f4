import Xv6.Fs.Blocks

namespace Xv6
namespace Fs

open Bytes StateExcept Volume

def view (fs : Fs) (s : Islot) : Volume :=
  { fs.disk with
    dinode := Function.update fs.disk.dinode (fs.icache s).inum (fs.icache s).din }

def setView (fs : Fs) (s : Islot) (v : Volume) (lh : List Nat) : Fs :=
  { fs with
    disk := { v with dinode := fs.disk.dinode }
    icache := Function.update fs.icache s
      { fs.icache s with din := v.dinode (fs.icache s).inum }
    lh := lh }

variable {fs : Fs} {s : Islot} {v : Volume} {lh L : List Nat} {bn : Nat}

theorem setView_view (fs : Fs) (s : Islot) : fs.setView s (fs.view s) fs.lh = fs := by
  simp [setView, view]

@[simp] theorem setView_inum (s' : Islot) :
    ((fs.setView s v lh).icache s').inum = (fs.icache s').inum := by
  simp only [setView, Function.update_apply]
  split
  · next h => rw [h]
  · rfl

@[simp] theorem setView_din :
    ((fs.setView s v lh).icache s).din = v.dinode (fs.icache s).inum := by
  simp [setView]

@[simp] theorem setView_data : (fs.setView s v lh).disk.data = v.data := rfl

theorem update_dinode (hv : ∀ j, j ≠ (fs.icache s).inum → v.dinode j = fs.disk.dinode j) :
    Function.update fs.disk.dinode (fs.icache s).inum (v.dinode (fs.icache s).inum) = v.dinode := by
  funext j
  by_cases hj : j = (fs.icache s).inum
  · rw [hj, Function.update_self]
  · rw [Function.update_of_ne hj, hv j hj]

theorem view_setView (hv : ∀ j, j ≠ (fs.icache s).inum → v.dinode j = fs.disk.dinode j) :
    (fs.setView s v lh).view s = v := by
  simp only [view, setView_inum, setView_din]
  simp only [setView, update_dinode hv]

theorem setDin_setView {f : Dinode → Dinode} : setDin s f (fs.setView s v lh) =
    .ok ((), fs.setView s (v.setDinode (fs.icache s).inum (f (v.dinode (fs.icache s).inum))) lh) := by
  change Except.ok _ = _
  simp [setView, setDinode]

def Superblock.Room (sb : Superblock) (n : Nat) : Prop := n < logsize ∧ n + 1 < sb.nlog

theorem Superblock.Room.mono {sb : Superblock} {m n : Nat} (h : sb.Room n) (hm : m ≤ n) :
    sb.Room m := ⟨by have := h.1; omega, by have := h.2; omega⟩

theorem logWrite_ok {x : Nat} (hbusy : fs.busy ≠ none) (hroom : fs.sb.Room fs.lh.length) :
    logWrite x fs = .ok ((), { fs with lh := recorded fs.lh x }) := by
  have hlog := hroom.1
  have hnlog := hroom.2
  simp only [logWrite, bind_get]
  rw [if_neg (by omega), if_neg hbusy]
  rfl

theorem logWrite_setView {x : Nat} (hbusy : fs.busy ≠ none) (hroom : fs.sb.Room lh.length) :
    logWrite x (fs.setView s v lh) = .ok ((), fs.setView s v (recorded lh x)) :=
  logWrite_ok hbusy hroom

theorem setBlock_setView {b : Nat} {bytes : Nat → Nat} (hbusy : fs.busy ≠ none)
    (hroom : fs.sb.Room lh.length) :
    setBlock b bytes (fs.setView s v lh) =
      .ok ((), fs.setView s (v.setData b bytes) (recorded lh b)) :=
  logWrite_setView (v := v.setData b bytes) hbusy hroom

theorem firstFree_below {bitmap : Nat → Bool} {size b : Nat} (hb : bitmap b = false)
    (hlt : b < size) : ∃ b' ≤ b, firstFree bitmap size = some b' ∧ bitmap b' = false := by
  cases h : firstFree bitmap size with
  | none =>
    have hall := List.find?_eq_none.mp h b (List.mem_range.mpr hlt)
    simp [hb] at hall
  | some b' =>
    obtain ⟨hb', -, hfirst⟩ := List.find?_range_eq_some.mp h
    refine ⟨b', ?_, rfl, by simpa using hb'⟩
    by_contra hgt
    have := hfirst b (by omega)
    simp [hb] at this

namespace Volume

variable {sb : Superblock} {v : Volume} {j k b : Nat} {K : Finset Nat}

def mark (v : Volume) (b : Nat) : Volume :=
  { v with
    bitmap := Function.update v.bitmap b true
    data := Function.update v.data b fun _ => 0 }

theorem exists_free (h : 0 < v.freeCount sb) : ∃ b < sb.logStart, v.bitmap b = false := by
  obtain ⟨b, hb⟩ := Finset.card_pos.mp h
  obtain ⟨hlt, hfree⟩ := Finset.mem_filter.mp hb
  exact ⟨b, Finset.mem_range.mp hlt, hfree⟩

def lacks (v : Volume) (j : Nat) (K : Finset Nat) : Finset Nat := K.filter fun k => v.ref j k = 0

theorem mem_lacks : k ∈ v.lacks j K ↔ k ∈ K ∧ v.ref j k = 0 := Finset.mem_filter

theorem Sound.lacks_setData (h : Sound sb v) (hj : (v.dinode j).type ≠ .free) {bn : Nat}
    (hbn : bn < maxfile) (bytes : Nat → Nat) (K : Finset Nat) :
    (v.setData (v.ref j (blockRef bn)) bytes).lacks j K = v.lacks j K :=
  Finset.filter_congr fun k _ => by rw [h.ref_setData hj hbn bytes hj]

structure Allots (sb : Superblock) (j : Nat) (K : Finset Nat) (v v' : Volume) : Prop where
  grows : v.Grows v' j (· ∈ K)
  free : (v.lacks j K).card ≤ v.freeCount sb → (v'.lacks j K).card ≤ v'.freeCount sb
  same : v.lacks j K = ∅ → v' = v

theorem Allots.refl (sb : Superblock) (j : Nat) (K : Finset Nat) (v : Volume) :
    Allots sb j K v v := ⟨.refl v j _, id, fun _ => rfl⟩

theorem Allots.trans {v' v'' : Volume} (h : Allots sb j K v v') (h' : Allots sb j K v' v'') :
    Allots sb j K v v'' where
  grows := (h.grows.trans h'.grows).mono fun _ hk => hk.elim id id
  free hfree := h'.free (h.free hfree)
  same hnone := by
    obtain rfl := h.same hnone
    exact h'.same hnone

theorem Sound.allots_give (h : Sound sb v) (hj : (v.dinode j).type ≠ .free)
    (hnone : v.ref j k = 0) (hind : ndirect < k → v.ref j ndirect ≠ 0) (hb : v.bitmap b = false)
    (hlog : b < sb.logStart) (hlt : b < 2 ^ 32) (hk : k ∈ K) :
    Allots sb j K v (v.give j k b) := by
  have hmem : k ∈ v.lacks j K := mem_lacks.mpr ⟨hk, hnone⟩
  refine ⟨(h.grows_give hj hnone hind hb hlt).mono fun k' hk' => hk' ▸ hk, fun hfree => ?_,
    fun hempty => by simp [hempty] at hmem⟩
  have herase : (v.give j k b).lacks j K = (v.lacks j K).erase k := by
    ext k'
    rw [mem_lacks, Finset.mem_erase, mem_lacks, ref_give h hj hnone hind hb hlt hj]
    by_cases hkk : k' = k
    · simp [hkk, (h.fresh_ne_zero hb).2]
    · simp [hkk]
  have hcard := Finset.card_erase_add_one hmem
  rw [freeCount_give (j := j) (k := k) hb hlog] at hfree
  rw [herase]
  omega

end Volume

theorem balloc_setView (hfree : 0 < v.freeCount fs.sb) (hbusy : fs.busy ≠ none)
    (hroom : fs.sb.Room lh.length)
    (hroom' : ∀ b < fs.sb.logStart, fs.sb.Room (recorded lh (fs.sb.bblock b)).length) :
    ∃ b < fs.sb.logStart, v.bitmap b = false ∧ balloc (fs.setView s v lh) =
      .ok (b, fs.setView s (v.mark b) (recorded (recorded lh (fs.sb.bblock b)) b)) := by
  obtain ⟨b₀, hlt₀, hb₀⟩ := exists_free hfree
  obtain ⟨b, hle, hfirst, hb⟩ := firstFree_below hb₀ (show b₀ < fs.sb.size by
    unfold Superblock.logStart at hlt₀
    omega)
  refine ⟨b, by omega, hb, ?_⟩
  have hlog : logWrite (fs.sb.bblock b)
      (fs.setView s { v with bitmap := Function.update v.bitmap b true } lh) = _ :=
    logWrite_setView hbusy hroom
  have hzero : bzero b
      (fs.setView s { v with bitmap := Function.update v.bitmap b true }
        (recorded lh (fs.sb.bblock b))) = .ok ((), fs.setView s (v.mark b) _) :=
    setBlock_setView hbusy (hroom' b (by omega))
  have hfound : firstFree (fs.setView s v lh).disk.bitmap (fs.setView s v lh).sb.size = some b :=
    hfirst
  simp only [balloc, bind_get, hfound]
  exact (bind_ok (f := fun _ => bzero b >>= fun _ => pure b) hlog).trans (bind_ok hzero)

structure Open (sb : Superblock) (j : Nat) (L : List Nat) (v : Volume) (lh : List Nat) : Prop where
  sound : v.Sound sb
  type : (v.dinode j).type ≠ .free
  nodup : lh.Nodup
  sub : ∀ x ∈ lh, x ∈ L ∨ x = v.ref j ndirect ∧ x ≠ 0
  maps : ∀ b < sb.size, sb.bblock b ∈ L

section Open

variable {sb : Superblock} {j k b : Nat} {L' lh' : List Nat}

theorem Open.length_le (h : Open sb j L v lh) : lh.length ≤ L.length + 1 := by
  have hsub : lh ⊆ v.ref j ndirect :: L := fun x hx => by
    rcases h.sub x hx with hx | ⟨rfl, -⟩
    · exact List.mem_cons_of_mem _ hx
    · exact List.mem_cons_self
  exact (h.nodup.subperm hsub).length_le

theorem Open.logs {x : Nat} (h : Open sb j L v lh)
    (hx : x ∈ L ∨ x = v.ref j ndirect ∧ x ≠ 0) : Open sb j L v (recorded lh x) :=
  { h with
    nodup := recorded_nodup h.nodup x
    sub := fun y hy => by
      rcases mem_recorded.mp hy with hy | rfl
      · exact h.sub y hy
      · exact hx }

theorem Open.mono (h : Open sb j L v lh) (hsub : L ⊆ L') : Open sb j L' v lh :=
  { h with
    sub := fun x hx => (h.sub x hx).imp_left (hsub ·)
    maps := fun b hb => hsub (h.maps b hb) }

theorem Open.give (h : Open sb j L v lh) (hnone : v.ref j k = 0)
    (hind : ndirect < k → v.ref j ndirect ≠ 0) (hb : v.bitmap b = false) (hlog : b < sb.logStart)
    (hlt : b < 2 ^ 32) : Open sb j (if k = ndirect then L else b :: L) (v.give j k b)
      (recorded (recorded lh (sb.bblock b)) b) := by
  have hb0 := (h.sound.fresh_ne_zero hb).2
  have href : (v.give j k b).ref j ndirect = if ndirect = k then b else v.ref j ndirect := by
    rw [ref_give h.sound h.type hnone hind hb hlt h.type]
    simp
  have hL : ∀ x ∈ L, x ∈ if k = ndirect then L else b :: L := fun x hx => by
    split
    · exact hx
    · exact List.mem_cons_of_mem _ hx
  have hsize : b < sb.size := by
    unfold Superblock.logStart at hlog
    omega
  refine ⟨h.sound.give h.type hnone hind hb hlog hlt, by rw [type_give]; exact h.type,
    recorded_nodup (recorded_nodup h.nodup _) _, fun x hx => ?_, fun x hx => hL _ (h.maps x hx)⟩
  rw [href]
  rcases mem_recorded.mp hx with hx | rfl
  · rcases mem_recorded.mp hx with hx | rfl
    · rcases h.sub x hx with hx | ⟨rfl, hne⟩
      · exact Or.inl (hL x hx)
      · rw [if_neg (fun hk : ndirect = k => hne (hk ▸ hnone))]
        exact Or.inr ⟨rfl, hne⟩
    · exact Or.inl (hL _ (h.maps b hsize))
  · by_cases hk : k = ndirect
    · rw [if_pos hk.symm]
      exact Or.inr ⟨rfl, hb0⟩
    · rw [if_neg hk]
      exact Or.inl List.mem_cons_self

end Open

section Bmap

variable {K : Finset Nat} {k : Nat}

structure Allotted (fs : Fs) (s : Islot) (K : Finset Nat) (k : Nat) (L : List Nat) (v : Volume)
    (v' : Volume) (lh' : List Nat) : Prop where
  found : v'.ref (fs.icache s).inum k ≠ 0
  allots : Allots fs.sb (fs.icache s).inum K v v'
  opened : Open fs.sb (fs.icache s).inum
    (if k = ndirect then L else v'.ref (fs.icache s).inum k :: L) v' lh'

theorem Open.here (h : Open fs.sb (fs.icache s).inum L v lh) (K : Finset Nat)
    (hne : v.ref (fs.icache s).inum k ≠ 0) : Allotted fs s K k L v v lh := by
  refine ⟨hne, .refl .., h.mono ?_⟩
  split
  · exact List.Subset.refl L
  · exact List.subset_cons_self ..

theorem Open.alloc (h : Open fs.sb (fs.icache s).inum L v lh) (hbusy : fs.busy ≠ none)
    (hsize : fs.sb.size ≤ 2 ^ 32) (hroom : fs.sb.Room (L.length + 1))
    (hnone : v.ref (fs.icache s).inum k = 0)
    (hind : ndirect < k → v.ref (fs.icache s).inum ndirect ≠ 0) (hk : k ∈ K)
    (hlack : (v.lacks (fs.icache s).inum K).card ≤ v.freeCount fs.sb) :
    ∃ b lh', v.bitmap b = false ∧
      balloc (fs.setView s v lh) = .ok (b, fs.setView s (v.mark b) lh') ∧
      (v.give (fs.icache s).inum k b).ref (fs.icache s).inum k = b ∧
      Allotted fs s K k L v (v.give (fs.icache s).inum k b) lh' := by
  have hfree : 0 < v.freeCount fs.sb :=
    lt_of_lt_of_le (Finset.card_pos.mpr ⟨k, mem_lacks.mpr ⟨hk, hnone⟩⟩) hlack
  have hmap : ∀ b < fs.sb.logStart, fs.sb.Room (recorded lh (fs.sb.bblock b)).length := by
    intro b hb
    have hmem : fs.sb.bblock b ∈ L := h.maps b (by unfold Superblock.logStart at hb; omega)
    exact hroom.mono (h.logs (Or.inl hmem)).length_le
  obtain ⟨b, hlog, hb, hrun⟩ := balloc_setView (s := s) hfree hbusy (hroom.mono h.length_le) hmap
  have hlt : b < 2 ^ 32 := by
    unfold Superblock.logStart at hlog
    omega
  have href : (v.give (fs.icache s).inum k b).ref (fs.icache s).inum k = _ :=
    ref_give h.sound h.type hnone hind hb hlt h.type
  rw [if_pos ⟨rfl, rfl⟩] at href
  refine ⟨b, _, hb, hrun, href, ?_, h.sound.allots_give h.type hnone hind hb hlog hlt hk, ?_⟩
  · rw [href]
    exact (h.sound.fresh_ne_zero hb).2
  · rw [href]
    exact h.give hnone hind hb hlog hlt

theorem mark_setDinode {j b : Nat} (hk : k ≤ ndirect) :
    (v.mark b).setDinode j
      { v.dinode j with addrs := Function.update (v.dinode j).addrs k b } = v.give j k b := by
  simp only [mark, setDinode, give, if_pos hk]

theorem mark_setData {j b : Nat} (hk : ndirect < k) (hb : v.ref j ndirect ≠ b) :
    (v.mark b).setData (v.ref j ndirect)
      (setWord ((v.mark b).data (v.ref j ndirect)) (k - ndirect - 1) b) = v.give j k b := by
  have hdata : (v.mark b).data (v.ref j ndirect) = v.data (v.ref j ndirect) :=
    Function.update_of_ne hb ..
  rw [hdata]
  rw [ref_direct le_rfl]
  simp only [mark, setData, give, if_neg (Nat.not_le.mpr hk)]

theorem mapAddr_ok (h : Open fs.sb (fs.icache s).inum L v lh) (hbusy : fs.busy ≠ none)
    (hsize : fs.sb.size ≤ 2 ^ 32) (hroom : fs.sb.Room (L.length + 1)) (hle : k ≤ ndirect)
    (hk : k ∈ K) (hlack : (v.lacks (fs.icache s).inum K).card ≤ v.freeCount fs.sb) :
    ∃ v' lh', mapAddr s k (fs.setView s v lh) =
      .ok (v'.ref (fs.icache s).inum k, fs.setView s v' lh') ∧
      Allotted fs s K k L v v' lh' := by
  have haddr : ((fs.setView s v lh).icache s).din.addrs k = v.ref (fs.icache s).inum k := by
    rw [setView_din, ref_direct hle]
  simp only [mapAddr, bind_get, haddr]
  by_cases hnone : v.ref (fs.icache s).inum k = 0
  · obtain ⟨b, lh', -, hrun, href, hall⟩ := h.alloc hbusy hsize hroom hnone (fun hgt => by omega)
      hk hlack
    have hset : setAddr s k b (fs.setView s (v.mark b) lh') =
        .ok ((), fs.setView s (v.give (fs.icache s).inum k b) lh') := by
      rw [← mark_setDinode hle]
      exact setDin_setView
    refine ⟨_, lh', ?_, hall⟩
    rw [if_pos hnone, bind_ok hrun, bind_ok hset, href]
    rfl
  · rw [if_neg hnone]
    exact ⟨v, lh, rfl, h.here K hnone⟩

theorem bmap_ok (h : Open fs.sb (fs.icache s).inum L v lh) (hbusy : fs.busy ≠ none)
    (hsize : fs.sb.size ≤ 2 ^ 32) (hroom : fs.sb.Room (L.length + 2)) (hbn : bn < maxfile)
    (hk : blockRef bn ∈ K) (hki : ndirect ≤ bn → ndirect ∈ K)
    (hlack : (v.lacks (fs.icache s).inum K).card ≤ v.freeCount fs.sb) :
    ∃ v' lh', bmap s bn (fs.setView s v lh) =
      .ok (v'.ref (fs.icache s).inum (blockRef bn), fs.setView s v' lh') ∧
      Allotted fs s K (blockRef bn) L v v' lh' := by
  have hroom' : fs.sb.Room (L.length + 1) := hroom.mono (by omega)
  unfold bmap
  split
  · next hlt =>
    have href : blockRef bn = bn := if_pos hlt
    rw [href] at hk ⊢
    exact mapAddr_ok h hbusy hsize hroom' (by omega) hk hlack
  · next hge =>
    have hge : ndirect ≤ bn := by omega
    have href : blockRef bn = bn + 1 := if_neg (by omega)
    have hin : bn - ndirect < nindirect := by
      simp only [maxfile] at hbn
      omega
    have hsub : bn + 1 - ndirect - 1 = bn - ndirect := by omega
    rw [if_pos hin, href]
    rw [href] at hk
    obtain ⟨v₁, lh₁, hind, hall⟩ := mapAddr_ok h hbusy hsize hroom' le_rfl (hki hge) hlack
    have hopen := hall.opened
    rw [if_pos rfl] at hopen
    have hword : word ((fs.setView s v₁ lh₁).disk.data (v₁.ref (fs.icache s).inum ndirect))
        (bn - ndirect) = v₁.ref (fs.icache s).inum (bn + 1) := by
      have hri := ref_indirect (k := bn + 1) (by omega) hall.found
      rw [hsub] at hri
      exact hri.symm
    rw [bind_ok hind]
    simp only [bind_get, hword]
    by_cases hnone : v₁.ref (fs.icache s).inum (bn + 1) = 0
    · obtain ⟨b, lh₂, hb, hrun, href', hall'⟩ := hopen.alloc hbusy hsize hroom' hnone
        (fun _ => hall.found) hk (hall.allots.free hlack)
      have hopen' := hall'.opened
      have hne := hopen.sound.ref_ne hopen.type (by decide) hall.found hb
      have hkept := hall'.allots.grows.kept _ ndirect hopen.type (by decide) hall.found
      rw [if_neg (by omega)] at hopen'
      have hset : setBlock (v₁.ref (fs.icache s).inum ndirect)
          (setWord ((v₁.mark b).data (v₁.ref (fs.icache s).inum ndirect)) (bn - ndirect) b)
          (fs.setView s (v₁.mark b) lh₂) = .ok ((), fs.setView s
            (v₁.give (fs.icache s).inum (bn + 1) b)
            (recorded lh₂ (v₁.ref (fs.icache s).inum ndirect))) := by
        rw [← mark_setData (by omega) hne, hsub]
        exact setBlock_setView hbusy (hroom.mono hopen'.length_le)
      refine ⟨_, recorded lh₂ (v₁.ref (fs.icache s).inum ndirect), ?_, hall'.found,
        hall.allots.trans hall'.allots, ?_⟩
      · rw [if_pos hnone, bind_ok hrun, bind_get, setView_data, bind_ok hset, href']
        rfl
      · rw [if_neg (by omega)]
        exact hopen'.logs (Or.inr ⟨hkept.symm, hall.found⟩)
    · rw [if_neg hnone]
      have hhere := hopen.here K hnone
      exact ⟨v₁, lh₁, rfl, hhere.found, hall.allots, hhere.opened⟩

end Bmap

end Fs
end Xv6
