import Xv6.Mkfs.Append

namespace Xv6
namespace Mkfs

open Bytes Fs StateExcept Volume

variable {t t' : Mkfs} {files : List (Nat × List Nat)} {f : Nat × List Nat} {i j : Nat}

structure Holds (t : Mkfs) (j : Nat) (f : Nat × List Nat) : Prop where
  fits : (dinodeAt t.image j).Fits
  type : (dinodeAt t.image j).type = f.1
  alloc : f.1 ≠ 0
  content : t.volume.content j = f.2
  exact : Exact t.volume j f.2.length

def imageEnd (files : List (Nat × List Nat)) : Nat :=
  dataStart + (files.map fun f => blocks f.2.length).sum

structure Image (t : Mkfs) (files : List (Nat × List Nat)) : Prop where
  books : t.Books
  high : t.freeblock ≤ size
  inums : t.freeinode = files.length + 1
  room : files.length < inodeEnd
  sound : t.volume.Sound area
  free : ∀ j < inodeEnd, j = 0 ∨ files.length < j →
    dinodeAt t.image j = ⟨0, 0, 0, 0, 0, fun _ => 0⟩
  holds : ∀ i f, files[i]? = some f → Holds t (i + 1) f
  total : t.freeblock = imageEnd files
  newest : dataStart < t.freeblock → ∃ i f bn, files[i]? = some f ∧ bn < maxfile ∧
    bn * bsize < f.2.length ∧ t.volume.ref (i + 1) (blockRef bn) + 1 = t.freeblock

theorem Holds.din_size (h : Holds t j f) (hj : j < inodeEnd) :
    (dinodeAt t.image j).size = f.2.length := by
  rw [← h.content, content_length, volume_dinode hj]
  rfl

theorem Holds.type_ne (h : Holds t j f) (hj : j < inodeEnd) :
    (t.volume.dinode j).type ≠ .free := by
  rw [volume_dinode hj]
  exact fun hfree => h.alloc (h.type ▸ Dinode.toFs_type.mp hfree)

theorem view_same (hj : j < inodeEnd) : t.view j (dinodeAt t.image j) = t.volume := by
  rw [view, ← volume_dinode hj]
  exact congrArg (fun d => ({ t.volume with dinode := d } : Volume)) (Function.update_eq_self ..)

theorem Image.inum_lt (h : Image t files) (hf : files[i]? = some f) : i + 1 < inodeEnd := by
  obtain ⟨hlt, -⟩ := List.getElem?_eq_some_iff.mp hf
  have hroom := h.room
  omega

theorem Image.ready (h : Image t files) (hf : files[i]? = some f) :
    Ready t (i + 1) (dinodeAt t.image (i + 1)) f.2.length := by
  have hj := h.inum_lt hf
  have hholds := h.holds i f hf
  have htype : (dinodeAt t.image (i + 1)).type ≠ 0 := by
    rw [hholds.type]
    exact hholds.alloc
  refine ⟨⟨h.books, hj, hholds.fits, htype, ?_⟩, h.high, ?_, ?_⟩
  · rw [view_same hj]
    exact h.sound
  · have hsize := h.sound.size (i + 1)
    rw [volume_dinode hj] at hsize
    rw [← hholds.din_size hj]
    exact hsize fun hfree => htype (Dinode.toFs_type.mp hfree)
  · rw [view_same hj]
    exact hholds.exact

theorem sum_set {l : List (Nat × List Nat)} (g : Nat × List Nat → Nat) (f' : Nat × List Nat)
    (hf : l[i]? = some f) : ((l.set i f').map g).sum + g f = (l.map g).sum + g f' := by
  induction l generalizing i with
  | nil => cases hf
  | cons x l ih =>
    cases i with
    | zero =>
      obtain rfl : x = f := Option.some.inj hf
      simp only [List.set_cons_zero, List.map_cons, List.sum_cons]
      omega
    | succ i =>
      have hrest := ih (i := i) hf
      simp only [List.set_cons_succ, List.map_cons, List.sum_cons]
      omega

theorem imageEnd_set (f' : Nat × List Nat) (hf : files[i]? = some f) :
    imageEnd (files.set i f') + blocks f.2.length = imageEnd files + blocks f'.2.length := by
  have hsum := sum_set (fun f => blocks f.2.length) f' hf
  simp only [imageEnd]
  omega

theorem splice_end (l src : List Nat) : splice l l.length src = l ++ src := by
  rw [splice, List.take_length, List.drop_of_length_le (by omega), List.append_nil]

theorem dinodeAt_congr {image image' : Nat → Nat → Nat}
    (h : ∀ b < dataStart, image' b = image b) (hj : j < inodeEnd) :
    dinodeAt image' j = dinodeAt image j := by
  have hb := iblock_lt hj
  simp only [dinodeAt, h (iblock j) (by simp only [dataStart]; omega)]

structure Extends (t t' : Mkfs) (j : Nat) (f : Nat × List Nat) (p : List Nat) : Prop where
  books : t'.Books
  high : t'.freeblock ≤ size
  freeinode : t'.freeinode = t.freeinode
  wrote : Wrote area t.volume t'.volume j f.2.length p
  holds : Holds t' j (f.1, f.2 ++ p)
  inodes : ∀ i < inodeEnd, i ≠ j → dinodeAt t'.image i = dinodeAt t.image i
  others : ∀ i k, i ≠ j → (t.volume.dinode i).type ≠ .free → t'.volume.ref i k = t.volume.ref i k
  kept : ∀ k < nref, t.volume.ref j k ≠ 0 → t'.volume.ref j k = t.volume.ref j k
  total : t'.freeblock + blocks f.2.length = t.freeblock + blocks (f.2 ++ p).length
  newest : t'.freeblock = t.freeblock ∨ ∃ bn < maxfile, bn * bsize < (f.2 ++ p).length ∧
    t'.volume.ref j (blockRef bn) + 1 = t'.freeblock

theorem Appended.extends {din' : Dinode} {p : List Nat} (h : Holds t j f) (hj : j < inodeEnd)
    (hready : Ready t j (dinodeAt t.image j) f.2.length)
    (happ : Appended t t' j (dinodeAt t.image j) din' f.2.length p) :
    Extends t (t'.putInode j { din' with size := f.2.length + p.length }) j f p := by
  have hsize := h.din_size hj
  have hview := view_same (t := t) hj
  have hready' := happ.ready
  have hbound := hready'.bound
  have hfits : ({ din' with size := f.2.length + p.length } : Dinode).Fits :=
    { hready'.fits with size := by simp only [maxfile, ndirect, nindirect, bsize] at *; omega }
  have hvol := volume_putInode (t := t') hj hfits
  have hdin : (t'.view j din').dinode j = din'.toFs := view_self t' j din'
  have hmax : max (t.volume.dinode j).size (f.2.length + p.length) = f.2.length + p.length := by
    rw [volume_dinode hj]
    simp only [Dinode.toFs, hsize]
    omega
  have hset : (t'.putInode j { din' with size := f.2.length + p.length }).volume =
      (t'.view j din').setDinode j { (t'.view j din').dinode j with
        size := max (t.volume.dinode j).size (f.2.length + p.length) } := by
    rw [hvol, hmax, hdin, view]
    simp only [setDinode, Function.update_idem]
    rfl
  have hwrote := happ.spliced.wrote hready.sound hready'.sound hready.alloc
    (by rw [view_self]; simp only [Dinode.toFs, hsize]; exact le_rfl) hbound
  rw [hview, ← hset] at hwrote
  have href : ∀ i k, (t'.putInode j { din' with size := f.2.length + p.length }).volume.ref i k =
      (t'.view j din').ref i k := by
    intro i k
    rw [hset, ref_setSize]
  have hlen : (f.2 ++ p).length = f.2.length + p.length := List.length_append
  have hiblock := iblock_lt hj
  have hlow := hready'.books.low
  simp only [dataStart] at hlow
  have htotal := happ.total
  refine ⟨hready'.books.putSect (by omega) _, hready'.high, happ.freeinode, hwrote,
    ⟨?_, ?_, h.alloc, ?_, ?_⟩, fun i hi hne => ?_, fun i k hi hfree => ?_, fun k hk hne => ?_, ?_, ?_⟩
  · rw [dinodeAt_putInode hfits]
    exact hfits
  · rw [dinodeAt_putInode hfits, ← h.type]
    exact congrArg (fun d => d.type) happ.attrs
  · rw [hwrote.content, h.content, splice_end]
  · rw [hlen]
    exact ⟨fun bn hbn => by rw [href]; exact hready'.exact.data bn hbn,
      by rw [href]; exact hready'.exact.indirect⟩
  · rw [dinodeAt_putInode_of_ne hne]
    exact dinodeAt_congr happ.inodes hi
  · rw [href, happ.others i k hi (by rwa [hview]), hview]
  · rw [href, happ.spliced.kept j k hready.alloc hk (by rwa [hview]), hview]
  · rw [hlen]
    exact htotal
  · rw [hlen]
    rcases happ.newest with hsame | ⟨bn, hbn, hlt, hnew⟩
    · exact Or.inl hsame
    · exact Or.inr ⟨bn, hbn, hlt, by rw [href]; exact hnew⟩

theorem Image.type_ne (h : Image t files) (hf : files[i]? = some f) :
    (t.volume.dinode (i + 1)).type ≠ .free :=
  (h.holds i f hf).type_ne (h.inum_lt hf)

theorem Holds.other (h : Holds t j f) {k : Nat} {g : Nat × List Nat} {p : List Nat}
    (he : Extends t t' k g p) (hj : j < inodeEnd) (hne : j ≠ k)
    (hfree : (t.volume.dinode j).type ≠ .free) : Holds t' j f := by
  have hdin := he.inodes j hj hne
  refine ⟨by rw [hdin]; exact h.fits, by rw [hdin]; exact h.type, h.alloc, ?_,
    fun bn hbn => by rw [he.others j _ hne hfree]; exact h.exact.data bn hbn,
    by rw [he.others j _ hne hfree]; exact h.exact.indirect⟩
  rw [he.wrote.bytes j hne hfree]
  exact h.content

theorem Image.extends (h : Image t files) (hf : files[i]? = some f) {p : List Nat}
    (he : Extends t t' (i + 1) f p) : Image t' (files.set i (f.1, f.2 ++ p)) := by
  have hlen : (files.set i (f.1, f.2 ++ p)).length = files.length := List.length_set
  have hlt : i < files.length := (List.getElem?_eq_some_iff.mp hf).1
  have hget : ∀ k g, (files.set i (f.1, f.2 ++ p))[k]? = some g →
      k = i ∧ g = (f.1, f.2 ++ p) ∨ k ≠ i ∧ files[k]? = some g := by
    intro k g hk
    rw [List.getElem?_set] at hk
    split at hk
    · next hik =>
      exact Or.inl ⟨hik.symm, (Option.some.inj hk).symm⟩
    · next hik => exact Or.inr ⟨fun hki => hik hki.symm, hk⟩
  have hinode := h.inum_lt hf
  refine ⟨he.books, he.high, ?_, by rw [hlen]; exact h.room, he.wrote.sound, fun j hj hout => ?_,
    fun k g hk => ?_, ?_, fun hgt => ?_⟩
  · rw [he.freeinode, h.inums, hlen]
  · rw [hlen] at hout
    rw [he.inodes j hj (by omega)]
    exact h.free j hj hout
  · rcases hget k g hk with ⟨rfl, rfl⟩ | ⟨hne, hk⟩
    · exact he.holds
    · exact (h.holds k g hk).other he (h.inum_lt hk) (by omega) (h.type_ne hk)
  · have hend := imageEnd_set (f.1, f.2 ++ p) hf
    have htotal := he.total
    have hold := h.total
    dsimp only at hend
    omega
  · rcases he.newest with hsame | ⟨bn, hbn, hlt', hnew⟩
    · rw [hsame] at hgt ⊢
      obtain ⟨k, g, bn, hk, hbn, hin, hnew⟩ := h.newest hgt
      have hexact := ((h.holds k g hk).exact.data bn hbn).mpr hin
      by_cases hki : k = i
      · subst hki
        obtain rfl : f = g := Option.some.inj (hf.symm.trans hk)
        refine ⟨k, (f.1, f.2 ++ p), bn, by rw [List.getElem?_set_self hlt], hbn, ?_, ?_⟩
        · dsimp only
          rw [List.length_append]
          omega
        · rw [he.kept _ (blockRef_lt hbn) hexact]
          exact hnew
      · refine ⟨k, g, bn, by rw [List.getElem?_set_ne (Ne.symm hki)]; exact hk, hbn, hin, ?_⟩
        rw [he.others _ _ (by omega) (h.type_ne hk)]
        exact hnew
    · exact ⟨i, (f.1, f.2 ++ p), bn, by rw [List.getElem?_set_self hlt], hbn, hlt', hnew⟩

theorem iappend_spec (h : Image t files) (hf : files[i]? = some f) (p : List Nat) :
    wp (iappend (i + 1) p) (fun _ t' => Image t' (files.set i (f.1, f.2 ++ p)))
      (fun _ => ¬ Room t f.2.length p.length) t := by
  have hj := h.inum_lt hf
  have hb := iblock_lt hj
  have hsec := h.books.sectors
  have hholds := h.holds i f hf
  have hready := h.ready hf
  have hlow : ninodes / ipb + 3 ≤ size := by decide
  rw [iappend, wp_bind]
  refine wp_run (rinode_run (by omega)) ?_
  rw [wp_bind, hholds.din_size hj]
  refine wp_post (appendLoop_spec hready le_rfl) fun r t₁ hpost => ?_
  obtain ⟨din₁, off⟩ := r
  obtain ⟨hoff, happ⟩ := hpost
  dsimp only at hoff happ ⊢
  subst hoff
  have hsec₁ := happ.ready.books.sectors
  refine wp_run (winode_run (by omega)) ?_
  exact h.extends hf (happ.extends hholds hj hready)

abbrev emptyDinode (type : Nat) : Dinode := ⟨type, 0, 0, 1, 0, fun _ => 0⟩

theorem emptyDinode_fits {type : Nat} (h : type < 2 ^ 16) : (emptyDinode type).Fits :=
  ⟨h, Nat.two_pow_pos 16, Nat.two_pow_pos 16, Nat.one_lt_two_pow (by decide), Nat.two_pow_pos 32,
    fun _ _ => Nat.two_pow_pos 32, fun _ _ => rfl⟩

theorem ref_setEmpty (v : Volume) (j j' k type : Nat) :
    (v.setDinode j (emptyDinode type).toFs).ref j' k = if j' = j then 0 else v.ref j' k := by
  split
  · next hj =>
    subst hj
    have hdin : (v.setDinode j' (emptyDinode type).toFs).dinode j' = (emptyDinode type).toFs :=
      Function.update_self ..
    rw [ref, hdin, Fs.Dinode.ref]
    simp only [Dinode.toFs, if_true, ite_self]
  · next hj =>
    have hdin : (v.setDinode j (emptyDinode type).toFs).dinode j' = v.dinode j' :=
      Function.update_of_ne hj ..
    exact ref_congr (by rw [hdin]) fun _ => rfl

theorem sound_setEmpty {sb : Superblock} {v : Volume} (h : v.Sound sb) (j type : Nat) :
    (v.setDinode j (emptyDinode type).toFs).Sound sb := by
  have href := ref_setEmpty v j
  have hne : ∀ {j' k}, (v.setDinode j (emptyDinode type).toFs).ref j' k ≠ 0 → j' ≠ j := by
    intro j' k hne hj
    rw [href, if_pos hj] at hne
    exact hne rfl
  have hdin : ∀ {j'}, j' ≠ j → (v.setDinode j (emptyDinode type).toFs).dinode j' = v.dinode j' :=
    fun hj => Function.update_of_ne hj ..
  have hself : ((v.setDinode j (emptyDinode type).toFs).dinode j).size = 0 := by
    simp only [setDinode, Function.update_self, Dinode.toFs]
  refine ⟨h.reserved, fun j' k hj' hk hk0 => ?_, fun j₁ k₁ j₂ k₂ hj₁ hj₂ hk₁ hk₂ hk0 heq => ?_,
    fun j' bn hj' hbn => ?_, fun j' hj' => ?_⟩
  · have hj := hne hk0
    rw [hdin hj] at hj'
    rw [href, if_neg hj] at hk0 ⊢
    exact h.marked j' k hj' hk hk0
  · have hj := hne hk0
    have hj' := hne (heq ▸ hk0)
    rw [hdin hj] at hj₁
    rw [hdin hj'] at hj₂
    rw [href, if_neg hj] at hk0 heq
    rw [href, if_neg hj'] at heq
    exact h.unique j₁ k₁ j₂ k₂ hj₁ hj₂ hk₁ hk₂ hk0 heq
  · by_cases hj : j' = j
    · rw [hj, hself] at hbn
      omega
    · rw [hdin hj] at hj' hbn
      rw [href, if_neg hj]
      exact h.whole j' bn hj' hbn
  · by_cases hj : j' = j
    · rw [hj, hself]
      exact Nat.zero_le _
    · rw [hdin hj] at hj' ⊢
      exact h.size j' hj'

def withInode (t : Mkfs) (type : Nat) : Mkfs :=
  putInode { t with freeinode := t.freeinode + 1 } t.freeinode (emptyDinode type)

theorem ialloc_run (hsec : iblock t.freeinode < t.sectors) (type : Nat) :
    ialloc type t = .ok (t.freeinode, t.withInode type) := by
  have hrun := winode_run (t := { t with freeinode := t.freeinode + 1 }) (d := emptyDinode type) hsec
  simp only [ialloc, bind_get, bind_set]
  rw [bind_ok hrun]
  rfl

theorem Image.withInode (h : Image t files) (hroom : files.length + 1 < inodeEnd) {type : Nat}
    (hpos : type ≠ 0) (htype : type < 2 ^ 16) :
    Image (t.withInode type) (files ++ [(type, [])]) := by
  have hfits := emptyDinode_fits htype
  have hinums := h.inums
  have hvol : (t.withInode type).volume =
      t.volume.setDinode t.freeinode (emptyDinode type).toFs :=
    volume_putInode (by omega) hfits
  have hself : dinodeAt (t.withInode type).image t.freeinode = emptyDinode type :=
    dinodeAt_putInode hfits
  have hother : ∀ {i}, i ≠ t.freeinode →
      dinodeAt (t.withInode type).image i = dinodeAt t.image i := dinodeAt_putInode_of_ne
  have href : ∀ i k, i ≠ t.freeinode → (t.withInode type).volume.ref i k = t.volume.ref i k := by
    intro i k hi
    rw [hvol, ref_setEmpty, if_neg hi]
  have hnew : ∀ k, (t.withInode type).volume.ref t.freeinode k = 0 := by
    intro k
    rw [hvol, ref_setEmpty, if_pos rfl]
  have hget : ∀ k g, (files ++ [(type, [])])[k]? = some g →
      files[k]? = some g ∧ k + 1 ≠ t.freeinode ∨ k + 1 = t.freeinode ∧ g = (type, []) := by
    intro k g hk
    rcases Nat.lt_or_ge k files.length with hlt | hge
    · rw [List.getElem?_append_left hlt] at hk
      exact Or.inl ⟨hk, by omega⟩
    · rw [List.getElem?_append_right hge, List.getElem?_singleton] at hk
      split at hk
      · exact Or.inr ⟨by omega, (Option.some.inj hk).symm⟩
      · cases hk
  have hb := iblock_lt (j := t.freeinode) (by omega)
  have hlow := h.books.low
  simp only [dataStart] at hlow
  have hlen : (files ++ [(type, ([] : List Nat))]).length = files.length + 1 :=
    List.length_append
  refine ⟨?_, h.high, ?_, ?_, ?_, fun j hj hout => ?_, fun k g hk => ?_, ?_, fun hgt => ?_⟩
  · have hbooks : Books { t with freeinode := t.freeinode + 1 } := { h.books with }
    exact hbooks.putSect (by dsimp only; omega) _
  · rw [hlen, ← hinums]
    rfl
  · rwa [hlen]
  · rw [hvol]
    exact sound_setEmpty h.sound _ _
  · rw [hother (by omega)]
    exact h.free j hj (by omega)
  · rcases hget k g hk with ⟨hk, hne⟩ | ⟨heq, rfl⟩
    · have hold := h.holds k g hk
      have hdin := hother hne
      refine ⟨by rw [hdin]; exact hold.fits, by rw [hdin]; exact hold.type, hold.alloc, ?_,
        fun bn hbn => by rw [href _ _ hne]; exact hold.exact.data bn hbn,
        by rw [href _ _ hne]; exact hold.exact.indirect⟩
      rw [← hold.content, content, content, volume_dinode (h.inum_lt hk),
        volume_dinode (h.inum_lt hk), hdin]
      refine slice_congr fun pos _ => ?_
      simp only [byteAt, href _ _ hne]
      rw [hvol]
      rfl
    · rw [heq]
      refine ⟨by rwa [hself], by rw [hself], hpos, ?_, fun bn _ => ?_, ?_⟩
      · rw [content, volume_dinode (by omega), hself]
        rfl
      · rw [hnew]
        simp only [List.length_nil]
        omega
      · rw [hnew]
        simp only [List.length_nil]
        omega
  · have hzero : blocks (List.length ([] : List Nat)) = 0 := rfl
    rw [imageEnd, List.map_append, List.sum_append, List.map_singleton, List.sum_singleton, hzero]
    exact h.total
  · obtain ⟨k, g, bn, hk, hbn, hin, hlast⟩ := h.newest hgt
    have hlt := (List.getElem?_eq_some_iff.mp hk).1
    refine ⟨k, g, bn, by rw [List.getElem?_append_left hlt]; exact hk, hbn, hin, ?_⟩
    rw [href _ _ (by omega)]
    exact hlast

end Mkfs
end Xv6
