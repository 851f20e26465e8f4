import Xv6.Mkfs.Layout

namespace Xv6
namespace Mkfs

open Bytes Fs StateExcept Volume

variable {t t' : Mkfs} {j off : Nat} {din din' : Dinode}

structure Books (t : Mkfs) : Prop where
  sectors : t.sectors = size
  used : t.usedblocks = t.freeblock
  low : dataStart ≤ t.freeblock
  blank : ∀ b, t.freeblock ≤ b → t.image b = fun _ => 0

def took (t : Mkfs) : Mkfs :=
  { t with freeblock := t.freeblock + 1, usedblocks := t.usedblocks + 1 }

theorem Books.took (h : t.Books) : t.took.Books where
  sectors := h.sectors
  used := congrArg (· + 1) h.used
  low := Nat.le_succ_of_le h.low
  blank b hb := h.blank b (Nat.le_of_succ_le hb)

theorem Books.putSect (h : t.Books) {x : Nat} (hx : x < t.freeblock) (buf : Nat → Nat) :
    (t.putSect x buf).Books where
  sectors := h.sectors
  used := h.used
  low := h.low
  blank b hb := by
    have hge : t.freeblock ≤ b := hb
    simp only [Mkfs.putSect, Function.update_of_ne (show b ≠ x by omega)]
    exact h.blank b hge

def view (t : Mkfs) (j : Nat) (din : Dinode) : Volume := t.volume.setDinode j din.toFs

theorem view_self (t : Mkfs) (j : Nat) (din : Dinode) :
    (t.view j din).dinode j = din.toFs := Function.update_self ..

theorem ref_view {k : Nat} (hk : k ≤ ndirect) : (t.view j din).ref j k = din.addrs k := by
  rw [ref_direct hk, view_self]
  rfl

structure Held (t : Mkfs) (j : Nat) (din : Dinode) : Prop where
  books : t.Books
  inum : j < inodeEnd
  fits : din.Fits
  type : din.type ≠ 0
  sound : (t.view j din).Sound area

structure Moved (t t' : Mkfs) (j : Nat) (din din' : Dinode) (K : Nat → Prop) : Prop where
  attrs : din' = { din with addrs := din'.addrs }
  freeinode : t'.freeinode = t.freeinode
  inodes : ∀ b < dataStart, t'.image b = t.image b
  grows : (t.view j din).Grows (t'.view j din') j K

theorem Moved.refl (t : Mkfs) (j : Nat) (din : Dinode) (K : Nat → Prop) : Moved t t j din din K :=
  ⟨rfl, rfl, fun _ _ => rfl, .refl ..⟩

theorem Moved.mono {K K' : Nat → Prop} (h : Moved t t' j din din' K) (hK : ∀ k, K k → K' k) :
    Moved t t' j din din' K' :=
  { h with grows := h.grows.mono hK }

theorem Moved.trans {t'' : Mkfs} {din'' : Dinode} {K K' : Nat → Prop}
    (h : Moved t t' j din din' K) (h' : Moved t' t'' j din' din'' K') :
    Moved t t'' j din din'' fun k => K k ∨ K' k where
  attrs := by rw [h'.attrs, h.attrs]
  freeinode := h'.freeinode.trans h.freeinode
  inodes b hb := (h'.inodes b hb).trans (h.inodes b hb)
  grows := h.grows.trans h'.grows

theorem volume_eq {v w : Volume} (hd : v.dinode = w.dinode) (hb : v.bitmap = w.bitmap)
    (hx : v.data = w.data) : v = w := by
  cases v
  cases w
  simp_all

theorem volume_took_bitmap (t : Mkfs) :
    t.took.volume.bitmap = Function.update t.volume.bitmap t.freeblock true := by
  funext b
  simp only [volume, took, Function.update_apply]
  split
  · next hb => exact decide_eq_true (by omega)
  · exact decide_eq_decide.mpr (by omega)

theorem Books.data_fresh (h : t.Books) :
    Function.update t.volume.data t.freeblock (fun _ => 0) = t.volume.data := by
  have hdata : t.volume.data t.freeblock = fun _ => 0 := by
    rw [volume_data h.low, h.blank _ le_rfl]
  rw [← hdata, Function.update_eq_self]

theorem view_fresh : (t.view j din).bitmap t.freeblock = false :=
  decide_eq_false (lt_irrefl t.freeblock)

namespace Held

variable (h : Held t j din)

include h

theorem alloc : ((t.view j din).dinode j).type ≠ .free := by
  rw [view_self]
  exact fun hfree => h.type (Dinode.toFs_type.mp hfree)

theorem ref_lt {k : Nat} (hk : k < nref) (hne : (t.view j din).ref j k ≠ 0) :
    dataStart ≤ (t.view j din).ref j k ∧ (t.view j din).ref j k < t.freeblock := by
  have hm := h.sound.marked j k h.alloc hk hne
  exact ⟨hm.2.1, of_decide_eq_true hm.1⟩

theorem view_took {k : Nat} (hk : k ≤ ndirect) :
    t.took.view j { din with addrs := Function.update din.addrs k t.freeblock } =
      (t.view j din).give j k t.freeblock := by
  refine volume_eq ?_ (volume_took_bitmap t) ?_
  · simp only [give, if_pos hk, view, setDinode, Function.update_self, Function.update_idem]
    rfl
  · simp only [give, if_pos hk]
    exact (h.books.data_fresh).symm

theorem view_word {k : Nat} (hk : ndirect < k) (hne : (t.view j din).ref j ndirect ≠ 0) :
    (t.took.putSect (din.addrs ndirect)
      (setWord (t.image (din.addrs ndirect)) (k - ndirect - 1) t.freeblock)).view j din =
      (t.view j din).give j k t.freeblock := by
  have hind := (h.ref_lt (by decide) hne).1
  rw [ref_view le_rfl] at hind
  have haddr : ((t.view j din).dinode j).addrs ndirect = din.addrs ndirect := by
    rw [view_self]
    rfl
  have hdata : (t.view j din).data (din.addrs ndirect) = t.image (din.addrs ndirect) :=
    volume_data hind
  rw [view, volume_putSect hind]
  refine volume_eq ?_ (volume_took_bitmap t) ?_
  · simp only [give, if_neg (Nat.not_le.mpr hk)]
    rfl
  · simp only [give, if_neg (Nat.not_le.mpr hk), haddr, hdata]
    exact congrArg (Function.update · _ _) h.books.data_fresh.symm

theorem giveAddr {k : Nat} (hk : k ≤ ndirect) (hnone : din.addrs k = 0)
    (hlow : t.freeblock < bsize * 8 - 1) :
    Held t.took j { din with addrs := Function.update din.addrs k t.freeblock } ∧
      Moved t t.took j din { din with addrs := Function.update din.addrs k t.freeblock } (· = k) := by
  have hview := h.view_took hk
  have hbound : t.freeblock < 2 ^ 32 := by
    simp only [bsize] at hlow
    omega
  have hnone' : (t.view j din).ref j k = 0 := by rw [ref_view hk, hnone]
  have hind : ndirect < k → (t.view j din).ref j ndirect ≠ 0 := fun hgt => by omega
  refine ⟨⟨h.books.took, h.inum, ?_, h.type, ?_⟩, rfl, rfl, fun _ _ => rfl, ?_⟩
  · refine { h.fits with addrs := fun i hi => ?_, rest := fun i hi => ?_ }
    · simp only [Function.update_apply]
      split
      · exact hbound
      · exact h.fits.addrs i hi
    · simp only [Function.update_of_ne (show i ≠ k by omega)]
      exact h.fits.rest i hi
  · rw [hview]
    exact h.sound.give h.alloc hnone' hind view_fresh hlow hbound
  · rw [hview]
    exact h.sound.grows_give h.alloc hnone' hind view_fresh hbound

theorem giveWord {k : Nat} (hk : ndirect < k) (hind : (t.view j din).ref j ndirect ≠ 0)
    (hnone : (t.view j din).ref j k = 0) (hlow : t.freeblock < bsize * 8 - 1) :
    Held (t.took.putSect (din.addrs ndirect)
        (setWord (t.image (din.addrs ndirect)) (k - ndirect - 1) t.freeblock)) j din ∧
      Moved t (t.took.putSect (din.addrs ndirect)
        (setWord (t.image (din.addrs ndirect)) (k - ndirect - 1) t.freeblock)) j din din (· = k) := by
  have hview := h.view_word hk hind
  have hbound : t.freeblock < 2 ^ 32 := by
    simp only [bsize] at hlow
    omega
  have hlt := h.ref_lt (by decide) hind
  rw [ref_view le_rfl] at hlt
  refine ⟨⟨h.books.took.putSect (Nat.lt_succ_of_lt hlt.2) _, h.inum, h.fits, h.type, ?_⟩, rfl, rfl,
    fun b hb => Function.update_of_ne (show b ≠ din.addrs ndirect by omega) .., ?_⟩
  · rw [hview]
    exact h.sound.give h.alloc hnone (fun _ => hind) view_fresh hlow hbound
  · rw [hview]
    exact h.sound.grows_give h.alloc hnone (fun _ => hind) view_fresh hbound

end Held

theorem takeAddr_some {k : Nat} (hne : din.addrs k ≠ 0) : takeAddr din k t = .ok (din, t) := by
  rw [takeAddr, if_neg hne, pure_run]

theorem takeAddr_none {k : Nat} (hnone : din.addrs k = 0) : takeAddr din k t =
    .ok ({ din with addrs := Function.update din.addrs k t.freeblock }, t.took) := by
  rw [takeAddr, if_pos hnone]
  rfl

structure Found (t t' : Mkfs) (j : Nat) (din din' : Dinode) (bn x : Nat) (K : Nat → Prop) : Prop where
  held : Held t' j din'
  moved : Moved t t' j din din' K
  block : (t'.view j din').ref j (blockRef bn) = x
  nonzero : x ≠ 0

theorem takeWord_spec (h : Held t j din) {bn : Nat} (hbn : ndirect ≤ bn)
    (hind : (t.view j din).ref j ndirect ≠ 0) (hlow : t.freeblock < bsize * 8 - 1) :
    wp (takeWord (din.addrs ndirect) (bn - ndirect)) (fun x t' =>
      Found t t' j din din bn x (· = blockRef bn) ∧
        ((t.view j din).ref j (blockRef bn) ≠ 0 ∧ t' = t ∨
          (t.view j din).ref j (blockRef bn) = 0 ∧ x = t.freeblock ∧ t'.freeblock = t.freeblock + 1))
      (fun _ => size < t.freeblock) t := by
  have hk : blockRef bn = bn + 1 := if_neg (by omega)
  have hlt := h.ref_lt (by decide) hind
  have hword := ref_indirect (k := bn + 1) (by omega) hind
  rw [ref_view le_rfl] at hlt hword
  have hsub : bn + 1 - ndirect - 1 = bn - ndirect := by omega
  have hdata : (t.view j din).data (din.addrs ndirect) = t.image (din.addrs ndirect) :=
    volume_data hlt.1
  rw [hdata, hsub, ← hk] at hword
  unfold takeWord
  rw [wp_bind]
  by_cases hsec : din.addrs ndirect < t.sectors
  · refine wp_run (rsect_run hsec) ?_
    rw [← hword]
    by_cases hnone : (t.view j din).ref j (blockRef bn) = 0
    · have hgive := h.giveWord (k := blockRef bn) (by omega) hind hnone hlow
      have hsub' : blockRef bn - ndirect - 1 = bn - ndirect := by omega
      rw [hsub'] at hgive
      have hbound : t.freeblock < 2 ^ 32 := by
        simp only [bsize] at hlow
        omega
      have htake : takeBlock t = .ok (t.freeblock, t.took) := rfl
      rw [if_pos hnone, wp_bind]
      refine wp_run htake ?_
      rw [wp_bind]
      refine wp_run (wsect_run _ hsec) ?_
      rw [wp_pure, word_setWord_self hbound]
      refine ⟨⟨hgive.1, hgive.2, ?_, (h.sound.fresh_ne_zero view_fresh).2⟩,
        Or.inr ⟨hnone, rfl, rfl⟩⟩
      have hview := h.view_word (k := blockRef bn) (by omega) hind
      rw [hsub'] at hview
      rw [hview, ref_give h.sound h.alloc hnone (fun _ => hind) view_fresh hbound h.alloc,
        if_pos ⟨rfl, rfl⟩]
    · rw [if_neg hnone, wp_pure]
      exact ⟨⟨h, .refl .., rfl, hnone⟩, Or.inl ⟨hnone, rfl⟩⟩
  · have hfail : rsect (din.addrs ndirect) t = .error .read := by
      simp only [rsect, bind_get, if_neg hsec, throw_run]
    refine wp_fail hfail ?_
    rw [h.books.sectors] at hsec
    omega

def blocks (n : Nat) : Nat := (n + (bsize - 1)) / bsize + if ndirect * bsize < n then 1 else 0

def newBlocks (off : Nat) : Nat :=
  (if off % bsize = 0 then 1 else 0) + if off = ndirect * bsize then 1 else 0

theorem blocks_round {n : Nat} (hn : 0 < n) (hfits : off % bsize + n ≤ bsize) :
    blocks (off + n) = blocks off + newBlocks off := by
  unfold blocks newBlocks
  simp only [bsize, ndirect] at *
  split <;> split <;> split <;> split <;> omega

structure Exact (v : Volume) (j n : Nat) : Prop where
  data : ∀ bn < maxfile, v.ref j (blockRef bn) ≠ 0 ↔ bn * bsize < n
  indirect : v.ref j ndirect ≠ 0 ↔ ndirect * bsize < n

structure Ready (t : Mkfs) (j : Nat) (din : Dinode) (off : Nat) : Prop extends Held t j din where
  high : t.freeblock ≤ size
  bound : off ≤ maxfile * bsize
  exact : Exact (t.view j din) j off

def Wanted (off k : Nat) : Prop :=
  k = blockRef (off / bsize) ∨ ndirect ≤ off / bsize ∧ k = ndirect

structure Located (t t' : Mkfs) (j : Nat) (din din' : Dinode) (off x : Nat) : Prop extends
    Found t t' j din din' (off / bsize) x (Wanted off) where
  indirect : ndirect ≤ off / bsize → (t'.view j din').ref j ndirect ≠ 0
  total : t'.freeblock = t.freeblock + newBlocks off
  newest : newBlocks off ≠ 0 → x + 1 = t'.freeblock

theorem Ready.low (h : Ready t j din off) : t.freeblock + 1 < bsize * 8 - 1 := by
  have hhigh := h.high
  simp only [bsize, size] at *
  omega

theorem Ready.here (h : Ready t j din off) (hoff : off / bsize < maxfile) :
    (t.view j din).ref j (blockRef (off / bsize)) = 0 ↔ off % bsize = 0 := by
  have hdata := h.exact.data _ hoff
  rw [← not_iff_not, ← ne_eq, hdata]
  simp only [bsize]
  omega

theorem blockOf_direct (h : Ready t j din off) (hlt : off / bsize < ndirect) :
    ∃ r t', blockOf din (off / bsize) t = .ok (r, t') ∧ Located t t' j din r.1 off r.2 := by
  have hhere := h.here (by simp only [maxfile]; omega)
  have hlow := h.low
  have hk : blockRef (off / bsize) = off / bsize := if_pos hlt
  have hind : off ≠ ndirect * bsize := by
    simp only [ndirect, bsize] at *
    omega
  rw [hk, ref_view (by omega)] at hhere
  rw [blockOf, if_pos hlt]
  by_cases hnone : din.addrs (off / bsize) = 0
  · obtain ⟨hheld, hmoved⟩ := h.giveAddr (by omega) hnone (by omega)
    have hnew : newBlocks off = 1 := by
      rw [newBlocks, if_pos (hhere.mp hnone), if_neg hind]
    refine ⟨_, _, bind_ok (takeAddr_none hnone), ⟨hheld,
      hmoved.mono fun k hkk => Or.inl (by rw [hk, hkk]), ?_, ?_⟩, fun hge => by omega, ?_, fun _ => ?_⟩
    · rw [hk, ref_view (by omega)]
    · simp only [Function.update_self]
      exact (h.sound.fresh_ne_zero view_fresh).2
    · rw [hnew]
      rfl
    · simp only [Function.update_self]
      rfl
  · have hnew : newBlocks off = 0 := by
      rw [newBlocks, if_neg fun hmod => hnone (hhere.mpr hmod), if_neg hind]
    refine ⟨_, _, bind_ok (takeAddr_some hnone), ⟨h.toHeld, .refl .., ?_, hnone⟩,
      fun hge => by omega, ?_, fun hn => absurd hnew hn⟩
    · rw [hk, ref_view (by omega)]
    · rw [hnew]
      rfl

theorem blockOf_first (h : Ready t j din off) (heq : off = ndirect * bsize) :
    wp (blockOf din (off / bsize)) (fun r t' => Located t t' j din r.1 off r.2)
      (fun _ => size < t.freeblock + newBlocks off) t := by
  have hbn : off / bsize = ndirect := by rw [heq, Nat.mul_div_cancel _ (by decide)]
  have hhere := h.here (by rw [hbn]; decide)
  have hlow := h.low
  have hnew : newBlocks off = 2 := by
    rw [heq]
    rfl
  have hnone : din.addrs ndirect = 0 := by
    have hexact := h.exact.indirect
    rw [ref_view le_rfl, heq] at hexact
    by_contra hne
    exact lt_irrefl _ (hexact.mp hne)
  obtain ⟨hheld, hmoved⟩ := h.giveAddr le_rfl hnone (by omega)
  have hind : (t.took.view j
      { din with addrs := Function.update din.addrs ndirect t.freeblock }).ref j ndirect ≠ 0 := by
    rw [ref_view le_rfl]
    simp only [Function.update_self]
    exact (h.sound.fresh_ne_zero view_fresh).2
  have hzero := hmoved.grows.other j _ h.alloc fun hk => blockRef_ne (off / bsize) hk.2
  rw [hhere.mpr (by rw [heq]; rfl)] at hzero
  rw [blockOf, if_neg (by omega), wp_bind]
  refine wp_run (takeAddr_none hnone) ?_
  rw [wp_bind]
  refine wp_mono (takeWord_spec hheld (by omega) hind hlow) (fun x t' hpost => ?_) fun _ hfail => ?_
  · obtain ⟨hfound, hcase⟩ := hpost
    obtain ⟨_, hx, hfree⟩ := hcase.resolve_left fun hno => hno.1 hzero
    have hfree' : t'.freeblock = t.freeblock + 1 + 1 := hfree
    have hx' : x = t.freeblock + 1 := hx
    rw [wp_pure]
    refine ⟨⟨hfound.held, (hmoved.trans hfound.moved).mono fun k hk => ?_,
      hfound.block, hfound.nonzero⟩, fun _ => ?_, by rw [hnew]; exact hfree', fun _ => ?_⟩
    · rcases hk with hk | hk
      · exact Or.inr ⟨by omega, hk⟩
      · exact Or.inl hk
    · rw [hfound.moved.grows.kept j ndirect hheld.alloc (by decide) hind]
      exact hind
    · change x + 1 = t'.freeblock
      omega
  · have hfail' : size < t.freeblock + 1 := hfail
    omega

theorem blockOf_indirect (h : Ready t j din off) (hoff : off / bsize < maxfile)
    (hgt : ndirect * bsize < off) :
    wp (blockOf din (off / bsize)) (fun r t' => Located t t' j din r.1 off r.2)
      (fun _ => size < t.freeblock + newBlocks off) t := by
  have hbn : ndirect ≤ off / bsize := by
    simp only [ndirect, bsize] at *
    omega
  have hhere := h.here hoff
  have hlow := h.low
  have hnew : newBlocks off = if off % bsize = 0 then 1 else 0 := by
    rw [newBlocks, if_neg (show off ≠ ndirect * bsize by omega), Nat.add_zero]
  have hind := h.exact.indirect.mpr hgt
  have hsome : din.addrs ndirect ≠ 0 := by rwa [ref_view le_rfl] at hind
  rw [blockOf, if_neg (by omega), wp_bind]
  refine wp_run (takeAddr_some hsome) ?_
  rw [wp_bind]
  refine wp_mono (takeWord_spec h.toHeld hbn hind (by omega)) (fun x t' hpost => ?_)
    fun _ hfail => by omega
  obtain ⟨hfound, hcase⟩ := hpost
  have hkept := hfound.moved.grows.kept j ndirect h.alloc (by decide) hind
  rw [wp_pure]
  refine ⟨⟨hfound.held, hfound.moved.mono fun k hk => Or.inl hk, hfound.block, hfound.nonzero⟩,
    fun _ => by rw [hkept]; exact hind, ?_, ?_⟩
  · rw [hnew]
    rcases hcase with ⟨hthere, rfl⟩ | ⟨hzero, rfl, hfree⟩
    · rw [if_neg fun hmod => hthere (hhere.mpr hmod)]
      rfl
    · rw [if_pos (hhere.mp hzero)]
      exact hfree
  · intro hn
    rcases hcase with ⟨hthere, rfl⟩ | ⟨hzero, rfl, hfree⟩
    · rw [hnew, if_neg fun hmod => hthere (hhere.mpr hmod)] at hn
      exact absurd rfl hn
    · exact hfree.symm

theorem blockOf_spec (h : Ready t j din off) (hoff : off / bsize < maxfile) :
    wp (blockOf din (off / bsize)) (fun r t' => Located t t' j din r.1 off r.2)
      (fun _ => size < t.freeblock + newBlocks off) t := by
  rcases Nat.lt_or_ge (off / bsize) ndirect with hlt | hge
  · obtain ⟨r, t', hrun, hloc⟩ := blockOf_direct h hlt
    exact wp_run hrun hloc
  · rcases Nat.lt_or_ge (ndirect * bsize) off with hgt | hle
    · exact blockOf_indirect h hoff hgt
    · refine blockOf_first h ?_
      simp only [ndirect, bsize] at *
      omega

theorem blocks_mono {m n : Nat} (h : m ≤ n) : blocks m ≤ blocks n := by
  unfold blocks
  simp only [bsize, ndirect]
  split <;> split <;> omega

structure Appended (t t' : Mkfs) (j : Nat) (din din' : Dinode) (off : Nat) (p : List Nat) : Prop where
  ready : Ready t' j din' (off + p.length)
  attrs : din' = { din with addrs := din'.addrs }
  freeinode : t'.freeinode = t.freeinode
  inodes : ∀ b < dataStart, t'.image b = t.image b
  spliced : Spliced (t.view j din) (t'.view j din') j off p
  others : ∀ i k, i ≠ j → ((t.view j din).dinode i).type ≠ .free →
    (t'.view j din').ref i k = (t.view j din).ref i k
  total : t'.freeblock + blocks off = t.freeblock + blocks (off + p.length)
  newest : t'.freeblock = t.freeblock ∨ ∃ bn < maxfile, bn * bsize < off + p.length ∧
    (t'.view j din').ref j (blockRef bn) + 1 = t'.freeblock

theorem Ready.appended_nil (h : Ready t j din off) : Appended t t j din din off [] :=
  ⟨h, rfl, rfl, fun _ _ => rfl, .nil .., fun _ _ _ _ => rfl, rfl, Or.inl rfl⟩

theorem Appended.append {t'' : Mkfs} {din'' : Dinode} {p q : List Nat} (hj : Held t j din)
    (h : Appended t t' j din din' off p)
    (h' : Appended t' t'' j din' din'' (off + p.length) q) :
    Appended t t'' j din din'' off (p ++ q) := by
  have hlen : off + (p ++ q).length = off + p.length + q.length := by
    rw [List.length_append, Nat.add_assoc]
  have htotal := h.total
  have htotal' := h'.total
  refine ⟨by rw [hlen]; exact h'.ready, by rw [h'.attrs, h.attrs], h'.freeinode.trans h.freeinode,
    fun b hb => (h'.inodes b hb).trans (h.inodes b hb),
    h.spliced.append h'.spliced hj.alloc (by rw [hlen]; exact h'.ready.bound), fun i k hi hfree => ?_,
    by rw [hlen]; omega, ?_⟩
  · rw [h'.others i k hi (by rwa [h.spliced.type]), h.others i k hi hfree]
  · rw [hlen]
    rcases h'.newest with hsame | ⟨bn, hbn, hlt, hnew⟩
    · rcases h.newest with hsame' | ⟨bn, hbn, hlt, hnew⟩
      · exact Or.inl (hsame.trans hsame')
      · refine Or.inr ⟨bn, hbn, by omega, ?_⟩
        have hne := (h.ready.exact.data bn hbn).mpr hlt
        rw [h'.spliced.kept j _ h.ready.alloc (blockRef_lt hbn) hne, hnew, hsame]
    · exact Or.inr ⟨bn, hbn, hlt, hnew⟩

theorem Located.exact {x n : Nat} (h : Ready t j din off)
    (hloc : Located t t' j din din' off x) (hn : 0 < n) (hfits : off % bsize + n ≤ bsize) :
    Exact (t'.view j din') j (off + n) := by
  have hgrows := hloc.moved.grows
  refine ⟨fun bn hbn => ?_, ?_⟩
  · by_cases heq : bn = off / bsize
    · rw [heq, hloc.block]
      refine iff_of_true hloc.nonzero ?_
      have := Nat.div_mul_le_self off bsize
      omega
    · rw [hgrows.other j _ h.alloc, h.exact.data bn hbn]
      · simp only [bsize] at *
        omega
      · rintro ⟨_, hk | ⟨_, hk⟩⟩
        · exact heq (blockRef_inj hk)
        · exact blockRef_ne bn hk
  · by_cases hind : ndirect ≤ off / bsize
    · refine iff_of_true (hloc.indirect hind) ?_
      simp only [ndirect, bsize] at *
      omega
    · rw [hgrows.other j _ h.alloc, h.exact.indirect]
      · simp only [ndirect, bsize] at *
        omega
      · rintro ⟨_, hk | hk⟩
        · exact blockRef_ne _ hk.symm
        · exact hind hk.1

theorem Located.round {x : Nat} {part : List Nat} (h : Ready t j din off)
    (hoff : off < maxfile * bsize) (hloc : Located t t' j din din' off x) (hpos : 0 < part.length)
    (hfits : off % bsize + part.length ≤ bsize) (hx : x < size) :
    Appended t (t'.putSect x (patch (t'.image x) (off % bsize) part)) j din din' off part := by
  have hbn := div_bsize hoff
  have hlt := hloc.held.ref_lt (blockRef_lt hbn) (by rw [hloc.block]; exact hloc.nonzero)
  rw [hloc.block] at hlt
  have hdata : (t'.view j din').data x = t'.image x := volume_data hlt.1
  have hview : (t'.putSect x (patch (t'.image x) (off % bsize) part)).view j din' =
      (t'.view j din').setData x (patch ((t'.view j din').data x) (off % bsize) part) := by
    rw [hdata, view, volume_putSect hlt.1]
    rfl
  have hround := Spliced.round hloc.moved.grows hloc.held.sound h.alloc
    (by rw [hloc.block]; exact hloc.nonzero) hfits hoff
  have hsound := hloc.held.sound.setData hloc.held.alloc hbn
    (patch ((t'.view j din').data x) (off % bsize) part)
  have href : ∀ {i k}, ((t'.view j din').dinode i).type ≠ .free →
      ((t'.putSect x (patch (t'.image x) (off % bsize) part)).view j din').ref i k =
        (t'.view j din').ref i k := by
    intro i k hi
    rw [hview]
    rw [← hloc.block]
    exact hloc.held.sound.ref_setData hloc.held.alloc hbn _ hi
  rw [hloc.block, ← hview] at hround hsound
  have hexact := hloc.exact h hpos hfits
  have hheld := hloc.held
  refine ⟨⟨⟨hheld.books.putSect hlt.2 _, hheld.inum, hheld.fits, hheld.type, hsound⟩, ?_, ?_,
    fun bn hbn => by rw [href hheld.alloc]; exact hexact.data bn hbn,
    by rw [href hheld.alloc]; exact hexact.indirect⟩, hloc.moved.attrs, hloc.moved.freeinode,
    fun b hb => ?_, hround,
    fun i k hi hfree => ?_, ?_, ?_⟩
  · change t'.freeblock ≤ size
    by_cases hnew : newBlocks off = 0
    · rw [hloc.total, hnew]
      exact h.high
    · rw [← hloc.newest hnew]
      exact hx
  · simp only [maxfile, ndirect, nindirect, bsize] at *
    omega
  · rw [← hloc.moved.inodes b hb]
    exact Function.update_of_ne (show b ≠ x by omega) ..
  · rw [href (by rwa [hloc.moved.grows.type]), hloc.moved.grows.other i k hfree fun hk => hi hk.1]
  · change t'.freeblock + blocks off = _
    rw [hloc.total, blocks_round hpos hfits]
    omega
  · by_cases hnew : newBlocks off = 0
    · left
      change t'.freeblock = _
      rw [hloc.total, hnew, Nat.add_zero]
    · refine Or.inr ⟨off / bsize, hbn, ?_, ?_⟩
      · have := Nat.div_mul_le_self off bsize
        omega
      · rw [href hheld.alloc, hloc.block]
        exact hloc.newest hnew

theorem round_chunk (off n : Nat) :
    min n ((off / bsize + 1) * bsize - off) = chunk off n ∧ off - off / bsize * bsize = off % bsize := by
  unfold chunk
  simp only [bsize]
  omega

def Room (t : Mkfs) (off n : Nat) : Prop :=
  off + n ≤ maxfile * bsize ∧ t.freeblock + blocks (off + n) ≤ size + blocks off

theorem Room.after {p : List Nat} {n : Nat} (h : Appended t t' j din din' off p)
    (hn : p.length ≤ n) (hroom : Room t off n) : Room t' (off + p.length) (n - p.length) := by
  have htotal := h.total
  have hsum : off + p.length + (n - p.length) = off + n := by omega
  refine ⟨by rw [hsum]; exact hroom.1, ?_⟩
  have hblocks := hroom.2
  rw [hsum]
  omega

theorem Room.newBlocks {n : Nat} (hn : n ≠ 0) (hroom : Room t off n) :
    t.freeblock + newBlocks off ≤ size := by
  have hround := blocks_round (chunk_pos hn) (chunk_fits off n)
  have hmono := blocks_mono (Nat.add_le_add_left (chunk_le off n) off)
  have hblocks := hroom.2
  omega

theorem appendRound_spec {part : List Nat} (h : Ready t j din off) (hbn : off / bsize < maxfile)
    (hpos : 0 < part.length) (hfits : off % bsize + part.length ≤ bsize) :
    wp (appendRound din off part) (fun din' t' => Appended t t' j din din' off part)
      (fun _ => size < t.freeblock + newBlocks off) t := by
  have hoff : off < maxfile * bsize := by
    simp only [maxfile, ndirect, nindirect, bsize] at *
    omega
  rw [appendRound, (round_chunk off 0).2, wp_bind]
  refine wp_post (blockOf_spec h hbn) fun r t₁ hloc => ?_
  obtain ⟨din₁, x⟩ := r
  dsimp only at hloc ⊢
  rw [wp_bind]
  have hsec := hloc.held.books.sectors
  by_cases hx : x < size
  · refine wp_run (rsect_run (by omega)) ?_
    rw [wp_bind]
    refine wp_run (wsect_run _ (by omega)) ?_
    exact hloc.round h hoff hpos hfits hx
  · have hfail : rsect x t₁ = .error .read := by
      simp only [rsect, bind_get]
      rw [if_neg (by omega), throw_run]
    have htotal := hloc.total
    have hlt := hloc.held.ref_lt (blockRef_lt hbn) (by rw [hloc.block]; exact hloc.nonzero)
    rw [hloc.block] at hlt
    exact wp_fail hfail (by omega)

theorem appendLoop_spec {fuel : Nat} {p : List Nat} (h : Ready t j din off)
    (hfuel : p.length ≤ fuel) :
    wp (appendLoop fuel din off p)
      (fun r t' => r.2 = off + p.length ∧ Appended t t' j din r.1 off p)
      (fun _ => ¬ Room t off p.length) t := by
  induction fuel generalizing t din off p with
  | zero =>
    obtain rfl : p = [] := List.eq_nil_of_length_eq_zero (by omega)
    exact ⟨rfl, h.appended_nil⟩
  | succ fuel ih =>
    rw [appendLoop]
    by_cases hnil : p = []
    · rw [if_pos hnil, wp_pure, hnil]
      exact ⟨rfl, h.appended_nil⟩
    · have hn : p.length ≠ 0 := fun hlen => hnil (List.eq_nil_of_length_eq_zero hlen)
      have hle := chunk_le off p.length
      have hpos : 0 < chunk off p.length := chunk_pos hn
      have htake : (p.take (chunk off p.length)).length = chunk off p.length := by
        rw [List.length_take, Nat.min_eq_left hle]
      have hdrop : (p.drop (chunk off p.length)).length = p.length - chunk off p.length :=
        List.length_drop
      rw [if_neg hnil]
      simp only [(round_chunk off p.length).1]
      rw [wp_bind]
      refine wp_assert (fun hbn => ?_) fun hbn hroom => hbn ?_
      · rw [wp_bind]
        refine wp_mono (appendRound_spec h hbn (by rwa [htake])
          (by rw [htake]; exact chunk_fits ..)) (fun din₁ t₁ hround => ?_) fun _ hfull hroom => ?_
        · have hrest := ih (p := p.drop (chunk off p.length)) hround.ready (by omega)
          rw [htake] at hrest
          refine wp_mono hrest (fun r t₂ hpost => ⟨by omega, ?_⟩) fun _ hno hroom => hno ?_
          · have happ := Appended.append h.toHeld hround (by rw [htake]; exact hpost.2)
            rwa [List.take_append_drop] at happ
          · have hafter := hroom.after hround (by omega)
            rwa [htake, ← hdrop] at hafter
        · have hnew := hroom.newBlocks hn
          omega
      · have hbound := hroom.1
        simp only [maxfile, ndirect, nindirect, bsize] at *
        omega

end Mkfs
end Xv6
