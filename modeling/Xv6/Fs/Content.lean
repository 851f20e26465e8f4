import Xv6.Fs.Bmap

namespace Xv6
namespace Fs

open Bytes StateExcept Volume

variable {fs : Fs} {s : Islot} {v : Volume} {lh L src : List Nat} {off n j : Nat}

theorem chunk_le (off n : Nat) : chunk off n ≤ n := Nat.min_le_left ..

theorem chunk_fits (off n : Nat) : off % bsize + chunk off n ≤ bsize := by
  have := Nat.mod_lt off (show 0 < bsize by decide)
  unfold chunk
  omega

theorem chunk_pos (hn : n ≠ 0) : 0 < chunk off n := by
  have := Nat.mod_lt off (show 0 < bsize by decide)
  unfold chunk
  omega

theorem add_div_bsize {i : Nat} (h : off % bsize + i < bsize) : (off + i) / bsize = off / bsize := by
  simp only [bsize] at *
  omega

theorem add_mod_bsize {i : Nat} (h : off % bsize + i < bsize) :
    (off + i) % bsize = off % bsize + i := by
  simp only [bsize] at *
  omega

theorem slice_chunk (v : Volume) (j off n : Nat) :
    slice (v.data (v.ref j (blockRef (off / bsize)))) (off % bsize) (chunk off n) =
      slice (v.byteAt j) off (chunk off n) := by
  refine List.map_congr_left fun i hi => ?_
  have hfits := chunk_fits off n
  have hi := List.mem_range.mp hi
  rw [byteAt, add_div_bsize (by omega), add_mod_bsize (by omega)]

theorem view_dinode (fs : Fs) (s : Islot) :
    (fs.view s).dinode (fs.icache s).inum = (fs.icache s).din := Function.update_self ..

theorem ref_view {k : Nat} (fs : Fs) (s : Islot) (hk : k ≤ ndirect) :
    (fs.view s).ref (fs.icache s).inum k = (fs.icache s).din.addrs k := by
  rw [ref_direct hk, view_dinode]

theorem mapAddr_here {k : Nat} (hk : k ≤ ndirect)
    (hne : (fs.view s).ref (fs.icache s).inum k ≠ 0) :
    mapAddr s k fs = .ok ((fs.view s).ref (fs.icache s).inum k, fs) := by
  rw [ref_view fs s hk] at hne ⊢
  simp only [mapAddr, bind_get]
  rw [if_neg hne]
  rfl

theorem bmap_here {bn : Nat} (hbn : bn < maxfile)
    (hne : (fs.view s).ref (fs.icache s).inum (blockRef bn) ≠ 0) :
    bmap s bn fs = .ok ((fs.view s).ref (fs.icache s).inum (blockRef bn), fs) := by
  unfold bmap blockRef at *
  split at hne
  · next hlt =>
    rw [if_pos hlt, if_pos hlt]
    exact mapAddr_here (by omega) hne
  · next hge =>
    have hin : bn - ndirect < nindirect := by
      simp only [maxfile] at hbn
      omega
    have hind := ind_of_ref (by omega) hne
    have hri := ref_indirect (by omega) hind (k := bn + 1)
    have hsub : bn + 1 - ndirect - 1 = bn - ndirect := by omega
    rw [hsub] at hri
    have hword : word (fs.disk.data ((fs.view s).ref (fs.icache s).inum ndirect)) (bn - ndirect) =
        (fs.view s).ref (fs.icache s).inum (bn + 1) := hri.symm
    rw [if_neg hge, if_pos hin, if_neg hge, bind_ok (mapAddr_here le_rfl hind)]
    simp only [bind_get, hword]
    rw [if_neg hne]
    rfl

theorem readLoop_content {fuel : Nat} (hfuel : n ≤ fuel) (hmax : off + n ≤ maxfile * bsize)
    (hin : ∀ pos < off + n, (fs.view s).ref (fs.icache s).inum (blockRef (pos / bsize)) ≠ 0) :
    readLoop s fuel off n fs = .ok (slice ((fs.view s).byteAt (fs.icache s).inum) off n, fs) := by
  induction fuel generalizing off n with
  | zero =>
    obtain rfl : n = 0 := by omega
    rfl
  | succ fuel ih =>
    rw [readLoop]
    by_cases hn : n = 0
    · rw [if_pos hn, hn]
      rfl
    · have hpos : 0 < chunk off n := chunk_pos hn
      have hle := chunk_le off n
      have hrest : readLoop s fuel (off + chunk off n) (n - chunk off n) fs = _ :=
        ih (by omega) (by omega) fun pos hpos => hin pos (by omega)
      rw [if_neg hn, bind_ok (bmap_here (div_bsize (by omega)) (hin off (by omega))), bind_get,
        bind_ok hrest, pure_run]
      have hdata : fs.disk.data = (fs.view s).data := rfl
      rw [hdata, slice_chunk, ← slice_append, Nat.add_sub_cancel' hle]

theorem readi_here (hdev : (fs.icache s).din.type ≠ .dev) (hle : off + n ≤ (fs.icache s).din.size)
    (hmax : off + n ≤ maxfile * bsize)
    (hin : ∀ pos < off + n, (fs.view s).ref (fs.icache s).inum (blockRef (pos / bsize)) ≠ 0) :
    readi s off n fs = .ok (some (slice ((fs.view s).byteAt (fs.icache s).inum) off n), fs) := by
  have hwrap : ¬ (off > (fs.icache s).din.size ∨ (off + n) % 2 ^ 32 < off) := by
    simp only [maxfile, ndirect, nindirect, bsize] at hmax
    omega
  simp only [readi, bind_get, if_neg hdev, if_neg hwrap]
  rw [if_neg (by omega), bind_ok (readLoop_content le_rfl hmax hin), pure_run]

theorem content_length (v : Volume) (j : Nat) : (v.content j).length = (v.dinode j).size :=
  slice_length ..

theorem content_slice (h : off + n ≤ (v.dinode j).size) :
    ((v.content j).drop off).take n = slice (v.byteAt j) off n := by
  have hsplit : (v.dinode j).size = off + (n + ((v.dinode j).size - off - n)) := by omega
  rw [content, hsplit, slice_append, slice_append, List.drop_left' (slice_length ..),
    List.take_left' (by simp), Nat.zero_add]

theorem readi_content (hsound : (fs.view s).Sound fs.sb) (hfree : (fs.icache s).din.type ≠ .free)
    (hdev : (fs.icache s).din.type ≠ .dev) (hoff : off < 2 ^ 32) (hn : n < 2 ^ 32) :
    readi s off n fs = .ok
      (if off > (fs.icache s).din.size ∨ 2 ^ 32 ≤ off + n then none
        else some ((((fs.view s).content (fs.icache s).inum).drop off).take n), fs) := by
  have hwrap : (off + n) % 2 ^ 32 < off ↔ 2 ^ 32 ≤ off + n := by omega
  have hsize := hsound.size (fs.icache s).inum (by rwa [view_dinode])
  have hwhole := hsound.whole (fs.icache s).inum
  simp only [view_dinode] at hsize hwhole
  simp only [readi, bind_get, if_neg hdev, hwrap]
  split
  · rfl
  · next hok =>
    have hle : ∀ m, off + m ≤ (fs.icache s).din.size →
        readLoop s m off m fs = .ok
          (((((fs.view s).content (fs.icache s).inum).drop off).take m), fs) := by
      intro m hm
      rw [content_slice (by rwa [view_dinode])]
      refine readLoop_content le_rfl (by omega) fun pos hpos => hwhole _ hfree ?_
      have := Nat.div_mul_le_self pos bsize
      omega
    split
    · next hgt =>
      rw [bind_ok (hle _ (by omega)), pure_run]
      have hlen := content_length (fs.view s) (fs.icache s).inum
      rw [view_dinode] at hlen
      rw [List.take_of_length_le, List.take_of_length_le]
      · rw [List.length_drop, hlen]
        omega
      · rw [List.length_drop, hlen]
    · next hgt =>
      rw [bind_ok (hle _ (by omega)), pure_run]

structure Spliced (v v' : Volume) (j off : Nat) (src : List Nat) : Prop where
  attrs : ∀ j', v'.dinode j' = { v.dinode j' with addrs := (v'.dinode j').addrs }
  dinode : ∀ j', j' ≠ j → v'.dinode j' = v.dinode j'
  kept : ∀ j' k, (v.dinode j').type ≠ .free → k < nref → v.ref j' k ≠ 0 → v'.ref j' k = v.ref j' k
  found : ∀ pos, off ≤ pos → pos < off + src.length → v'.ref j (blockRef (pos / bsize)) ≠ 0
  bytes : ∀ j' pos, (v.dinode j').type ≠ .free → pos < maxfile * bsize →
    (v.ref j' (blockRef (pos / bsize)) ≠ 0 ∨ j' = j ∧ off ≤ pos ∧ pos < off + src.length) →
    v'.byteAt j' pos = if j' = j ∧ off ≤ pos ∧ pos < off + src.length then src.getD (pos - off) 0
      else v.byteAt j' pos

theorem Spliced.type {v' : Volume} (h : Spliced v v' j off src) (j' : Nat) :
    (v'.dinode j').type = (v.dinode j').type := by rw [h.attrs]

theorem Spliced.nil (v : Volume) (j off : Nat) : Spliced v v j off [] where
  attrs _ := rfl
  dinode _ _ := rfl
  kept _ _ _ _ _ := rfl
  found pos hle hlt := by
    simp only [List.length_nil] at hlt
    omega
  bytes j' pos _ _ _ := by
    rw [if_neg]
    rintro ⟨_, hle, hlt⟩
    simp only [List.length_nil] at hlt
    omega

theorem Spliced.append {v' v'' : Volume} {a b : List Nat} (h : Spliced v v' j off a)
    (h' : Spliced v' v'' j (off + a.length) b) (hj : (v.dinode j).type ≠ .free)
    (hmax : off + (a ++ b).length ≤ maxfile * bsize) : Spliced v v'' j off (a ++ b) := by
  rw [List.length_append] at hmax
  refine ⟨fun j' => by rw [h'.attrs, h.attrs], fun j' hj' => (h'.dinode j' hj').trans (h.dinode j' hj'), fun j' k hj' hk hne => ?_,
    fun pos hle hlt => ?_, fun j' pos hj' hpos hin => ?_⟩
  · have hkept := h.kept j' k hj' hk hne
    rw [h'.kept j' k (by rwa [h.type]) hk (by rwa [hkept]), hkept]
  · rw [List.length_append] at hlt
    rcases Nat.lt_or_ge pos (off + a.length) with hfst | hsnd
    · have hfound := h.found pos hle hfst
      rwa [h'.kept j _ (by rwa [h.type]) (blockRef_lt (div_bsize (by omega))) hfound]
    · exact h'.found pos hsnd (by omega)
  · rw [List.length_append] at hin ⊢
    have hfst : v'.ref j' (blockRef (pos / bsize)) ≠ 0 ∨
        j' = j ∧ off + a.length ≤ pos ∧ pos < off + a.length + b.length := by
      rcases hin with hne | ⟨rfl, hle, hlt⟩
      · left
        rwa [h.kept j' _ hj' (blockRef_lt (div_bsize hpos)) hne]
      · rcases Nat.lt_or_ge pos (off + a.length) with hfst | hsnd
        · exact Or.inl (h.found pos hle hfst)
        · exact Or.inr ⟨rfl, hsnd, by omega⟩
    rw [h'.bytes j' pos (by rwa [h.type]) hpos hfst]
    by_cases hsnd : j' = j ∧ off + a.length ≤ pos ∧ pos < off + a.length + b.length
    · rw [if_pos hsnd, if_pos ⟨hsnd.1, by omega, by omega⟩,
        List.getD_append_right _ _ _ _ (by omega), Nat.sub_sub]
    · rw [if_neg hsnd]
      rw [h.bytes j' pos hj' hpos (by
        rcases hin with hne | hin
        · exact Or.inl hne
        · exact Or.inr ⟨hin.1, hin.2.1, by omega⟩)]
      by_cases hin' : j' = j ∧ off ≤ pos ∧ pos < off + a.length
      · rw [if_pos hin', if_pos ⟨hin'.1, hin'.2.1, by omega⟩,
          List.getD_append _ _ _ _ (by omega)]
      · rw [if_neg hin', if_neg (by omega)]

theorem Spliced.round {sb : Superblock} {v v' : Volume} {K : Nat → Prop} {src : List Nat}
    (hgrows : v.Grows v' j K) (hsound : v'.Sound sb) (hj : (v.dinode j).type ≠ .free)
    (hne : v'.ref j (blockRef (off / bsize)) ≠ 0) (hfits : off % bsize + src.length ≤ bsize)
    (hoff : off < maxfile * bsize) :
    Spliced v (v'.setData (v'.ref j (blockRef (off / bsize)))
      (patch (v'.data (v'.ref j (blockRef (off / bsize)))) (off % bsize) src)) j off src := by
  have hj' : (v'.dinode j).type ≠ .free := by rwa [hgrows.type]
  have hbn := div_bsize hoff
  have hblock : ∀ pos, off ≤ pos → pos < off + src.length →
      pos / bsize = off / bsize ∧ pos % bsize = off % bsize + (pos - off) := by
    intro pos hle hlt
    have hlt' : off % bsize + (pos - off) < bsize := by omega
    have hdiv := add_div_bsize hlt'
    have hmod := add_mod_bsize hlt'
    rw [Nat.add_sub_cancel' hle] at hdiv hmod
    exact ⟨hdiv, hmod⟩
  refine ⟨hgrows.attrs, hgrows.dinode, fun i k hi hk hne' => ?_, fun pos hle hlt => ?_,
    fun i pos hi hpos hin => ?_⟩
  · rw [hsound.ref_setData hj' hbn _ (by rwa [hgrows.type]), hgrows.kept i k hi hk hne']
  · rw [hsound.ref_setData hj' hbn _ hj', (hblock pos hle hlt).1]
    exact hne
  · have hthere : v'.ref i (blockRef (pos / bsize)) ≠ 0 := by
      rcases hin with hne' | ⟨rfl, hle, hlt⟩
      · rwa [hgrows.kept i _ hi (blockRef_lt (div_bsize hpos)) hne']
      · rwa [(hblock pos hle hlt).1]
    rw [hsound.byteAt_setData hj' hbn _ (by rwa [hgrows.type]) hpos hthere]
    by_cases hrange : i = j ∧ off ≤ pos ∧ pos < off + src.length
    · obtain ⟨rfl, hle, hlt⟩ := hrange
      rw [if_pos ⟨rfl, (hblock pos hle hlt).1⟩, if_pos ⟨rfl, hle, hlt⟩, (hblock pos hle hlt).2,
        patch_inside (by omega)]
    · have hne' : v.ref i (blockRef (pos / bsize)) ≠ 0 := hin.resolve_right hrange
      rw [if_neg hrange, ← hgrows.bytes i pos hi hpos hne']
      split
      · next heq =>
        obtain ⟨rfl, hdiv⟩ := heq
        have hout : pos < off ∨ off + src.length ≤ pos := by
          by_contra hin'
          exact hrange ⟨rfl, by omega, by omega⟩
        rw [patch_outside, byteAt, hdiv]
        simp only [bsize] at hdiv hfits ⊢
        omega
      · rfl

def touched (off n : Nat) : Nat := if n = 0 then 0 else (off % bsize + n - 1) / bsize + 1

theorem touched_step (hn : n ≠ 0) :
    touched off n = touched (off + chunk off n) (n - chunk off n) + 1 := by
  have hmod := Nat.mod_lt off (show 0 < bsize by decide)
  unfold touched chunk
  simp only [bsize] at *
  rw [if_neg hn]
  split <;> omega

theorem Open.setData {sb : Superblock} {bn : Nat} (h : Open sb j L v lh) (hbn : bn < maxfile)
    (bytes : Nat → Nat) : Open sb j L (v.setData (v.ref j (blockRef bn)) bytes) lh :=
  { h with
    sound := h.sound.setData h.type hbn bytes
    sub := fun x hx => by
      rw [h.sound.ref_setData h.type hbn bytes h.type]
      exact h.sub x hx }

theorem writeRound_ok {K : Finset Nat} {part : List Nat}
    (h : Open fs.sb (fs.icache s).inum L v lh) (hbusy : fs.busy ≠ none)
    (hsize : fs.sb.size ≤ 2 ^ 32) (hroom : fs.sb.Room (L.length + 2))
    (hfits : off % bsize + part.length ≤ bsize) (hoff : off < maxfile * bsize)
    (hK : blockRef (off / bsize) ∈ K) (hKi : ndirect ≤ off / bsize → ndirect ∈ K)
    (hlack : (v.lacks (fs.icache s).inum K).card ≤ v.freeCount fs.sb) :
    ∃ b v₁ lh₁ v' lh', bmap s (off / bsize) (fs.setView s v lh) = .ok (b, fs.setView s v₁ lh₁) ∧
      setBlock b (patch (v₁.data b) (off % bsize) part) (fs.setView s v₁ lh₁) =
        .ok ((), fs.setView s v' lh') ∧
      Spliced v v' (fs.icache s).inum off part ∧ Open fs.sb (fs.icache s).inum (b :: L) v' lh' ∧
      (v'.lacks (fs.icache s).inum K).card ≤ v'.freeCount fs.sb ∧
      (v.lacks (fs.icache s).inum K = ∅ →
        v'.dinode = v.dinode ∧ v'.lacks (fs.icache s).inum K = ∅) := by
  have hbn := div_bsize hoff
  obtain ⟨v₁, lh₁, hbmap, hall⟩ := bmap_ok h hbusy hsize hroom hbn hK hKi hlack
  have hopen := hall.opened
  rw [if_neg (blockRef_ne _)] at hopen
  have hlacks := hopen.sound.lacks_setData hopen.type hbn
    (patch (v₁.data (v₁.ref (fs.icache s).inum (blockRef (off / bsize)))) (off % bsize) part) K
  refine ⟨_, v₁, lh₁, _, _, hbmap, setBlock_setView hbusy (hroom.mono hopen.length_le),
    .round hall.allots.grows hopen.sound h.type hall.found hfits hoff,
    (hopen.logs (Or.inl List.mem_cons_self)).setData hbn _, ?_, fun hnone => ?_⟩
  · rw [hlacks]
    exact hall.allots.free hlack
  · obtain rfl := hall.allots.same hnone
    exact ⟨rfl, hlacks.trans hnone⟩

theorem writeLoop_ok {fuel : Nat} {K : Finset Nat} (h : Open fs.sb (fs.icache s).inum L v lh)
    (hbusy : fs.busy ≠ none) (hsize : fs.sb.size ≤ 2 ^ 32) (hfuel : src.length ≤ fuel)
    (hmax : off + src.length ≤ maxfile * bsize)
    (hroom : fs.sb.Room (L.length + touched off src.length + 1))
    (hK : ∀ pos, off ≤ pos → pos < off + src.length →
      blockRef (pos / bsize) ∈ K ∧ (ndirect ≤ pos / bsize → ndirect ∈ K))
    (hlack : (v.lacks (fs.icache s).inum K).card ≤ v.freeCount fs.sb) :
    ∃ v' lh' L', writeLoop s fuel off src (fs.setView s v lh) = .ok ((), fs.setView s v' lh') ∧
      Spliced v v' (fs.icache s).inum off src ∧ Open fs.sb (fs.icache s).inum L' v' lh' ∧
      L'.length = L.length + touched off src.length ∧
      (v.lacks (fs.icache s).inum K = ∅ → v'.dinode = v.dinode) := by
  induction fuel generalizing off src v lh L with
  | zero =>
    obtain rfl : src = [] := List.eq_nil_of_length_eq_zero (by omega)
    exact ⟨v, lh, L, rfl, .nil .., h, rfl, fun _ => rfl⟩
  | succ fuel ih =>
    rw [writeLoop]
    by_cases hnil : src = []
    · subst hnil
      exact ⟨v, lh, L, rfl, .nil .., h, rfl, fun _ => rfl⟩
    · have hn : src.length ≠ 0 := fun hlen => hnil (List.eq_nil_of_length_eq_zero hlen)
      have hpos : 0 < chunk off src.length := chunk_pos hn
      have hle := chunk_le off src.length
      have hstep : touched off src.length = _ := touched_step hn
      have hhere := hK off le_rfl (by omega)
      have htake : (src.take (chunk off src.length)).length = chunk off src.length := by
        rw [List.length_take]
        omega
      have hdrop : (src.drop (chunk off src.length)).length =
          src.length - chunk off src.length := List.length_drop
      have hfits : off % bsize + (src.take (chunk off src.length)).length ≤ bsize := by
        rw [htake]
        exact chunk_fits off src.length
      have hmax' : off + chunk off src.length + (src.drop (chunk off src.length)).length ≤
          maxfile * bsize := by omega
      obtain ⟨b, v₁, lh₁, v₂, lh₂, hbmap, hset, hround, hopen, hlack', hsame⟩ :=
        writeRound_ok h hbusy hsize (hroom.mono (by omega)) hfits (by omega) hhere.1 hhere.2 hlack
      obtain ⟨v', lh', L', hrest, hspl, hopen', hlen', hsame'⟩ := ih hopen (by omega) hmax'
        (hroom.mono (by rw [hdrop, List.length_cons]; omega))
        (fun pos hge hlt => hK pos (by omega) (by omega)) hlack'
      have happ := hround.append (b := src.drop (chunk off src.length)) (by rwa [htake]) h.type
        (by rw [List.take_append_drop]; exact hmax)
      rw [List.take_append_drop] at happ
      refine ⟨v', lh', L', ?_, happ, hopen', ?_, fun hnone => ?_⟩
      · rw [if_neg hnil, bind_ok hbmap, bind_get, setView_data, bind_ok hset]
        exact hrest
      · rw [hlen', List.length_cons, hdrop]
        omega
      · rw [hsame' (hsame hnone).2, (hsame hnone).1]

def needs (off n : Nat) : Finset Nat :=
  (Finset.Ico off (off + n)).image (fun pos => blockRef (pos / bsize)) ∪
    if ndirect * bsize < off + n ∧ 0 < n then {ndirect} else ∅

theorem mem_needs {pos : Nat} (hle : off ≤ pos) (hlt : pos < off + n) :
    blockRef (pos / bsize) ∈ needs off n ∧ (ndirect ≤ pos / bsize → ndirect ∈ needs off n) := by
  refine ⟨Finset.mem_union_left _ (Finset.mem_image_of_mem _ (Finset.mem_Ico.mpr ⟨hle, hlt⟩)),
    fun hind => Finset.mem_union_right _ ?_⟩
  rw [if_pos, Finset.mem_singleton]
  simp only [ndirect, bsize] at *
  omega

structure Wrote (sb : Superblock) (v v' : Volume) (j off : Nat) (src : List Nat) : Prop where
  sound : v'.Sound sb
  content : v'.content j = splice (v.content j) off src
  attrs : v'.dinode j = { v.dinode j with
    size := max (v.dinode j).size (off + src.length), addrs := (v'.dinode j).addrs }
  other : ∀ j', j' ≠ j → v'.dinode j' = v.dinode j'
  bytes : ∀ j', j' ≠ j → (v.dinode j').type ≠ .free → v'.content j' = v.content j'

theorem content_setSize {n : Nat} : (v.setDinode j { v.dinode j with size := n }).content j =
    slice (v.byteAt j) 0 n := by
  have hbyte : (v.setDinode j { v.dinode j with size := n }).byteAt j = v.byteAt j := by
    funext pos
    rw [byteAt, ref_setSize]
    rfl
  rw [Volume.content, hbyte]
  simp [setDinode]

theorem Spliced.wrote {sb : Superblock} {v' : Volume} (h : Spliced v v' j off src)
    (hsound : v.Sound sb) (hsound' : v'.Sound sb) (hj : (v.dinode j).type ≠ .free)
    (hoff : off ≤ (v.dinode j).size) (hmax : off + src.length ≤ maxfile * bsize) :
    Wrote sb v (v'.setDinode j
      { v'.dinode j with size := max (v.dinode j).size (off + src.length) }) j off src := by
  have hsize := hsound.size j hj
  have hwhole : ∀ j' pos, (v.dinode j').type ≠ .free → pos < (v.dinode j').size →
      v.ref j' (blockRef (pos / bsize)) ≠ 0 := fun j' pos hj' hpos =>
    hsound.whole j' _ hj' (lt_of_le_of_lt (Nat.div_mul_le_self pos bsize) hpos)
  have hfound : ∀ pos < max (v.dinode j).size (off + src.length),
      v'.ref j (blockRef (pos / bsize)) ≠ 0 := by
    intro pos hpos
    rcases Nat.lt_or_ge pos (v.dinode j).size with hlt | hge
    · have hne := hwhole j pos hj hlt
      rwa [h.kept j _ hj (blockRef_lt (div_bsize (by omega))) hne]
    · exact h.found pos (by omega) (by omega)
  refine ⟨hsound'.setSize (by omega) fun bn hbn => ?_, ?_, ?_, fun j' hj' => ?_,
    fun j' hj' hfree => ?_⟩
  · have hne := hfound (bn * bsize) hbn
    rwa [Nat.mul_div_cancel _ (by decide)] at hne
  · rw [content_setSize, Volume.content]
    refine slice_eq_splice hoff (fun i hi => ?_) fun k hk hout => ?_
    · rw [h.bytes j _ hj (by omega) (Or.inr ⟨rfl, by omega, by omega⟩),
        if_pos ⟨rfl, by omega, by omega⟩, Nat.add_sub_cancel_left]
    · rw [h.bytes j k hj (by omega) (Or.inl (hwhole j k hj hk)), if_neg (by omega)]
  · simp only [setDinode, Function.update_self]
    rw [h.attrs]
  · simp only [setDinode, Function.update_of_ne hj']
    exact h.dinode j' hj'
  · have hdin : (v'.setDinode j
        { v'.dinode j with size := max (v.dinode j).size (off + src.length) }).dinode j' =
        v'.dinode j' := by simp only [setDinode, Function.update_of_ne hj']
    rw [Volume.content, Volume.content, hdin, h.dinode j' hj']
    refine slice_congr fun i hi => ?_
    rw [byteAt, ref_setSize]
    change v'.byteAt j' (0 + i) = _
    have hle := hsound.size j' hfree
    rw [h.bytes j' _ hfree (by omega) (Or.inl (hwhole j' _ hfree (by omega))),
      if_neg fun heq => hj' heq.1]

theorem Sound.lacks_needs {sb : Superblock} (h : v.Sound sb) (hj : (v.dinode j).type ≠ .free)
    (hle : off + n ≤ (v.dinode j).size) : v.lacks j (needs off n) = ∅ := by
  have hwhole : ∀ pos < off + n, v.ref j (blockRef (pos / bsize)) ≠ 0 := fun pos hpos =>
    h.whole j _ hj (lt_of_le_of_lt (Nat.div_mul_le_self pos bsize) (by omega))
  refine Finset.filter_eq_empty_iff.mpr fun k hk => ?_
  rcases Finset.mem_union.mp hk with hk | hk
  · obtain ⟨pos, hpos, rfl⟩ := Finset.mem_image.mp hk
    exact hwhole pos (Finset.mem_Ico.mp hpos).2
  · split at hk
    · next hlt =>
      obtain rfl := Finset.mem_singleton.mp hk
      have hne := hwhole (ndirect * bsize) hlt.1
      exact ind_of_ref (by decide) hne
    · simp at hk

def stored (fs : Fs) (s : Islot) (v : Volume) (lh : List Nat) : Fs :=
  { fs.setView s v lh with disk := v }

theorem iupdate_setView (hv : ∀ j, j ≠ (fs.icache s).inum → v.dinode j = fs.disk.dinode j)
    (hbusy : fs.busy ≠ none) (hroom : fs.sb.Room lh.length) :
    iupdate s (fs.setView s v lh) =
      .ok ((), fs.stored s v (recorded lh (iblock (fs.icache s).inum))) := by
  have hupd := update_dinode hv
  simp only [iupdate, bind_get, setDisk, bind_modify, setView_inum, setView_din]
  simp only [stored, setView, hupd]
  exact logWrite_ok hbusy hroom

def Superblock.maps (sb : Superblock) : List Nat := (List.range (sb.size / bpb + 1)).map fun i =>
  sb.bblock (i * bpb)

theorem Superblock.mem_maps {sb : Superblock} {b : Nat} (hb : b < sb.size) :
    sb.bblock b ∈ sb.maps := by
  refine List.mem_map.mpr ⟨b / bpb, List.mem_range.mpr ?_, ?_⟩
  · have := Nat.div_le_div_right (c := bpb) hb.le
    omega
  · simp [Superblock.bblock]

theorem writei_ok (hsound : (fs.view s).Sound fs.sb) (hfree : (fs.icache s).din.type ≠ .free)
    (hdev : (fs.icache s).din.type ≠ .dev) (hsize : fs.sb.size ≤ 2 ^ 32) (hbusy : fs.busy ≠ none)
    (hnodup : fs.lh.Nodup)
    (hroom : fs.sb.Room (fs.lh.length + fs.sb.maps.length + touched off src.length + 1))
    (hlack : ((fs.view s).lacks (fs.icache s).inum (needs off src.length)).card ≤
      (fs.view s).freeCount fs.sb)
    (hoff : off ≤ (fs.icache s).din.size) (hmax : off + src.length ≤ maxfile * bsize) :
    ∃ v' lh', Wrote fs.sb (fs.view s) v' (fs.icache s).inum off src ∧
      (writei s off src fs = .ok (some src.length, fs.stored s v' lh') ∨
        v'.dinode = (fs.view s).dinode ∧
          writei s off src fs = .ok (some src.length, fs.setView s v' lh')) := by
  have hfree' : ((fs.view s).dinode (fs.icache s).inum).type ≠ .free := by rwa [view_dinode]
  have hopen : Open fs.sb (fs.icache s).inum (fs.lh ++ fs.sb.maps) (fs.view s) fs.lh :=
    ⟨hsound, hfree', hnodup, fun x hx => Or.inl (List.mem_append_left _ hx), fun b hb =>
      List.mem_append_right _ (Superblock.mem_maps hb)⟩
  obtain ⟨v₁, lh₁, L₁, hloop, hspl, hopen₁, hlen, hsame⟩ := writeLoop_ok hopen hbusy hsize le_rfl hmax
    (by rw [List.length_append]; exact hroom) (fun pos hle hlt => mem_needs hle hlt) hlack
  have hwrote := hspl.wrote hsound hopen₁.sound hfree' (by rwa [view_dinode]) hmax
  rw [setView_view] at hloop
  have hroom₁ : fs.sb.Room lh₁.length := hroom.mono (by
    have := hopen₁.length_le
    rw [List.length_append] at hlen
    omega)
  rw [view_dinode] at hwrote
  have hpass : ¬(off > (fs.icache s).din.size ∨ (off + src.length) % 2 ^ 32 < off) := by
    simp only [maxfile, ndirect, nindirect, bsize] at hmax
    omega
  simp only [writei, bind_get, if_neg hdev, if_neg hpass, if_neg (Nat.not_lt.mpr hmax),
    bind_ok hloop]
  by_cases hgrew : (fs.icache s).din.size < off + src.length
  · have hmaxsize : max (fs.icache s).din.size (off + src.length) = off + src.length := by omega
    rw [hmaxsize] at hwrote
    refine ⟨_, recorded lh₁ (iblock (fs.icache s).inum), hwrote, Or.inl ?_⟩
    rw [if_pos ⟨by omega, hgrew⟩, bind_ok setDin_setView]
    rw [bind_ok (iupdate_setView (fun j hj => ?_) hbusy hroom₁)]
    · rfl
    · rw [hwrote.other j hj, view]
      exact Function.update_of_ne hj ..
  · have hmaxsize : max (fs.icache s).din.size (off + src.length) = (fs.icache s).din.size := by
      omega
    have hsame₁ := hsame (Sound.lacks_needs hsound hfree' (by rw [view_dinode]; omega))
    have hid : v₁.setDinode (fs.icache s).inum { v₁.dinode (fs.icache s).inum with
        size := (fs.icache s).din.size } = v₁ := by
      have hdin : v₁.dinode (fs.icache s).inum = (fs.icache s).din := by rw [hsame₁, view_dinode]
      rw [← hdin]
      simp [setDinode]
    rw [hmaxsize, hid] at hwrote
    refine ⟨v₁, lh₁, hwrote, Or.inr ⟨hsame₁, ?_⟩⟩
    rw [if_neg fun h => hgrew h.2]
    rfl

theorem view_stored (v : Volume) (lh : List Nat) : (fs.stored s v lh).view s = v := by
  simp [stored, view, setView]

structure InTrans (fs : Fs) (n : Nat) : Prop where
  busy : fs.busy ≠ none
  nodup : fs.lh.Nodup
  room : fs.sb.Room (fs.lh.length + fs.sb.maps.length + n + 1)

structure Whole (fs : Fs) (s : Islot) : Prop where
  sound : (fs.view s).Sound fs.sb
  alloc : (fs.icache s).din.type ≠ .free
  size : fs.sb.size ≤ 2 ^ 32

structure Frame (fs fs' : Fs) (s : Islot) : Prop where
  rest : fs' = { fs with disk := fs'.disk, icache := fs'.icache, lh := fs'.lh }
  other : ∀ s', s' ≠ s → fs'.icache s' = fs.icache s'
  self : fs'.icache s = { fs.icache s with din := (fs'.icache s).din }

theorem Frame.sb {fs' : Fs} (h : Frame fs fs' s) : fs'.sb = fs.sb := by rw [h.rest]

theorem Frame.inum {fs' : Fs} (h : Frame fs fs' s) : (fs'.icache s).inum = (fs.icache s).inum := by
  rw [h.self]

theorem setView_frame : Frame fs (fs.setView s v lh) s :=
  ⟨rfl, fun _ hs => Function.update_of_ne hs .., by simp [setView]⟩

theorem stored_frame : Frame fs (fs.stored s v lh) s :=
  ⟨rfl, fun _ hs => Function.update_of_ne hs .., by simp [stored, setView]⟩

theorem writei_wrote (h : fs.Whole s) (hdev : (fs.icache s).din.type ≠ .dev)
    (htrans : fs.InTrans (touched off src.length))
    (hlack : ((fs.view s).lacks (fs.icache s).inum (needs off src.length)).card ≤
      (fs.view s).freeCount fs.sb)
    (hoff : off ≤ (fs.icache s).din.size) (hmax : off + src.length ≤ maxfile * bsize) :
    ∃ fs', writei s off src fs = .ok (some src.length, fs') ∧ Frame fs fs' s ∧
      Wrote fs.sb (fs.view s) (fs'.view s) (fs.icache s).inum off src ∧
      (fs.disk = fs.view s → fs'.disk = fs'.view s) := by
  obtain ⟨v', lh', hwrote, hrun | ⟨hsame, hrun⟩⟩ := writei_ok h.sound h.alloc hdev h.size
    htrans.busy htrans.nodup htrans.room hlack hoff hmax
  · have hview : (fs.stored s v' lh').view s = v' := view_stored v' lh'
    exact ⟨_, hrun, stored_frame, by rwa [hview], fun _ => hview.symm⟩
  · have hview : (fs.setView s v' lh').view s = v' := view_setView fun j hj => by
      rw [hwrote.other j hj, view]
      exact Function.update_of_ne hj ..
    refine ⟨_, hrun, setView_frame, by rwa [hview], fun hsync => ?_⟩
    rw [hview]
    simp only [setView]
    rw [hsync, ← hsame]

theorem writei_refused (hdev : (fs.icache s).din.type ≠ .dev) (hoff : off < 2 ^ 32)
    (hn : src.length < 2 ^ 32)
    (h : off > (fs.icache s).din.size ∨ 2 ^ 32 ≤ off + src.length ∨
      off + src.length > maxfile * bsize) : writei s off src fs = .ok (none, fs) := by
  have hwrap : (off + src.length) % 2 ^ 32 < off ↔ 2 ^ 32 ≤ off + src.length := by omega
  simp only [writei, bind_get, if_neg hdev, hwrap]
  split
  · rfl
  · next hpass =>
    rw [if_pos (by tauto)]
    rfl

theorem inode_bytes (fs : Fs) (s : Islot) (h : fs.Whole s) (hdev : (fs.icache s).din.type ≠ .dev)
    (off n : Nat) (hoff : off < 2 ^ 32) (hn : n < 2 ^ 32) :
    readi s off n fs = .ok
      (if off > (fs.icache s).din.size ∨ 2 ^ 32 ≤ off + n then none
        else some ((((fs.view s).content (fs.icache s).inum).drop off).take n), fs) ∧
    ∀ src : List Nat, src.length = n →
      if off > (fs.icache s).din.size ∨ 2 ^ 32 ≤ off + n ∨ off + n > maxfile * bsize then
        writei s off src fs = .ok (none, fs)
      else fs.InTrans (touched off n) →
        ((fs.view s).lacks (fs.icache s).inum (needs off n)).card ≤ (fs.view s).freeCount fs.sb →
        ∃ fs', writei s off src fs = .ok (some n, fs') ∧ fs'.Whole s ∧
          (fs'.view s).content (fs.icache s).inum =
            splice ((fs.view s).content (fs.icache s).inum) off src ∧
          (fs'.icache s).din.size = max (fs.icache s).din.size (off + n) ∧
          ∀ j ≠ (fs.icache s).inum, ((fs.view s).dinode j).type ≠ .free →
            (fs'.view s).content j = (fs.view s).content j := by
  refine ⟨readi_content h.sound h.alloc hdev hoff hn, fun src hlen => ?_⟩
  subst hlen
  split
  · next hbad => exact writei_refused hdev hoff hn hbad
  · next hpass =>
    intro htrans hlack
    obtain ⟨fs', hrun, hframe, hwrote, -⟩ := writei_wrote h hdev htrans hlack (by omega) (by omega)
    have hdin : (fs'.icache s).din = (fs'.view s).dinode (fs.icache s).inum := by
      rw [← hframe.inum, view_dinode]
    have hattrs := hwrote.attrs
    rw [view_dinode] at hattrs
    refine ⟨fs', hrun, ⟨by rw [hframe.sb]; exact hwrote.sound, ?_, by rw [hframe.sb]; exact h.size⟩,
      hwrote.content, ?_, hwrote.bytes⟩
    · rw [hdin, hattrs]
      exact h.alloc
    · rw [hdin, hattrs]

def mkfsSb : Superblock := ⟨1024, 200, 10⟩

def sampleVolume (attrs : Nat → FileType × Nat) (data : Nat → Nat → Nat) : Volume where
  dinode j := if j < 4 then
      ⟨(attrs j).1, 0, 0, 1, (attrs j).2, fun i => if i < ndirect then 29 + 12 * j + i else 0⟩
    else ⟨.free, 0, 0, 0, 0, fun _ => 0⟩
  bitmap b := decide (b < 77)
  data := data

section Sample

variable {attrs : Nat → FileType × Nat} {data : Nat → Nat → Nat}

theorem sampleVolume_lt (h : ((sampleVolume attrs data).dinode j).type ≠ .free) : j < 4 := by
  by_contra hj
  exact h (by simp [sampleVolume, hj])

theorem sampleVolume_ref (hj : j < 4) (k : Nat) :
    (sampleVolume attrs data).ref j k = if k < ndirect then 29 + 12 * j + k else 0 := by
  have haddr : ∀ i, ((sampleVolume attrs data).dinode j).addrs i =
      if i < ndirect then 29 + 12 * j + i else 0 := fun i => by simp [sampleVolume, hj]
  rcases Nat.lt_or_ge ndirect k with hlt | hle
  · rw [ref_none hlt, if_neg (by omega)]
    rw [ref_direct le_rfl, haddr, if_neg (lt_irrefl _)]
  · rw [ref_direct hle, haddr]

theorem sampleVolume_sound (hsize : ∀ j, (attrs j).2 ≤ 6144) :
    (sampleVolume attrs data).Sound mkfsSb := by
  have hsize' : ∀ j < 4, ((sampleVolume attrs data).dinode j).size ≤ 6144 := fun j hj => by
    simp [sampleVolume, hj, hsize]
  refine ⟨fun b hb => ?_, fun j k hj _ hne => ?_, fun j k j' k' hj hj' _ _ hne heq => ?_,
    fun j bn hj hbn => ?_, fun j hj => ?_⟩
  · exact decide_eq_true (lt_trans hb (by decide))
  · have hj := sampleVolume_lt hj
    rw [sampleVolume_ref hj] at hne ⊢
    split at hne
    · next hk =>
      rw [if_pos hk]
      simp only [ndirect] at hk
      refine ⟨decide_eq_true (by omega), ?_, ?_⟩
      · change 29 ≤ _
        omega
      · change _ < 1014
        omega
    · exact absurd rfl hne
  · rw [sampleVolume_ref (sampleVolume_lt hj)] at hne heq
    rw [sampleVolume_ref (sampleVolume_lt hj')] at heq
    split at hne
    · next hk =>
      rw [if_pos hk] at heq
      simp only [ndirect] at *
      split at heq <;> omega
    · exact absurd rfl hne
  · have hj := sampleVolume_lt hj
    have hle := hsize' j hj
    have hlt : bn < ndirect := by
      simp only [ndirect, bsize] at *
      omega
    rw [blockRef, if_pos hlt, sampleVolume_ref hj, if_pos hlt]
    omega
  · exact (hsize' j (sampleVolume_lt hj)).trans (by decide)

theorem sampleVolume_lacks (hj : j < 4) (h : off + n ≤ 6144) :
    (sampleVolume attrs data).lacks j (needs off n) = ∅ := by
  refine Finset.filter_eq_empty_iff.mpr fun k hk => ?_
  rw [needs, if_neg (by simp only [ndirect, bsize]; omega), Finset.union_empty] at hk
  obtain ⟨pos, hpos, rfl⟩ := Finset.mem_image.mp hk
  have hlt : pos / bsize < ndirect := by
    have := (Finset.mem_Ico.mp hpos).2
    simp only [ndirect, bsize]
    omega
  rw [blockRef, if_pos hlt, sampleVolume_ref hj, if_pos hlt]
  simp only [bsize]
  omega

end Sample

def sampleFs : Fs where
  sb := mkfsSb
  disk := sampleVolume (fun j => if j = 2 then (.file, 6144) else (.free, 0)) fun _ _ => 0
  icache s := ⟨2, if s = 0 then 1 else 0, s = 0, s = 0, (sampleVolume (fun j =>
    if j = 2 then (.file, 6144) else (.free, 0)) fun _ _ => 0).dinode 2⟩
  file _ := ⟨0, none, false, false, 0⟩
  proc _ := ⟨true, true, none, fun _ => none⟩
  busy := some 0
  lh := []
  cur := 0

theorem sampleFs_view : sampleFs.view 0 = sampleFs.disk :=
  congrArg (fun d => { sampleFs.disk with dinode := d })
    (Function.update_eq_self (f := sampleFs.disk.dinode) 2)

theorem sampleFs_whole : sampleFs.Whole 0 := by
  refine ⟨?_, by decide, by decide⟩
  rw [sampleFs_view]
  refine sampleVolume_sound fun j => ?_
  split <;> decide

theorem sampleFs_lacks {off n : Nat} (h : off + n ≤ 6144) :
    ((sampleFs.view 0).lacks (sampleFs.icache 0).inum (needs off n)).card ≤
      (sampleFs.view 0).freeCount sampleFs.sb := by
  rw [sampleFs_view, sampleFs, sampleVolume_lacks (by decide) h]
  exact Nat.zero_le _

theorem writei_too_big : ¬ ∀ (fs : Fs) (s : Islot) (off : Nat) (src : List Nat), fs.Whole s →
    (fs.icache s).din.type ≠ .dev → fs.busy ≠ none → fs.lh = [] →
    ((fs.view s).lacks (fs.icache s).inum (needs off src.length)).card ≤
      (fs.view s).freeCount fs.sb →
    off ≤ (fs.icache s).din.size → off + src.length ≤ maxfile * bsize →
    ∃ fs', writei s off src fs = .ok (some src.length, fs') := by
  intro hall
  have hbad : (match writei 0 0 (List.replicate 5120 0) sampleFs with
      | .error (.panic .tooBigTransaction) => true | _ => false) = true := by decide +kernel
  obtain ⟨fs', hrun⟩ := hall sampleFs 0 0 (List.replicate 5120 0) sampleFs_whole (by decide)
    (by decide) rfl (by rw [List.length_replicate]; exact sampleFs_lacks (by decide)) (by decide)
    (by rw [List.length_replicate]; decide)
  rw [hrun] at hbad
  cases hbad

theorem inode_bytes_sample :
    readi 0 6000 1000 sampleFs = .ok (some (List.replicate 144 0), sampleFs) ∧
    ∃ fs', writei 0 500 [1, 2, 3] sampleFs = .ok (some 3, fs') ∧ fs'.Whole 0 ∧
      (fs'.view 0).content 2 = splice (sampleFs.disk.content 2) 500 [1, 2, 3] := by
  have hread := (inode_bytes sampleFs 0 sampleFs_whole (by decide) 6000 1000 (by decide)
    (by decide)).1
  have hwrite := (inode_bytes sampleFs 0 sampleFs_whole (by decide) 500 3 (by decide)
    (by decide)).2 [1, 2, 3] rfl
  rw [if_neg (by decide)] at hread hwrite
  obtain ⟨fs', hrun, hwhole, hcontent, -⟩ := hwrite ⟨by decide, by decide, by decide, by decide⟩
    (sampleFs_lacks (by decide))
  refine ⟨?_, fs', hrun, hwhole, ?_⟩
  · have hzero : sampleFs.disk.content 2 = List.replicate 6144 0 := slice_zero 0 6144
    rw [hread, sampleFs_view]
    change Except.ok (some (((sampleFs.disk.content 2).drop 6000).take 1000), _) = _
    rw [hzero, List.drop_replicate, List.take_replicate]
    norm_num
  · rw [sampleFs_view] at hcontent
    exact hcontent

end Fs
end Xv6
