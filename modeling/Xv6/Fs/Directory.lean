import Xv6.Lib.KeyedSlots
import Xv6.Fs.Cache
import Xv6.Fs.Content
import Xv6.Fs.Sysfile

namespace Xv6
namespace Fs

open Bytes StateExcept Volume KeyedSlots Threads

def cut (n : Nat) (name : List Nat) : List Nat := (name.take n).takeWhile (· ≠ 0)

theorem cut_succ (n : Nat) (p : List Nat) :
    cut (n + 1) p = if p.headD 0 = 0 then [] else p.headD 0 :: cut n p.tail := by
  cases p with
  | nil => rfl
  | cons a p =>
    by_cases ha : a = 0
    · simp [cut, ha]
    · simp [cut, ha]

theorem strncmp_eq_zero (n : Nat) (p q : List Nat) : strncmp n p q = 0 ↔ cut n p = cut n q := by
  induction n generalizing p q with
  | zero => simp [strncmp, cut]
  | succ n ih =>
    rw [strncmp, cut_succ, cut_succ]
    split
    · next h =>
      have hq : q.headD 0 ≠ 0 := h.2 ▸ h.1
      rw [if_neg h.1, if_neg hq, ih, h.2, List.cons_inj_right]
    · next h =>
      have hzero : (p.headD 0 : Int) - q.headD 0 = 0 ↔ p.headD 0 = 0 ∧ q.headD 0 = 0 := by omega
      rw [hzero]
      by_cases hp : p.headD 0 = 0 <;> by_cases hq : q.headD 0 = 0
      · rw [if_pos hp, if_pos hq]
        exact ⟨fun _ => rfl, fun _ => ⟨hp, hq⟩⟩
      · rw [if_pos hp, if_neg hq]
        exact ⟨fun hz => absurd hz.2 hq, fun hc => by cases hc⟩
      · rw [if_neg hp, if_pos hq]
        exact ⟨fun hz => absurd hz.1 hp, fun hc => by cases hc⟩
      · rw [if_neg hp, if_neg hq]
        exact ⟨fun hz => absurd hz.1 hp, fun hc => absurd ⟨hp, (List.cons.inj hc).1⟩ h⟩

theorem strncpy_length (n : Nat) (t : List Nat) : (strncpy n t).length = n := by
  induction n generalizing t with
  | zero => rfl
  | succ n ih =>
    rw [strncpy]
    split
    · exact List.length_replicate
    · rw [List.length_cons, ih]

theorem cut_strncpy (n : Nat) (t : List Nat) : cut n (strncpy n t) = cut n t := by
  induction n generalizing t with
  | zero => simp [cut]
  | succ n ih =>
    rw [cut_succ, cut_succ, strncpy]
    by_cases h : t.headD 0 = 0
    · rw [if_pos h, if_pos h]
      rfl
    · rw [if_neg h, if_neg h]
      simp only [List.headD_cons, List.tail_cons, if_neg h, ih]

def Dirent.slot (de : Dirent) : Option (List Nat × Nat) :=
  if de.inum = 0 then none else some (cut dirsiz de.name, de.inum)

namespace Volume

def direntAt (v : Volume) (j i : Nat) : Dirent :=
  .decode (slice (v.byteAt j) (i * direntSize) direntSize)

def slots (v : Volume) (j i : Nat) : Option (List Nat × Nat) := (v.direntAt j i).slot

def entries (v : Volume) (j : Nat) : Nat := (v.dinode j).size / direntSize

end Volume

variable {fs : Fs} {s : Islot} {name : List Nat}

theorem slot_holds (t : Nat → Dirent) (name : List Nat) (i : Nat) :
    decide ((t i).inum ≠ 0 ∧ namecmp name (t i).name = 0) =
      holds (fun i => (t i).slot) (cut dirsiz name) i := by
  simp only [namecmp, strncmp_eq_zero, holds, Dirent.slot]
  by_cases h : (t i).inum = 0
  · simp [h]
  · simp [h, eq_comm]

theorem slot_isNone (t : Nat → Dirent) (i : Nat) :
    decide ((t i).inum = 0) = (t i).slot.isNone := by
  simp only [Dirent.slot]
  by_cases h : (t i).inum = 0
  · simp [h]
  · simp [h]

structure IsDir (fs : Fs) (s : Islot) : Prop where
  whole : fs.Whole s
  type : (fs.icache s).din.type = .dir
  size : (fs.icache s).din.size % direntSize = 0

namespace IsDir

variable {i : Nat} (h : fs.IsDir s)

include h

theorem not_dev : (fs.icache s).din.type ≠ .dev := by
  rw [h.type]
  decide

theorem size_eq : (fs.icache s).din.size =
    (fs.view s).entries (fs.icache s).inum * direntSize := by
  rw [entries, view_dinode]
  exact (Nat.div_mul_cancel (Nat.dvd_of_mod_eq_zero h.size)).symm

theorem fuel_enough : (fs.view s).entries (fs.icache s).inum - 0 ≤ (fs.icache s).din.size := by
  rw [h.size_eq, Nat.sub_zero]
  exact Nat.le_mul_of_pos_right _ (by decide)

theorem size_le : (fs.icache s).din.size ≤ maxfile * bsize := by
  have hsize := h.whole.sound.size (fs.icache s).inum
  rw [view_dinode] at hsize
  exact hsize h.whole.alloc

theorem readi (hi : i < (fs.view s).entries (fs.icache s).inum) :
    readi s (i * direntSize) direntSize fs = .ok
      (some (slice ((fs.view s).byteAt (fs.icache s).inum) (i * direntSize) direntSize), fs) := by
  have hsize := h.size_eq
  have hmax := h.size_le
  have hle : (i + 1) * direntSize ≤ (fs.icache s).din.size := by
    rw [hsize]
    exact Nat.mul_le_mul_right _ hi
  simp only [maxfile, ndirect, nindirect, bsize, direntSize] at *
  rw [readi_content h.whole.sound h.whole.alloc h.not_dev (by omega) (by omega), if_neg (by omega),
    content_slice (by rw [view_dinode]; omega)]

theorem scanDirents (e : Panic) (test : Dirent → Bool) {fuel : Nat}
    (hi : i ≤ (fs.view s).entries (fs.icache s).inum)
    (hfuel : (fs.view s).entries (fs.icache s).inum - i ≤ fuel) :
    scanDirents s e test fuel (i * direntSize) fs = .ok
      (match (List.range' i ((fs.view s).entries (fs.icache s).inum - i)).find? fun k =>
          test ((fs.view s).direntAt (fs.icache s).inum k) with
        | none => ((fs.icache s).din.size, none)
        | some k => (k * direntSize, some ((fs.view s).direntAt (fs.icache s).inum k)), fs) := by
  have hsize := h.size_eq
  induction fuel generalizing i with
  | zero =>
    obtain rfl : i = (fs.view s).entries (fs.icache s).inum := by omega
    rw [Nat.sub_self, hsize]
    rfl
  | succ fuel ih =>
    simp only [Fs.scanDirents, bind_get]
    rcases Nat.lt_or_eq_of_le hi with hlt | heq
    · have hoff : i * direntSize < (fs.icache s).din.size := by
        rw [hsize]
        exact Nat.mul_lt_mul_of_pos_right hlt (by decide)
      obtain ⟨m, hm⟩ : ∃ m, (fs.view s).entries (fs.icache s).inum - i = m + 1 :=
        ⟨(fs.view s).entries (fs.icache s).inum - i - 1, by omega⟩
      have hm' : (fs.view s).entries (fs.icache s).inum - (i + 1) = m := by omega
      rw [if_pos hoff, bind_ok (h.readi hlt), hm, List.range'_succ, List.find?_cons]
      have hde : Dirent.decode (slice ((fs.view s).byteAt (fs.icache s).inum) (i * direntSize)
          direntSize) = (fs.view s).direntAt (fs.icache s).inum i := rfl
      simp only [slice_length, if_true, hde]
      cases htest : test ((fs.view s).direntAt (fs.icache s).inum i) with
      | true => rfl
      | false =>
        rw [if_neg (by decide), ← Nat.succ_mul, ih hlt (by omega), hm']
    · rw [if_neg (by rw [hsize, heq]; exact lt_irrefl _), heq, Nat.sub_self, hsize]
      rfl

theorem dirlookup (name : List Nat) : dirlookup s name fs =
    match index ((fs.view s).slots (fs.icache s).inum) ((fs.view s).entries (fs.icache s).inum)
        (cut dirsiz name) with
    | none => .ok (none, fs)
    | some i => (do
        let ip ← iget ((fs.view s).direntAt (fs.icache s).inum i).inum
        pure (some (ip, i * direntSize)) : M _) fs := by
  have hscan := h.scanDirents .dirlinkRead
    (fun de => decide (de.inum ≠ 0 ∧ namecmp name de.name = 0)) (Nat.zero_le _) h.fuel_enough
  have hindex : (List.range ((fs.view s).entries (fs.icache s).inum)).find?
      (holds (fun i => ((fs.view s).direntAt (fs.icache s).inum i).slot) (cut dirsiz name)) =
      index ((fs.view s).slots (fs.icache s).inum) ((fs.view s).entries (fs.icache s).inum)
        (cut dirsiz name) := rfl
  simp only [slot_holds, Nat.sub_zero, Nat.zero_mul, ← List.range_eq_range', hindex] at hscan
  simp only [Fs.dirlookup, bind_get, if_pos h.type]
  rw [bind_ok hscan]
  cases index ((fs.view s).slots (fs.icache s).inum) ((fs.view s).entries (fs.icache s).inum)
    (cut dirsiz name) with
  | none => rfl
  | some i => rfl

theorem emptyDirent : emptyDirent s fs = .ok
    (vacant ((fs.view s).slots (fs.icache s).inum) ((fs.view s).entries (fs.icache s).inum) *
      direntSize, fs) := by
  have hscan := h.scanDirents .dirlinkRead (fun de => decide (de.inum = 0)) (Nat.zero_le _)
    h.fuel_enough
  simp only [slot_isNone, Nat.sub_zero, Nat.zero_mul, ← List.range_eq_range'] at hscan
  simp only [Fs.emptyDirent, bind_get]
  rw [bind_ok hscan, pure_run, vacant]
  simp only [slots]
  cases (List.range ((fs.view s).entries (fs.icache s).inum)).find? fun k =>
      ((fs.view s).direntAt (fs.icache s).inum k).slot.isNone with
  | none => rw [h.size_eq]; rfl
  | some i => rfl

end IsDir

section Entry

variable {sb : Superblock} {v v' : Volume} {i j : Nat} {src : List Nat}

theorem direntAt_content (hi : (i + 1) * direntSize ≤ (v.dinode j).size) :
    v.direntAt j i =
      .decode (((v.content j).drop (i * direntSize)).take direntSize) := by
  rw [content_slice (by rw [← Nat.succ_mul]; exact hi)]
  rfl

theorem le_size_of_lt (hi : i < v.entries j) : (i + 1) * direntSize ≤ (v.dinode j).size :=
  (Nat.mul_le_mul_right _ hi).trans (Nat.div_mul_le_self ..)

theorem Wrote.sets (h : Wrote sb v v' j (i * direntSize) src) (hsrc : src.length = direntSize)
    (hi : i ≤ v.entries j) (hmod : (v.dinode j).size % direntSize = 0) :
    Sets (v.slots j) (v'.slots j) (v.entries j) (v'.entries j) i (Dirent.decode src).slot := by
  have hattrs := h.attrs
  have hsize : (v'.dinode j).size = max (v.dinode j).size ((i + 1) * direntSize) := by
    rw [hattrs, hsrc, Nat.succ_mul]
  have hle : i * direntSize ≤ (v.content j).length := by
    rw [content_length]
    exact (Nat.mul_le_mul_right _ hi).trans (Nat.div_mul_le_self ..)
  refine ⟨?_, ?_, fun k hk hne => ?_⟩
  · simp only [entries, hsize, direntSize] at *
    omega
  · rw [slots, direntAt_content (by rw [hsize]; exact le_max_right ..), h.content, ← hsrc,
      splice_here (by rw [hsrc]; exact hle)]
  · have hk' := le_size_of_lt hk
    rw [slots, slots, direntAt_content hk', direntAt_content
      (by rw [hsize]; exact hk'.trans (le_max_left ..)), h.content, splice_apart hle]
    rw [hsrc]
    simp only [direntSize]
    omega

end Entry

theorem touched_entry (i : Nat) : touched (i * direntSize) direntSize = 1 := by
  rw [touched, if_neg (by decide)]
  simp only [direntSize, bsize]
  omega

structure Fits (fs : Fs) (s : Islot) (i : Nat) : Prop where
  size : (i + 1) * direntSize ≤ maxfile * bsize
  blocks : ((fs.view s).lacks (fs.icache s).inum (needs (i * direntSize) direntSize)).card ≤
    (fs.view s).freeCount fs.sb

theorem IsDir.writei (h : fs.IsDir s) (htrans : fs.InTrans 1) {i : Nat} {src : List Nat}
    (hsrc : src.length = direntSize) (hi : i ≤ (fs.view s).entries (fs.icache s).inum)
    (hfits : fs.Fits s i) :
    ∃ fs', writei s (i * direntSize) src fs = .ok (some direntSize, fs') ∧ Frame fs fs' s ∧
      fs'.IsDir s ∧
      Wrote fs.sb (fs.view s) (fs'.view s) (fs.icache s).inum (i * direntSize) src ∧
      Sets ((fs.view s).slots (fs.icache s).inum) ((fs'.view s).slots (fs'.icache s).inum)
        ((fs.view s).entries (fs.icache s).inum) ((fs'.view s).entries (fs'.icache s).inum) i
        (Dirent.decode src).slot ∧ (fs.disk = fs.view s → fs'.disk = fs'.view s) := by
  have hle : i * direntSize ≤ (fs.icache s).din.size := by
    rw [h.size_eq]
    exact Nat.mul_le_mul_right _ hi
  have htouched : fs.InTrans (touched (i * direntSize) src.length) := by rwa [hsrc, touched_entry]
  obtain ⟨fs', hrun, hframe, hwrote, hsync⟩ := writei_wrote h.whole h.not_dev htouched
    (by rw [hsrc]; exact hfits.blocks) hle
    (by rw [hsrc, ← Nat.succ_mul]; exact hfits.size)
  have hdin : (fs'.icache s).din = (fs'.view s).dinode (fs.icache s).inum := by
    rw [← hframe.inum, view_dinode]
  have hattrs := hwrote.attrs
  rw [view_dinode, hsrc] at hattrs
  have hsize : (fs'.icache s).din.size % direntSize = 0 := by
    rw [hdin, hattrs, h.size_eq]
    simp only [direntSize]
    omega
  refine ⟨fs', by rw [hrun, hsrc], hframe, ⟨⟨?_, ?_, ?_⟩, ?_, hsize⟩, hwrote, ?_, hsync⟩
  · rw [hframe.sb]
    exact hwrote.sound
  · rw [hdin, hattrs]
    exact h.whole.alloc
  · rw [hframe.sb]
    exact h.whole.size
  · rw [hdin, hattrs]
    exact h.type
  · rw [hframe.inum]
    exact hwrote.sets hsrc hi (by rw [view_dinode]; exact h.size)

theorem Dirent.decode_encode {inum : Nat} (hinum : inum < 2 ^ 16) (name : List Nat) :
    Dirent.decode (Dirent.encode ⟨inum, name⟩) = ⟨inum, name⟩ := by
  have hlen : (toBytes 2 inum).length = 2 := toBytes_length ..
  rw [Dirent.decode, Dirent.encode, List.take_left' hlen, List.drop_left' hlen,
    ofBytes_toBytes (by norm_num; exact hinum)]

theorem Dirent.encode_length (inum : Nat) (name : List Nat) :
    (Dirent.encode ⟨inum, strncpy dirsiz name⟩).length = direntSize := by
  rw [Dirent.encode, List.length_append, toBytes_length, strncpy_length]
  rfl

def dirMap (fs : Fs) (s : Islot) : List Nat → Option Nat :=
  lookup ((fs.view s).slots (fs.icache s).inum) ((fs.view s).entries (fs.icache s).inum)

def Unique (fs : Fs) (s : Islot) : Prop :=
  Distinct ((fs.view s).slots (fs.icache s).inum) ((fs.view s).entries (fs.icache s).inum)

def place (fs : Fs) (s : Islot) : Nat :=
  vacant ((fs.view s).slots (fs.icache s).inum) ((fs.view s).entries (fs.icache s).inum)

theorem IsDir.dirlink_absent (h : fs.IsDir s) (hu : fs.Unique s) (htrans : fs.InTrans 1)
    (hfits : fs.Fits s (fs.place s)) {inum : Nat} (hpos : inum ≠ 0) (hinum : inum < 2 ^ 16)
    (hnone : fs.dirMap s (cut dirsiz name) = none) :
    ∃ fs', alone (dirlink s name inum) fs = .ok (0, fs') ∧ Frame fs fs' s ∧ fs'.IsDir s ∧
      fs'.Unique s ∧ fs'.dirMap s = Function.update (fs.dirMap s) (cut dirsiz name) (some inum) := by
  have hindex := lookup_none.mp hnone
  have hlook := h.dirlookup name
  rw [hindex] at hlook
  obtain ⟨fs', hrun, hframe, hdir, -, hsets, -⟩ := h.writei htrans
    (Dirent.encode_length inum name) (vacant_le ..) hfits
  rw [Dirent.decode_encode hinum] at hsets
  simp only [Dirent.slot, if_neg hpos, cut_strncpy] at hsets
  obtain ⟨hu', hmap⟩ := hsets.insert hu hindex
  refine ⟨fs', ?_, hframe, hdir, hu', hmap⟩
  calc alone (dirlink s name inum) fs
      = alone _ fs := alone_act (o := .dirlookup s name) hlook
    _ = alone _ fs := alone_act (o := .emptyDirent s) h.emptyDirent
    _ = alone _ fs' := alone_act (o := .writei ..) hrun
    _ = .ok (0, fs') := rfl

theorem IsDir.index_some (h : fs.IsDir s) {i : Nat}
    (hi : index ((fs.view s).slots (fs.icache s).inum) ((fs.view s).entries (fs.icache s).inum)
      (cut dirsiz name) = some i) :
    fs.dirMap s (cut dirsiz name) = some ((fs.view s).direntAt (fs.icache s).inum i).inum ∧
      Fs.dirlookup s name fs = (do
        let ip ← iget ((fs.view s).direntAt (fs.icache s).inum i).inum
        pure (some (ip, i * direntSize)) : M _) fs := by
  have hlook := h.dirlookup name
  rw [hi] at hlook
  refine ⟨?_, hlook⟩
  obtain ⟨-, x, hx⟩ := KeyedSlots.index_some hi
  rw [dirMap, lookup, hi, Option.bind_some, hx]
  simp only [slots, Dirent.slot] at hx
  split at hx
  · cases hx
  · rw [← (Prod.mk.inj (Option.some.inj hx)).2]
    rfl

theorem IsDir.dirlookup_some (h : fs.IsDir s) {ip : Islot} {off : Nat} {fs₁ : Fs}
    (hlook : Fs.dirlookup s name fs = .ok (some (ip, off), fs₁)) :
    ∃ i k, index ((fs.view s).slots (fs.icache s).inum)
        ((fs.view s).entries (fs.icache s).inum) (cut dirsiz name) = some i ∧
      off = i * direntSize ∧ fs.dirMap s (cut dirsiz name) = some k ∧ Got fs fs₁ ip k := by
  cases hi : index ((fs.view s).slots (fs.icache s).inum)
      ((fs.view s).entries (fs.icache s).inum) (cut dirsiz name) with
  | none =>
    rw [h.dirlookup, hi] at hlook
    cases hlook
  | some i =>
    obtain ⟨hmap, hrun⟩ := h.index_some hi
    rw [hrun] at hlook
    obtain ⟨ip', fs₁', hget, hpure⟩ := bind_eq_ok hlook
    obtain ⟨⟨rfl, rfl⟩, rfl⟩ : (ip' = ip ∧ i * direntSize = off) ∧ fs₁' = fs₁ := by
      simpa using hpure
    exact ⟨i, _, rfl, rfl, hmap, got_of_iget hget⟩

theorem IsDir.dirlink_present (h : fs.IsDir s) {k : Nat}
    (hsome : fs.dirMap s (cut dirsiz name) = some k) (inum : Nat) :
    (∃ fs', alone (dirlink s name inum) fs = .ok (-1, fs') ∧ Untouched fs fs') ∨
      (∀ s, (fs.icache s).ref ≠ 0 ∧ (0 < (fs.icache s).ref → (fs.icache s).inum ≠ k)) ∧
        alone (dirlink s name inum) fs = .error (.panic .igetNoInodes) := by
  cases hi : index ((fs.view s).slots (fs.icache s).inum)
      ((fs.view s).entries (fs.icache s).inum) (cut dirsiz name) with
  | none =>
    rw [dirMap, lookup_none.mpr hi] at hsome
    cases hsome
  | some i =>
    obtain ⟨hk, hlook⟩ := h.index_some hi
    obtain rfl : _ = k := Option.some.inj (hk.symm.trans hsome)
    rcases iget_got ((fs.view s).direntAt (fs.icache s).inum i).inum fs with
      ⟨ip, fs₁, hrun, hgot⟩ | ⟨hfull, hrun⟩
    · rw [bind_ok hrun] at hlook
      refine Or.inl ⟨_, ?_, hgot.put⟩
      calc alone (dirlink s name inum) fs
          = alone _ fs₁ := alone_act (o := .dirlookup s name) hlook
        _ = alone (pure (-1)) _ := alone_act (o := .iput ip) (iput_kept hgot.last)
    · rw [bind_error hrun] at hlook
      exact Or.inr ⟨hfull, alone_error (o := .dirlookup s name) hlook⟩

structure Alike (fs fs' : Fs) (s : Islot) : Prop where
  dir : fs'.IsDir s
  inum : (fs'.icache s).inum = (fs.icache s).inum
  content : (fs'.view s).content (fs'.icache s).inum = (fs.view s).content (fs.icache s).inum

section Alike

variable {fs' : Fs} (h : Alike fs fs' s)

include h

theorem Alike.entries : (fs'.view s).entries (fs'.icache s).inum =
    (fs.view s).entries (fs.icache s).inum := by
  have hlen := congrArg List.length h.content
  rw [content_length, content_length] at hlen
  rw [Volume.entries, Volume.entries, hlen]

theorem Alike.slots {i : Nat} (hi : i < (fs.view s).entries (fs.icache s).inum) :
    (fs'.view s).slots (fs'.icache s).inum i = (fs.view s).slots (fs.icache s).inum i := by
  rw [Volume.slots, Volume.slots, direntAt_content (le_size_of_lt hi), direntAt_content, h.content]
  exact le_size_of_lt (by rwa [h.entries])

theorem Alike.dirMap : fs'.dirMap s = fs.dirMap s := by
  rw [Fs.dirMap, Fs.dirMap, h.entries]
  exact lookup_congr fun i hi => h.slots hi

theorem Alike.unique (hu : fs.Unique s) : fs'.Unique s := by
  rw [Fs.Unique, h.entries]
  exact hu.congr fun i hi => h.slots hi

end Alike

theorem Got.self {fs' : Fs} {ip : Islot} {k : Nat} (h : Got fs fs' ip k)
    (hheld : 0 < (fs.icache s).ref) :
    fs'.icache s = { fs.icache s with ref := (fs'.icache s).ref } := by
  by_cases hs : s = ip
  · subst hs
    rw [h.held hheld]
  · rw [h.other s hs]

theorem Got.view {fs' : Fs} {ip : Islot} {k : Nat} (h : Got fs fs' ip k)
    (hheld : 0 < (fs.icache s).ref) : fs'.view s = fs.view s := by
  have hdisk : fs'.disk = fs.disk := by rw [h.rest]
  rw [Fs.view, Fs.view, hdisk, h.self hheld]

theorem IsDir.alike {fs' : Fs} (h : fs.IsDir s) (hsb : fs'.sb = fs.sb)
    (hview : fs'.view s = fs.view s) (hinum : (fs'.icache s).inum = (fs.icache s).inum) :
    Alike fs fs' s := by
  have hdin : (fs'.icache s).din = (fs.icache s).din := by
    rw [← view_dinode fs' s, hview, hinum, view_dinode]
  refine ⟨⟨⟨?_, ?_, ?_⟩, ?_, ?_⟩, hinum, by rw [hview, hinum]⟩
  · rw [hsb, hview]
    exact h.whole.sound
  · rw [hdin]
    exact h.whole.alloc
  · rw [hsb]
    exact h.whole.size
  · rw [hdin]
    exact h.type
  · rw [hdin]
    exact h.size

theorem Got.alike {fs' : Fs} {ip : Islot} {k : Nat} (h : Got fs fs' ip k)
    (hheld : 0 < (fs.icache s).ref) (hdir : fs.IsDir s) : Alike fs fs' s :=
  hdir.alike (by rw [h.rest]) (h.view hheld) (by rw [h.self hheld])

theorem IsDir.alike_ref (h : fs.IsDir s) (ip : Islot) (r : Int) :
    Alike fs (fs.setIp ip { fs.icache ip with ref := r }) s := by
  have hself : (fs.setIp ip { fs.icache ip with ref := r }).icache s =
      { fs.icache s with ref := ((fs.setIp ip { fs.icache ip with ref := r }).icache s).ref } := by
    by_cases hs : s = ip
    · subst hs
      rw [setIp_self]
    · rw [setIp_of_ne hs]
  refine h.alike rfl ?_ (by rw [hself])
  rw [Fs.view, hself]
  rfl

theorem Got.inTrans {fs' : Fs} {ip : Islot} {k n : Nat} (h : Got fs fs' ip k)
    (htrans : fs.InTrans n) : fs'.InTrans n := by
  rw [h.rest]
  exact ⟨htrans.busy, htrans.nodup, htrans.room⟩

theorem IsDir.erase (h : fs.IsDir s) (hu : fs.Unique s) (htrans : fs.InTrans 1)
    (hheld : 0 < (fs.icache s).ref) {ip : Islot} {off : Nat} {fs₁ : Fs}
    (hlook : Fs.dirlookup s name fs = .ok (some (ip, off), fs₁)) :
    ∃ k fs', Got fs fs₁ ip k ∧ alone (eraseEntry s off) fs₁ = .ok ((), fs') ∧ Frame fs₁ fs' s ∧
      fs'.IsDir s ∧ fs'.Unique s ∧
      fs'.dirMap s = Function.update (fs.dirMap s) (cut dirsiz name) none := by
  obtain ⟨i, k, hi, rfl, -, hgot⟩ := h.dirlookup_some hlook
  have hlt := (KeyedSlots.index_some hi).1
  have hview := hgot.view hheld
  have hinum : (fs₁.icache s).inum = (fs.icache s).inum := by rw [hgot.self hheld]
  have hdir := (hgot.alike hheld h).dir
  rw [← hview, ← hinum] at hi hlt
  have hle := le_size_of_lt hlt
  have hfits : fs₁.Fits s i := by
    refine ⟨hle.trans (by rw [view_dinode]; exact hdir.size_le), ?_⟩
    rw [Sound.lacks_needs hdir.whole.sound (by rw [view_dinode]; exact hdir.whole.alloc)
      (by rw [← Nat.succ_mul]; exact hle)]
    exact Nat.zero_le _
  obtain ⟨fs', hrun, hframe, hdir', -, hsets, -⟩ := hdir.writei (hgot.inTrans htrans)
    (List.length_replicate : (List.replicate direntSize 0).length = direntSize) hlt.le hfits
  obtain ⟨hu', hmap⟩ := KeyedSlots.Sets.erase hsets ((hgot.alike hheld h).unique hu) hi
  refine ⟨k, fs', hgot, ?_, hframe, hdir', hu', ?_⟩
  · calc alone (eraseEntry s (i * direntSize)) fs₁
        = alone (if some direntSize = some direntSize then pure () else _) fs' :=
          alone_act (o := .writei ..) hrun
      _ = .ok ((), fs') := rfl
  · rw [← (hgot.alike hheld h).dirMap]
    exact hmap

def lookedUp (s : Islot) (name : List Nat) (fs : Fs) : Option (Option Nat) :=
  match Fs.dirlookup s name fs with
  | .ok (none, _) => some none
  | .ok (some (ip, _), fs') => some (some (fs'.icache ip).inum)
  | .error _ => none

theorem IsDir.lookedUp (h : fs.IsDir s) (hslot : ∃ s', (fs.icache s').ref = 0)
    (name : List Nat) : lookedUp s name fs = some (fs.dirMap s (cut dirsiz name)) := by
  cases hi : index ((fs.view s).slots (fs.icache s).inum)
      ((fs.view s).entries (fs.icache s).inum) (cut dirsiz name) with
  | none =>
    have hlook := h.dirlookup name
    rw [hi] at hlook
    rw [Fs.lookedUp, hlook, dirMap, lookup_none.mpr hi]
  | some i =>
    obtain ⟨hmap, hlook⟩ := h.index_some hi
    rcases iget_got ((fs.view s).direntAt (fs.icache s).inum i).inum fs with
      ⟨ip, fs₁, hrun, hgot⟩ | ⟨hfull, -⟩
    · rw [bind_ok hrun] at hlook
      rw [Fs.lookedUp, hlook, hmap, ← hgot.inum]
      rfl
    · obtain ⟨s', hs'⟩ := hslot
      exact absurd hs' (hfull s').1

theorem Frame.ref {fs' : Fs} (h : Frame fs fs' s) (s' : Islot) :
    (fs'.icache s').ref = (fs.icache s').ref := by
  by_cases hs : s' = s
  · rw [hs, h.self]
  · rw [h.other s' hs]

theorem IsDir.erase_put (h : fs.IsDir s) (hu : fs.Unique s) (htrans : fs.InTrans 1)
    (hheld : 0 < (fs.icache s).ref) {ip : Islot} {off : Nat} {fs₁ : Fs}
    (hlook : Fs.dirlookup s name fs = .ok (some (ip, off), fs₁)) :
    ∃ fs', alone (do eraseEntry s off; act (.iput ip)) fs₁ = .ok ((), fs') ∧ fs'.IsDir s ∧
      fs'.Unique s ∧ fs'.dirMap s = Function.update (fs.dirMap s) (cut dirsiz name) none ∧
      ∀ s', (fs'.icache s').ref = (fs.icache s').ref := by
  obtain ⟨k, fs₂, hgot, hrun, hframe, hdir, hu', hmap⟩ := h.erase hu htrans hheld hlook
  have hlast : (fs₂.icache ip).last = false := by
    by_cases hs : ip = s
    · subst hs
      have href : (fs₂.icache ip).ref = (fs.icache ip).ref + 1 := by
        rw [hframe.ref, hgot.held hheld]
      have hne : ¬(fs.icache ip).ref + 1 = 1 := by omega
      simp [Inode.last, href, hne]
    · rw [hframe.other ip hs]
      exact hgot.last
  have hput := hdir.alike_ref ip ((fs₂.icache ip).ref - 1)
  refine ⟨_, ?_, hput.dir, hput.unique hu', hput.dirMap.trans hmap, fun s' => ?_⟩
  · calc alone (do eraseEntry s off; act (.iput ip)) fs₁
        = alone (act (.iput ip)) fs₂ := alone_bind hrun
      _ = .ok ((), _) := (alone_act (f := pure) (iput_kept hlast))
  · by_cases hs : s' = ip
    · subst hs
      rw [setIp_self]
      change (fs₂.icache s').ref - 1 = _
      rw [hframe.ref]
      rcases lt_or_ge 0 (fs.icache s').ref with hlt | hge
      · rw [hgot.held hlt]
        exact add_sub_cancel_right ..
      · rw [(hgot.fresh hge).2.1, (hgot.fresh hge).1]
        rfl
    · rw [setIp_of_ne hs, hframe.ref, hgot.other s' hs]

inductive DirOp where
  | link (name : List Nat) (inum : Nat)
  | clear (name : List Nat)

def DirOp.apply (m : List Nat → Option Nat) : DirOp → List Nat → Option Nat
  | .link name inum =>
    if m (cut dirsiz name) = none then Function.update m (cut dirsiz name) (some inum) else m
  | .clear name => Function.update m (cut dirsiz name) none

inductive DirRun (s : Islot) (fs : Fs) : List DirOp → Fs → Prop where
  | nil : DirRun s fs [] fs
  | link {fs₁ fs₂ : Fs} {ops : List DirOp} {name : List Nat} {inum : Nat} {r : Int}
      (hrun : DirRun s fs ops fs₁) (htrans : fs₁.InTrans 1) (hheld : 0 < (fs₁.icache s).ref)
      (hfits : fs₁.Fits s (fs₁.place s)) (hpos : inum ≠ 0) (hinum : inum < 2 ^ 16)
      (hlink : alone (dirlink s name inum) fs₁ = .ok (r, fs₂)) :
      DirRun s fs (ops ++ [.link name inum]) fs₂
  | clear {fs₁ fs₂ fs₃ : Fs} {ops : List DirOp} {name : List Nat} {ip : Islot} {off : Nat}
      (hrun : DirRun s fs ops fs₁) (htrans : fs₁.InTrans 1) (hheld : 0 < (fs₁.icache s).ref)
      (hlook : Fs.dirlookup s name fs₁ = .ok (some (ip, off), fs₂))
      (herase : alone (eraseEntry s off) fs₂ = .ok ((), fs₃)) :
      DirRun s fs (ops ++ [.clear name]) fs₃
  | elsewhere {fs₁ fs₂ : Fs} {ops : List DirOp} (hrun : DirRun s fs ops fs₁)
      (halike : Alike fs₁ fs₂ s) : DirRun s fs ops fs₂

theorem Untouched.alike {fs' : Fs} (h : Untouched fs fs') (hdir : fs.IsDir s)
    (hheld : 0 < (fs.icache s).ref) : Alike fs fs' s := by
  have hself : fs'.icache s = fs.icache s := (h.slot s).resolve_right fun hzero => by omega
  have hdisk : fs'.disk = fs.disk := by rw [h.rest]
  refine hdir.alike (by rw [h.rest]) ?_ (by rw [hself])
  rw [Fs.view, Fs.view, hself, hdisk]

theorem DirRun.map {fs' : Fs} {ops : List DirOp} (hrun : DirRun s fs ops fs') (h : fs.IsDir s)
    (hu : fs.Unique s) : fs'.IsDir s ∧ fs'.Unique s ∧
      fs'.dirMap s = ops.foldl DirOp.apply (fs.dirMap s) := by
  induction hrun with
  | nil => exact ⟨h, hu, rfl⟩
  | @link fs₁ fs₂ ops name inum r _ htrans hheld hfits hpos hinum hlink ih =>
    obtain ⟨hdir, hu₁, hmap⟩ := ih
    rw [List.foldl_append, List.foldl_cons, List.foldl_nil, ← hmap, DirOp.apply]
    cases hname : fs₁.dirMap s (cut dirsiz name) with
    | none =>
      obtain ⟨fs', hrun, -, hdir', hu', hmap'⟩ := hdir.dirlink_absent hu₁ htrans hfits hpos hinum hname
      rw [hlink] at hrun
      cases hrun
      exact ⟨hdir', hu', by rw [if_pos rfl, hmap']⟩
    | some k =>
      rcases hdir.dirlink_present hname inum with ⟨fs', hrun, huntouched⟩ | ⟨-, hrun⟩
      · rw [hlink] at hrun
        cases hrun
        have halike := huntouched.alike hdir hheld
        exact ⟨halike.dir, halike.unique hu₁, by rw [if_neg (by simp), halike.dirMap]⟩
      · rw [hlink] at hrun
        cases hrun
  | clear _ htrans hheld hlook herase ih =>
    obtain ⟨hdir, hu₁, hmap⟩ := ih
    obtain ⟨k, fs', -, hrun, -, hdir', hu', hmap'⟩ := hdir.erase hu₁ htrans hheld hlook
    rw [herase] at hrun
    cases hrun
    exact ⟨hdir', hu', by rw [List.foldl_append, ← hmap, hmap']; rfl⟩
  | elsewhere _ halike ih =>
    obtain ⟨hdir, hu₁, hmap⟩ := ih
    exact ⟨halike.dir, halike.unique hu₁, halike.dirMap.trans hmap⟩

theorem directory_map (fs : Fs) (s : Islot) (h : fs.IsDir s) (hu : fs.Unique s)
    (htrans : fs.InTrans 1) (hheld : 0 < (fs.icache s).ref)
    (hslot : ∃ s', (fs.icache s').ref = 0) :
    (∀ name inum, lookedUp s name fs ≠ some none →
      ∃ fs', alone (dirlink s name inum) fs = .ok (-1, fs') ∧ Untouched fs fs') ∧
    (∀ name inum, 1 ≤ inum → inum ≤ 65535 → lookedUp s name fs = some none →
      fs.Fits s (fs.place s) →
      ∃ fs', alone (dirlink s name inum) fs = .ok (0, fs') ∧ fs'.IsDir s ∧ fs'.Unique s ∧
        lookedUp s name fs' = some (some inum) ∧
        ∀ name', cut dirsiz name' ≠ cut dirsiz name →
          lookedUp s name' fs' = lookedUp s name' fs) ∧
    (∀ name ip off fs₁, Fs.dirlookup s name fs = .ok (some (ip, off), fs₁) →
      ∃ fs', alone (do eraseEntry s off; act (.iput ip)) fs₁ = .ok ((), fs') ∧ fs'.IsDir s ∧
        fs'.Unique s ∧ lookedUp s name fs' = some none ∧
        ∀ name', cut dirsiz name' ≠ cut dirsiz name →
          lookedUp s name' fs' = lookedUp s name' fs) ∧
    ∀ ops fs', DirRun s fs ops fs' →
      fs'.Unique s ∧ fs'.dirMap s = ops.foldl DirOp.apply (fs.dirMap s) := by
  have hlooked := h.lookedUp hslot
  -- A new state that kept the reference counts shows its map through dirlookup.
  have hmap : ∀ fs' name x, fs'.IsDir s →
      fs'.dirMap s = Function.update (fs.dirMap s) (cut dirsiz name) x →
      (∀ s', (fs'.icache s').ref = (fs.icache s').ref) →
      lookedUp s name fs' = some x ∧ ∀ name', cut dirsiz name' ≠ cut dirsiz name →
        lookedUp s name' fs' = lookedUp s name' fs := by
    intro fs' name x hdir hupd href
    have hlooked' := hdir.lookedUp (by
      obtain ⟨s', hs'⟩ := hslot
      exact ⟨s', by rw [href, hs']⟩)
    refine ⟨by rw [hlooked', hupd, Function.update_self], fun name' hne => ?_⟩
    rw [hlooked', hlooked, hupd, Function.update_of_ne hne]
  refine ⟨fun name inum hsome => ?_, fun name inum hpos hle hnone hfits => ?_,
    fun name ip off fs₁ hlook => ?_, fun ops fs' hrun => (hrun.map h hu).2⟩
  · rw [hlooked] at hsome
    obtain ⟨k, hk⟩ : ∃ k, fs.dirMap s (cut dirsiz name) = some k :=
      Option.ne_none_iff_exists'.mp fun hnone => hsome (by rw [hnone])
    rcases h.dirlink_present hk inum with hok | ⟨hfull, -⟩
    · exact hok
    · obtain ⟨s', hs'⟩ := hslot
      exact absurd hs' (hfull s').1
  · rw [hlooked] at hnone
    obtain ⟨fs', hrun, hframe, hdir, hu', hupd⟩ := h.dirlink_absent hu htrans hfits
      (by omega : inum ≠ 0) (by omega) (Option.some.inj hnone)
    exact ⟨fs', hrun, hdir, hu', hmap fs' name _ hdir hupd hframe.ref⟩
  · obtain ⟨fs', hrun, hdir, hu', hupd, href⟩ := h.erase_put hu htrans hheld hlook
    exact ⟨fs', hrun, hdir, hu', hmap fs' name _ hdir hupd href⟩

def sampleDir (full : Bool) : Fs where
  sb := mkfsSb
  disk := sampleVolume (fun j => if j = 1 then (.dir, 16) else (.free, 0)) fun _ i =>
    [3, 0, 97].getD i 0
  icache s := ⟨if s = 0 then 1 else s + 3, if s = 0 ∨ full then 1 else 0, s = 0, s = 0,
    (sampleVolume (fun j => if j = 1 then (.dir, 16) else (.free, 0)) fun _ i =>
      [3, 0, 97].getD i 0).dinode 1⟩
  file _ := ⟨0, none, false, false, 0⟩
  proc _ := ⟨true, true, none, fun _ => none⟩
  busy := some 0
  lh := []
  cur := 0

theorem sampleDir_view (full : Bool) : (sampleDir full).view 0 = (sampleDir full).disk :=
  congrArg (fun d => { (sampleDir full).disk with dinode := d })
    (Function.update_eq_self (f := (sampleDir full).disk.dinode) 1)

theorem sampleDir_isDir (full : Bool) : (sampleDir full).IsDir 0 := by
  refine ⟨⟨?_, ?_, by cases full <;> decide⟩, rfl, by cases full <;> rfl⟩
  · rw [sampleDir_view]
    refine sampleVolume_sound fun j => ?_
    split <;> decide
  · change FileType.dir ≠ .free
    decide

theorem sampleDir_unique (full : Bool) : (sampleDir full).Unique 0 := by
  intro i j k x y hi hj _ _
  have hone : ((sampleDir full).view 0).entries ((sampleDir full).icache 0).inum = 1 := by
    rw [sampleDir_view]
    cases full <;> rfl
  omega

theorem sampleDir_inTrans (full : Bool) : (sampleDir full).InTrans 1 :=
  ⟨by simp [sampleDir], List.nodup_nil, by cases full <;> decide, by cases full <;> decide⟩

theorem dirlink_cache_full : ¬ ∀ (fs : Fs) (s : Islot) (name : List Nat) (inum : Nat),
    fs.IsDir s → fs.Unique s → fs.InTrans 1 → 0 < (fs.icache s).ref → 1 ≤ inum → inum ≤ 65535 →
    fs.dirMap s (cut dirsiz name) ≠ none →
    ∃ fs', alone (dirlink s name inum) fs = .ok (-1, fs') := by
  intro hall
  have hbad : (match alone (dirlink 0 [97] 5) (sampleDir true) with
      | .error (.panic .igetNoInodes) => true | _ => false) = true := by decide +kernel
  obtain ⟨fs', hrun⟩ := hall (sampleDir true) 0 [97] 5 (sampleDir_isDir true)
    (sampleDir_unique true) (sampleDir_inTrans true) (by decide) (by decide) (by decide)
    (by decide +kernel)
  rw [hrun] at hbad
  cases hbad

theorem directory_map_sample :
    (∃ fs', alone (dirlink 0 [97] 5) (sampleDir false) = .ok (-1, fs') ∧
      Untouched (sampleDir false) fs') ∧
    ∃ fs', alone (dirlink 0 [98] 5) (sampleDir false) = .ok (0, fs') ∧
      lookedUp 0 [98] fs' = some (some 5) := by
  have hmap := directory_map (sampleDir false) 0 (sampleDir_isDir false) (sampleDir_unique false)
    (sampleDir_inTrans false) (by decide) ⟨1, by decide⟩
  have hfits : (sampleDir false).Fits 0 ((sampleDir false).place 0) := by
    have hplace : (sampleDir false).place 0 = 1 := by decide +kernel
    rw [hplace]
    refine ⟨by decide, ?_⟩
    rw [sampleDir_view, sampleDir, sampleVolume_lacks (by decide) (by decide)]
    exact Nat.zero_le _
  refine ⟨hmap.1 [97] 5 (by decide +kernel), ?_⟩
  obtain ⟨fs', hrun, -, -, hlook, -⟩ := hmap.2.1 [98] 5 (by decide) (by decide)
    (by decide +kernel) hfits
  exact ⟨fs', hrun, hlook⟩

end Fs
end Xv6
