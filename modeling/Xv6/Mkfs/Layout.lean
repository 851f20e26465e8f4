import Xv6.Mkfs.Basic

namespace Xv6
namespace Mkfs

open Bytes Fs StateExcept

namespace Dinode

structure Fits (d : Dinode) : Prop where
  type : d.type < 2 ^ 16
  major : d.major < 2 ^ 16
  minor : d.minor < 2 ^ 16
  nlink : d.nlink < 2 ^ 16
  size : d.size < 2 ^ 32
  addrs : ∀ i ≤ ndirect, d.addrs i < 2 ^ 32
  rest : ∀ i, ndirect < i → d.addrs i = 0

theorem encode_length (d : Dinode) : d.encode.length = dinodeSize := by
  simp only [encode, List.length_append, toBytes_length, words_length]
  rfl

theorem encode_drop (d : Dinode) (k : Nat) :
    d.encode.drop (8 + k) = (toBytes 4 d.size ++ words 4 d.addrs (ndirect + 1)).drop k := by
  have h8 : 8 + k = 2 + (2 + (2 + (2 + k))) := by omega
  rw [h8, encode, drop_field _ (toBytes_length ..), drop_field _ (toBytes_length ..),
    drop_field _ (toBytes_length ..), drop_field _ (toBytes_length ..)]

theorem decode_encode {d : Dinode} (h : d.Fits) : decode d.encode = d := by
  have hshort : ∀ {x}, x < 2 ^ 16 → ofBytes (toBytes 2 x) = x := fun hx => ofBytes_toBytes hx
  have hint : ∀ {x}, x < 2 ^ 32 → ofBytes (toBytes 4 x) = x := fun hx => ofBytes_toBytes hx
  have htype : ofBytes (d.encode.take 2) = d.type := by
    rw [encode, List.take_left' (toBytes_length ..), hshort h.type]
  have hmajor : ofBytes ((d.encode.drop 2).take 2) = d.major := by
    rw [encode, List.drop_left' (toBytes_length ..), List.take_left' (toBytes_length ..),
      hshort h.major]
  have hminor : ofBytes ((d.encode.drop (2 + 2)).take 2) = d.minor := by
    rw [encode, drop_field _ (toBytes_length ..), List.drop_left' (toBytes_length ..),
      List.take_left' (toBytes_length ..), hshort h.minor]
  have hnlink : ofBytes ((d.encode.drop (2 + (2 + 2))).take 2) = d.nlink := by
    rw [encode, drop_field _ (toBytes_length ..), drop_field _ (toBytes_length ..),
      List.drop_left' (toBytes_length ..), List.take_left' (toBytes_length ..), hshort h.nlink]
  have hsize : ofBytes ((d.encode.drop (8 + 0)).take 4) = d.size := by
    rw [encode_drop, List.drop_zero, List.take_left' (toBytes_length ..), hint h.size]
  have haddrs : (decode d.encode).addrs = d.addrs := by
    funext i
    simp only [decode]
    split
    · next hi =>
      rw [Nat.add_assoc 8 4, encode_drop, drop_field _ (toBytes_length ..),
        words_at 4 d.addrs (Nat.lt_succ_of_le hi), hint (h.addrs i hi)]
    · next hi => rw [h.rest i (by omega)]
  cases d
  simp only [decode, Dinode.mk.injEq] at *
  exact ⟨htype, hmajor, hminor, hnlink, hsize, haddrs⟩

theorem decode_zero : decode (List.replicate dinodeSize 0) = ⟨0, 0, 0, 0, 0, fun _ => 0⟩ := by
  have hfield : ∀ k n, ofBytes (((List.replicate dinodeSize 0).drop k).take n) = 0 := by
    intro k n
    rw [List.drop_replicate, List.take_replicate, ofBytes_zero]
  have htype := hfield 0 2
  rw [List.drop_zero] at htype
  simp only [decode, hfield, htype, ite_self]

end Dinode

def fileType : Nat → FileType
  | 0 => .free
  | 1 => .dir
  | 2 => .file
  | _ => .dev

def signed (x : Nat) : Int := if x < 2 ^ 15 then x else x - 2 ^ 16

def Dinode.toFs (d : Dinode) : Fs.Dinode :=
  ⟨fileType d.type, signed d.major, signed d.minor, signed d.nlink, d.size, d.addrs⟩

theorem Dinode.toFs_type {d : Dinode} : d.toFs.type = .free ↔ d.type = 0 := by
  simp only [toFs]
  unfold fileType
  split <;> simp_all

def dinodeAt (image : Nat → Nat → Nat) (j : Nat) : Dinode :=
  .decode (slice (image (iblock j)) (j % ipb * dinodeSize) dinodeSize)

variable {t : Mkfs} {j : Nat} {d : Dinode}

def putSect (t : Mkfs) (sec : Nat) (buf : Nat → Nat) : Mkfs :=
  { t with image := Function.update t.image sec buf }

def putInode (t : Mkfs) (j : Nat) (d : Dinode) : Mkfs :=
  t.putSect (iblock j) (patch (t.image (iblock j)) (j % ipb * dinodeSize) d.encode)

theorem wp_assert {p : Prop} [Decidable p] {Q : Unit → Mkfs → Prop} {F : Exit → Prop}
    (hok : p → Q () t) (hfail : ¬ p → F .assertion) : wp (assert p) Q F t := by
  unfold assert
  split
  · next hp => exact hok hp
  · next hp => exact hfail hp

theorem wsect_run {sec : Nat} (buf : Nat → Nat) (h : sec < t.sectors) :
    wsect sec buf t = .ok ((), t.putSect sec buf) := by
  have hmax : max t.sectors (sec + 1) = t.sectors := by omega
  change Except.ok ((), ({ t with
    image := Function.update t.image sec buf, sectors := max t.sectors (sec + 1) } : Mkfs)) = _
  rw [hmax]
  rfl

theorem rsect_run {sec : Nat} (h : sec < t.sectors) : rsect sec t = .ok (t.image sec, t) := by
  simp only [rsect, bind_get, if_pos h, pure_run]

theorem winode_run (h : iblock j < t.sectors) : winode j d t = .ok ((), t.putInode j d) := by
  rw [winode, bind_ok (rsect_run h), wsect_run _ h]
  rfl

theorem rinode_run (h : iblock j < t.sectors) : rinode j t = .ok (dinodeAt t.image j, t) := by
  rw [rinode, bind_ok (rsect_run h)]
  rfl

theorem dinodeAt_putSect {sec : Nat} (buf : Nat → Nat) (h : iblock j ≠ sec) :
    dinodeAt (t.putSect sec buf).image j = dinodeAt t.image j := by
  simp only [dinodeAt, putSect, Function.update_of_ne h]

theorem dinodeAt_putInode (h : d.Fits) : dinodeAt (t.putInode j d).image j = d := by
  have hslice := slice_patch_self (t.image (iblock j)) (j % ipb * dinodeSize) d.encode
  rw [Dinode.encode_length] at hslice
  simp only [dinodeAt, putInode, putSect, Function.update_self, hslice, Dinode.decode_encode h]

theorem dinodeAt_putInode_of_ne {i : Nat} (h : i ≠ j) :
    dinodeAt (t.putInode j d).image i = dinodeAt t.image i := by
  by_cases hb : iblock i = iblock j
  · have hslice : slice (patch (t.image (iblock j)) (j % ipb * dinodeSize) d.encode)
        (i % ipb * dinodeSize) dinodeSize =
        slice (t.image (iblock j)) (i % ipb * dinodeSize) dinodeSize := by
      refine slice_patch_disjoint ?_
      rw [Dinode.encode_length]
      simp only [iblock, ipb, dinodeSize] at *
      omega
    simp only [dinodeAt, putInode, putSect, hb, Function.update_self, hslice]
  · exact dinodeAt_putSect _ hb

abbrev dataStart : Nat := ninodes / ipb + 3 + bitblocks

abbrev inodeEnd : Nat := (ninodes / ipb + 1) * ipb

abbrev area : Superblock := ⟨bsize * 8 - 1, ninodes, 0⟩

def volume (t : Mkfs) : Volume where
  dinode i := if i < inodeEnd then (dinodeAt t.image i).toFs else ⟨.free, 0, 0, 0, 0, fun _ => 0⟩
  bitmap b := decide (b < t.freeblock)
  data b := if b < dataStart then fun _ => 0 else t.image b

theorem iblock_lt (h : j < inodeEnd) : iblock j < ninodes / ipb + 3 := by
  simp only [inodeEnd, iblock, ipb, ninodes] at *
  omega

theorem volume_dinode (h : j < inodeEnd) : t.volume.dinode j = (dinodeAt t.image j).toFs := if_pos h

theorem volume_data {b : Nat} (h : dataStart ≤ b) : t.volume.data b = t.image b :=
  if_neg (by omega)

theorem volume_putInode (hj : j < inodeEnd) (h : d.Fits) :
    (t.putInode j d).volume = t.volume.setDinode j d.toFs := by
  have hdin : (t.putInode j d).volume.dinode = Function.update t.volume.dinode j d.toFs := by
    funext i
    simp only [volume, Function.update_apply]
    by_cases hi : i = j
    · rw [hi, if_pos hj, if_pos rfl, dinodeAt_putInode h]
    · rw [if_neg hi, dinodeAt_putInode_of_ne hi]
  have hdata : (t.putInode j d).volume.data = t.volume.data := by
    funext b
    have hb := iblock_lt hj
    simp only [volume, putInode, putSect]
    split
    · rfl
    · next hge =>
      have hne : b ≠ iblock j := by
        simp only [dataStart] at hge
        omega
      rw [Function.update_of_ne hne]
  simp only [Volume.setDinode]
  rw [← hdin, ← hdata]
  rfl

theorem volume_putSect {x : Nat} (hx : dataStart ≤ x) (buf : Nat → Nat) :
    (t.putSect x buf).volume = t.volume.setData x buf := by
  have hdin : (t.putSect x buf).volume.dinode = t.volume.dinode := by
    funext i
    simp only [volume]
    split
    · next hi =>
      have hb := iblock_lt hi
      simp only [dataStart] at hx
      rw [dinodeAt_putSect buf (by omega)]
    · rfl
  have hdata : (t.putSect x buf).volume.data = Function.update t.volume.data x buf := by
    funext b
    simp only [volume, putSect, Function.update_apply]
    by_cases hb : b = x
    · rw [hb, if_neg (by omega), if_pos rfl, if_pos rfl]
    · rw [if_neg hb, if_neg hb]
  simp only [Volume.setData]
  rw [← hdin, ← hdata]
  rfl

end Mkfs
end Xv6
