import Xv6.Fs.Directory
import Xv6.Mkfs.Populate

namespace Xv6
namespace Mkfs

open Bytes Fs StateExcept Volume

variable {t : Mkfs} {files : List Source}

def rootEntries (files : List Source) : List (Nat × List Nat) :=
  (rootino, [46]) :: (rootino, [46, 46]) :: files.mapIdx fun i f => (i + 2, f.target)

def rootBytes (files : List Source) : List Nat :=
  ((rootEntries files).map fun e => entry e.1 e.2).flatten

def layout (files : List Source) : List (Nat × List Nat) :=
  (tDir, rootBytes files) :: files.map fun f => (tFile, f.bytes)

theorem rootBytes_concat (files : List Source) (f : Source) :
    rootBytes (files ++ [f]) = rootBytes files ++ entry (files.length + 2) f.target := by
  simp only [rootBytes, rootEntries, List.mapIdx_concat, List.map_cons, List.map_append,
    List.map_nil, List.flatten_cons, List.flatten_append, List.flatten_nil, List.append_assoc,
    List.append_nil]

theorem layout_length (files : List Source) : (layout files).length = files.length + 1 := by
  simp [layout]

theorem entry_length (inum : Nat) (name : List Nat) : (entry inum name).length = direntSize :=
  Dirent.encode_length ..

theorem rootBytes_length (files : List Source) :
    (rootBytes files).length = direntSize * (files.length + 2) := by
  induction files using List.reverseRecOn with
  | nil => rfl
  | append_singleton files f ih =>
    rw [rootBytes_concat, List.length_append, ih, entry_length, List.length_append,
      List.length_singleton]
    simp only [direntSize]
    omega

def needed (files : List Source) : Nat :=
  dataStart + (blocks (direntSize * (files.length + 2)) +
    (files.map fun f => blocks f.bytes.length).sum)

theorem imageEnd_layout (files : List Source) : imageEnd (layout files) = needed files := by
  rw [imageEnd, layout, List.map_cons, List.sum_cons, rootBytes_length, List.map_map, needed]
  rfl

theorem needed_concat_le (files rest : List Source) : needed files ≤ needed (files ++ rest) := by
  have hroot := blocks_mono (Nat.mul_le_mul_left direntSize
    (show files.length + 2 ≤ (files ++ rest).length + 2 by rw [List.length_append]; omega))
  simp only [needed, List.map_append, List.sum_append] at *
  omega

structure Fitting (files : List Source) : Prop where
  names : ∀ f ∈ files, 47 ∉ f.name
  sizes : ∀ f ∈ files, f.bytes.length ≤ maxfile * bsize
  blocks : needed files ≤ size

theorem iappend_last {done : List (Nat × List Nat)} {f : Nat × List Nat}
    (h : Image t (done ++ [f])) (p : List Nat) :
    wp (iappend (done.length + 1) p) (fun _ t' => Image t' (done ++ [(f.1, f.2 ++ p)]))
      (fun _ => ¬ Room t f.2.length p.length) t := by
  have hget : (done ++ [f])[done.length]? = some f := by simp
  have hset : (done ++ [f]).set done.length (f.1, f.2 ++ p) = done ++ [(f.1, f.2 ++ p)] := by simp
  rw [← hset]
  exact iappend_spec h hget p

theorem room_last {done : List (Nat × List Nat)} {type : Nat} {l p : List Nat}
    (h : Image t (done ++ [(type, l)])) (hsize : (l ++ p).length ≤ maxfile * bsize)
    (hend : imageEnd (done ++ [(type, l ++ p)]) ≤ size) : Room t l.length p.length := by
  have htotal := h.total
  simp only [imageEnd, List.map_append, List.sum_append, List.map_singleton, List.sum_singleton,
    List.length_append] at *
  exact ⟨hsize, by omega⟩

theorem reads_spec {done : List (Nat × List Nat)} {type : Nat} (reads : List (List Nat))
    (h : Image t (done ++ [(type, [])])) :
    wp (forM reads fun l => iappend (done.length + 1) l)
      (fun _ t' => Image t' (done ++ [(type, reads.flatten)]))
      (fun _ => ¬ (reads.flatten.length ≤ maxfile * bsize ∧
        imageEnd (done ++ [(type, reads.flatten)]) ≤ size)) t := by
  have hloop := wp_forM (l := reads) (s := t) (f := fun l => iappend (done.length + 1) l)
    (F := fun _ => ¬ (reads.flatten.length ≤ maxfile * bsize ∧
      imageEnd (done ++ [(type, reads.flatten)]) ≤ size))
    (I := fun rest t' => ∃ l, l ++ rest.flatten = reads.flatten ∧ Image t' (done ++ [(type, l)]))
    (fun p rest u hu => ?_) ⟨[], rfl, h⟩
  · refine wp_post hloop fun _ t' hpost => ?_
    obtain ⟨l, hl, himg⟩ := hpost
    rw [List.flatten_nil, List.append_nil] at hl
    rwa [← hl]
  · obtain ⟨l, hl, himg⟩ := hu
    rw [List.flatten_cons, ← List.append_assoc] at hl
    refine wp_mono (iappend_last himg p) (fun _ u' hu' => ⟨l ++ p, hl, hu'⟩)
      fun _ hno hroom => hno ?_
    have hlen : (l ++ p).length ≤ reads.flatten.length := by
      rw [← hl]
      exact (List.prefix_append ..).length_le
    refine room_last himg (hlen.trans hroom.1) (le_trans ?_ hroom.2)
    have hmono := blocks_mono hlen
    simp only [imageEnd, List.map_append, List.sum_append, List.map_singleton,
      List.sum_singleton] at *
    omega

theorem addFile_spec {f : Source} (h : Image t (layout files))
    (hroom : files.length + 2 < inodeEnd) :
    wp (addFile rootino f) (fun _ t' => Image t' (layout (files ++ [f])))
      (fun _ => ¬ (47 ∉ f.name ∧ f.bytes.length ≤ maxfile * bsize ∧
        needed (files ++ [f]) ≤ size)) t := by
  have hinums := h.inums
  rw [layout_length] at hinums
  have hlen := layout_length files
  have hb := iblock_lt (j := t.freeinode) (by omega)
  have hsec := h.books.sectors
  have hlow : ninodes / ipb + 3 ≤ size := by decide
  rw [addFile, wp_bind]
  refine wp_assert (fun hname => ?_) fun hno hall => hno hall.1
  rw [wp_bind]
  refine wp_run (ialloc_run (by omega) tFile) ?_
  have himg : Image (t.withInode tFile) _ := h.withInode (by omega) (by decide) (by decide)
  rw [wp_bind]
  have hroot : (layout files ++ [(tFile, [])])[0]? = some (tDir, rootBytes files) := rfl
  have happ := iappend_spec himg hroot (entry t.freeinode f.target)
  dsimp only at happ
  rw [hinums, ← rootBytes_concat] at happ
  rw [hinums]
  refine wp_mono happ (fun _ t₁ himg₁ => ?_) fun _ hno hall => hno ?_
  · have hset : (layout files ++ [(tFile, ([] : List Nat))]).set 0 (tDir, rootBytes (files ++ [f])) =
        (layout files).set 0 (tDir, rootBytes (files ++ [f])) ++ [(tFile, [])] := by
      simp [layout]
    rw [hset] at himg₁
    have hreads := reads_spec f.reads himg₁
    have hlayout : (layout files).set 0 (tDir, rootBytes (files ++ [f])) ++ [(tFile, f.bytes)] =
        layout (files ++ [f]) := by
      simp [layout]
    rw [← Source.bytes, hlayout, imageEnd_layout, List.length_set, hlen] at hreads
    exact wp_mono hreads (fun _ _ hpost => hpost) fun _ hno hall => hno ⟨hall.2.1, hall.2.2⟩
  · have htotal := h.total
    have hneeded := hall.2.2
    rw [imageEnd_layout] at htotal
    have hfree : (t.withInode tFile).freeblock = t.freeblock := rfl
    simp only [needed, List.map_append, List.sum_append, List.length_append, List.length_singleton]
      at htotal hneeded
    have hsucc : direntSize * (files.length + 2) + direntSize =
        direntSize * (files.length + 1 + 2) := by
      simp only [direntSize]
      omega
    simp only [Room, rootBytes_length, entry_length, hfree, hsucc]
    simp only [direntSize, maxfile, ndirect, nindirect, bsize, inodeEnd, ninodes, ipb] at *
    omega

theorem clear_run (n : Nat) (ht : t.image = fun _ _ => 0) :
    (forM (List.range n) fun i => wsect i fun _ => 0) t =
      .ok ((), { t with sectors := max t.sectors n }) := by
  induction n with
  | zero =>
    have hmax : max t.sectors 0 = t.sectors := by omega
    rw [hmax]
    rfl
  | succ n ih =>
    have himage : Function.update t.image n (fun _ => 0) = t.image := by
      rw [ht]
      exact Function.update_eq_self ..
    have hmax : max (max t.sectors n) (n + 1) = max t.sectors (n + 1) := by omega
    rw [List.range_succ, List.forM_append, bind_ok ih]
    change Except.ok ((), ({ t with
      image := Function.update t.image n fun _ => 0,
      sectors := max (max t.sectors n) (n + 1) } : Mkfs)) = _
    rw [himage, hmax]

theorem clear_spec {Q : Unit → Mkfs → Prop} {F : Exit → Prop} {n : Nat}
    (ht : t.image = fun _ _ => 0) (hsec : t.sectors ≤ n) (hq : Q () { t with sectors := n }) :
    wp (forM (List.range n) fun i => wsect i fun _ => 0) Q F t := by
  have hrun := clear_run n ht
  rw [Nat.max_eq_right hsec] at hrun
  exact wp_run hrun hq

def cleared (t : Mkfs) : Mkfs :=
  putSect { t with sectors := size } 1 (patch (fun _ => 0) 0 superblock)

theorem dinodeAt_cleared (j : Nat) :
    dinodeAt start.cleared.image j = ⟨0, 0, 0, 0, 0, fun _ => 0⟩ := by
  have hb : iblock j ≠ 1 := Nat.ne_of_gt (Nat.le_add_left 2 _)
  have hzero : slice (fun _ => 0) (j % ipb * dinodeSize) dinodeSize = List.replicate dinodeSize 0 :=
    slice_zero ..
  rw [cleared, dinodeAt_putSect _ hb, dinodeAt]
  simp only [start, hzero, Dinode.decode_zero]

theorem cleared_free (j : Nat) : (start.cleared.volume.dinode j).type = .free := by
  simp only [volume]
  split
  · rw [dinodeAt_cleared]
    rfl
  · rfl

theorem image_cleared : Image start.cleared [] where
  books := by
    refine ⟨rfl, rfl, le_rfl, fun b hb => ?_⟩
    have hne : b ≠ 1 := by
      have hge : dataStart ≤ b := hb
      simp only [dataStart, ninodes, ipb, bitblocks, size, bsize] at hge
      omega
    exact Function.update_of_ne hne ..
  high := by decide
  inums := rfl
  room := by decide
  sound := by
    refine ⟨fun b hb => decide_eq_true hb, fun j _ hj => absurd (cleared_free j) hj,
      fun j _ _ _ hj => absurd (cleared_free j) hj, fun j _ hj => absurd (cleared_free j) hj,
      fun j hj => absurd (cleared_free j) hj⟩
  free j _ _ := by rw [dinodeAt_cleared]
  holds i f hf := by cases hf
  total := rfl
  newest hgt := absurd hgt (lt_irrefl _)

-- The equation keeps Lean from running mkfs when it looks at the goal.
theorem makeRoot_spec (F : Exit → Prop) (ht : t = start) :
    wp makeRoot (fun _ t => Image t (layout [])) F t := by
  have hsize : nblocks + t.usedblocks + nlog = size := by
    rw [ht]
    rfl
  have hinum : t.freeinode = rootino := by
    rw [ht]
    rfl
  have himg : Image (t.cleared.withInode tDir) [(tDir, [])] := by
    rw [ht]
    exact image_cleared.withInode (by decide) (by decide) (by decide)
  rw [makeRoot, wp_bind, wp_get, wp_bind]
  refine wp_assert (fun _ => ?_) fun hno => absurd hsize hno
  rw [wp_bind]
  refine clear_spec (by rw [ht]; rfl) (by rw [ht]; exact Nat.zero_le _) ?_
  rw [hsize, wp_bind]
  refine wp_run (wsect_run _ (show 1 < size by decide)) ?_
  rw [wp_bind]
  refine wp_run (ialloc_run (t := t.cleared) ?_ tDir) ?_
  · change iblock t.freeinode < size
    rw [hinum]
    decide
  · have hroot : t.cleared.freeinode = rootino := hinum
    rw [hroot, wp_bind]
    refine wp_assert (fun _ => ?_) fun hno => absurd rfl hno
    rw [wp_bind]
    have himg₀ : Image (t.cleared.withInode tDir) ([] ++ [(tDir, [])]) := himg
    refine wp_mono (iappend_last himg₀ (entry rootino [46])) (fun _ t₁ himg₁ => ?_)
      fun _ hno => absurd ?_ hno
    · refine wp_mono (iappend_last himg₁ (entry rootino [46, 46]))
        (fun _ t₂ himg₂ => himg₂) fun _ hno => absurd ?_ hno
      exact room_last himg₁ (by decide) (by decide)
    · exact room_last himg₀ (by decide) (by decide)

theorem files_spec (h : Image t (layout []))
    (hroom : files.length + 1 < inodeEnd) :
    wp (forM files (addFile rootino)) (fun _ t' => Image t' (layout files))
      (fun _ => ¬ Fitting files) t := by
  have hloop := wp_forM (l := files) (s := t) (f := addFile rootino)
    (F := fun _ => ¬ Fitting files)
    (I := fun rest t' => ∃ done, done ++ rest = files ∧ Image t' (layout done))
    (fun f rest u hu => ?_) ⟨[], rfl, h⟩
  · refine wp_post hloop fun _ t' hpost => ?_
    obtain ⟨done, hdone, himg⟩ := hpost
    rw [List.append_nil] at hdone
    rwa [← hdone]
  · obtain ⟨done, hdone, himg⟩ := hu
    have hmem : f ∈ files := by
      rw [← hdone]
      exact List.mem_append_right _ List.mem_cons_self
    have hlen : done.length + (rest.length + 1) = files.length := by
      rw [← hdone, List.length_append, List.length_cons]
    rw [← List.singleton_append, ← List.append_assoc] at hdone
    refine wp_mono (addFile_spec himg (by omega)) (fun _ u' hu' => ⟨done ++ [f], hdone, hu'⟩)
      fun _ hno hfit => hno ⟨hfit.names f hmem, hfit.sizes f hmem, ?_⟩
    have hle := needed_concat_le (done ++ [f]) rest
    rw [hdone] at hle
    exact hle.trans hfit.blocks

end Mkfs
end Xv6
