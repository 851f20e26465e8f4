import Xv6.Mkfs.Files

namespace Xv6
namespace Mkfs

open Bytes Fs StateExcept Volume

variable {t : Mkfs} {files : List Source} {j k : Nat}

-- The number that the inode, or its indirect block, has at its k-th place.
def blockNo (t : Mkfs) (j k : Nat) : Nat := (dinodeAt t.image j).toFs.ref t.image k

def fileBlocks (t : Mkfs) (j : Nat) : Nat := ((dinodeAt t.image j).size + (bsize - 1)) / bsize

structure Uses (t : Mkfs) (j k : Nat) : Prop where
  inum : j < t.freeinode
  place : (∃ bn < t.fileBlocks j, k = blockRef bn) ∨ k = ndirect ∧ t.blockNo j ndirect ≠ 0

-- What the kernel expects of an image.
structure Consistent (t : Mkfs) : Prop where
  inodes : ∀ j < t.freeinode, iblock j < ninodes / ipb + 3
  mapped : ∀ j < t.freeinode, ∀ bn < t.fileBlocks j, t.blockNo j (blockRef bn) ≠ 0 ∧
    dataStart ≤ t.blockNo j (blockRef bn) ∧ t.blockNo j (blockRef bn) < size - nlog
  distinct : ∀ j k j' k', t.Uses j k → t.Uses j' k' → t.blockNo j k = t.blockNo j' k' →
    j = j' ∧ k = k'
  bitmap : ∀ b < bsize * 8,
    (t.image (ninodes / ipb + 3) (b / 8)).testBit (b % 8) = true ↔ b < t.freeblock

theorem usedBits_testBit (used b : Nat) :
    (usedBits used (b / 8)).testBit (b % 8) = true ↔ b < used := by
  induction used with
  | zero => simp [usedBits]
  | succ used ih =>
    have hstep : usedBits (used + 1) = Function.update (usedBits used) (used / 8)
        (usedBits used (used / 8) ||| 1 <<< (used % 8)) := by
      simp only [usedBits, List.range_succ, List.foldl_append, List.foldl_cons, List.foldl_nil]
    rw [hstep, Function.update_apply]
    split
    · next hbyte =>
      rw [Nat.testBit_or, Bool.or_eq_true, ← hbyte, ih, Nat.one_shiftLeft, Nat.testBit_two_pow,
        decide_eq_true_eq]
      omega
    · next hbyte =>
      rw [ih]
      have hne : b ≠ used := fun h => hbyte (by rw [h])
      omega

def finished (t : Mkfs) : Mkfs :=
  (t.putInode rootino { dinodeAt t.image rootino with
    size := ((dinodeAt t.image rootino).size / bsize + 1) * bsize }).putSect (ninodes / ipb + 3)
      (usedBits t.usedblocks)

theorem fixRoot_run (hsec : t.sectors = size) (hused : t.usedblocks < bsize * 8) :
    fixRoot rootino t = .ok ((), t.finished) := by
  have hb : iblock rootino < t.sectors := by
    rw [hsec]
    decide
  have hmap : ninodes / ipb + 3 < t.sectors := by
    rw [hsec]
    decide
  have hballoc : ∀ u : Mkfs, u.sectors = t.sectors → u.usedblocks = t.usedblocks →
      balloc u.usedblocks u = .ok ((), u.putSect (ninodes / ipb + 3) (usedBits t.usedblocks)) := by
    intro u hu hu'
    rw [balloc, assert, hu', if_pos hused]
    exact wsect_run _ (hu ▸ hmap)
  rw [fixRoot, bind_ok (rinode_run hb), bind_ok (winode_run hb), bind_get]
  exact hballoc _ rfl rfl

theorem main_spec (hroom : files.length + 1 < inodeEnd) :
    wp (main files) (fun _ t => ∃ u, Image u (layout files) ∧ t = u.finished)
      (fun _ => ¬ Fitting files) start := by
  rw [main, wp_bind]
  refine wp_post (makeRoot_spec _ rfl) fun _ t₁ himg => ?_
  rw [wp_bind]
  refine wp_post (files_spec himg hroom) fun _ t₂ himg₂ => ?_
  refine wp_run (fixRoot_run himg₂.books.sectors ?_) ⟨t₂, himg₂, rfl⟩
  have hhigh := himg₂.high
  rw [himg₂.books.used]
  simp only [size, bsize] at *
  omega

theorem mkfs_ok {t : Mkfs} (h : mkfs files = .ok t) : main files start = .ok ((), t) := by
  rw [mkfs] at h
  split at h
  · next hrun =>
    cases h
    exact hrun
  · cases h

theorem mkfs_image (h : mkfs files = .ok t) (hroom : files.length + 1 < inodeEnd) :
    ∃ u, Image u (layout files) ∧ t = u.finished :=
  wp_ok (main_spec hroom) (mkfs_ok h)

theorem mkfs_completes (hfit : Fitting files) (hroom : files.length + 1 < inodeEnd) :
    ∃ t, mkfs files = .ok t := by
  have hspec := main_spec hroom
  rw [mkfs]
  cases hrun : main files start with
  | error e =>
    have hno : ¬ Fitting files := wp_error (F := fun _ => ¬ Fitting files) hspec hrun
    exact absurd hfit hno
  | ok r => exact ⟨r.2, rfl⟩

theorem finished_data {b : Nat} (hb : dataStart ≤ b) : t.finished.image b = t.image b := by
  have hlow : ninodes / ipb + 3 < dataStart := by decide
  have hmap : b ≠ ninodes / ipb + 3 := by omega
  have hroot : b ≠ iblock rootino := by
    have hlt := iblock_lt (j := rootino) (by decide)
    omega
  simp only [finished, putInode, putSect, Function.update_of_ne hmap, Function.update_of_ne hroot]

namespace Image

variable (h : Image t (layout files))

include h

theorem root : Holds t rootino (tDir, rootBytes files) := h.holds 0 _ rfl

theorem root_size : (dinodeAt t.image rootino).size = direntSize * (files.length + 2) := by
  rw [h.root.din_size (by decide), rootBytes_length]

theorem files_lt : files.length + 1 < inodeEnd := by
  have hroom := h.room
  rwa [layout_length] at hroom

theorem dinodeAt_finished (hj : j < inodeEnd) : dinodeAt t.finished.image j =
    { dinodeAt t.image j with size :=
        if j = rootino then (direntSize * (files.length + 2) / bsize + 1) * bsize
        else (dinodeAt t.image j).size } := by
  have hb := iblock_lt hj
  rw [finished, dinodeAt_putSect _ (by omega)]
  split
  · next hroot =>
    subst hroot
    have hlen := h.files_lt
    rw [h.root_size, dinodeAt_putInode]
    refine { h.root.fits with size := ?_ }
    simp only [direntSize, bsize, inodeEnd, ninodes, ipb] at *
    omega
  · next hroot => rw [dinodeAt_putInode_of_ne hroot]

theorem alloc_or_free (hj : j < t.freeinode) :
    (∃ f, Holds t j f) ∨ j = 0 ∧ dinodeAt t.image j = ⟨0, 0, 0, 0, 0, fun _ => 0⟩ := by
  have hinums := h.inums
  cases j with
  | zero => exact Or.inr ⟨rfl, h.free 0 (by decide) (Or.inl rfl)⟩
  | succ i =>
    have hlt : i < (layout files).length := by omega
    exact Or.inl ⟨_, h.holds i _ (List.getElem?_eq_getElem hlt)⟩

theorem blockNo_finished (hj : j < t.freeinode) (k : Nat) :
    t.finished.blockNo j k = t.volume.ref j k := by
  have hinums := h.inums
  have hroom := h.room
  have hjend : j < inodeEnd := by omega
  have hdin := volume_dinode (t := t) hjend
  simp only [blockNo, ref, h.dinodeAt_finished hjend, hdin, Fs.Dinode.ref, Dinode.toFs]
  split
  · rfl
  · split
    · rfl
    · next hind =>
      rcases h.alloc_or_free hj with ⟨f, hf⟩ | ⟨-, hfree⟩
      · have hm := h.sound.marked j ndirect (hf.type_ne hjend) (by decide)
          (by rw [ref_direct le_rfl, hdin]; exact hind)
        rw [ref_direct le_rfl, hdin] at hm
        have hlow : dataStart ≤ (dinodeAt t.image j).addrs ndirect := hm.2.1
        rw [finished_data hlow, volume_data hlow]
      · rw [hfree] at hind
        exact absurd rfl hind

theorem inum_of_lt (hj : j < t.freeinode) : j < inodeEnd := by
  have hinums := h.inums
  have hroom := h.room
  omega

theorem lt_fileBlocks {f : Nat × List Nat} {bn : Nat} (hj : j < t.freeinode) (hf : Holds t j f) :
    bn < t.finished.fileBlocks j ↔ bn * bsize < f.2.length ∨
      j = rootino ∧ bn * bsize = direntSize * (files.length + 2) := by
  have hsize := hf.din_size (h.inum_of_lt hj)
  rw [fileBlocks, h.dinodeAt_finished (h.inum_of_lt hj)]
  dsimp only
  split
  · next hroot =>
    subst hroot
    rw [← hsize, h.root_size]
    simp only [bsize, direntSize, true_and]
    omega
  · next hroot =>
    rw [hsize]
    simp only [bsize]
    omega

theorem used {f : Nat × List Nat} {bn : Nat} (hj : j < t.freeinode) (hf : Holds t j f)
    (hbn : bn * bsize < f.2.length) : bn < maxfile ∧ t.volume.ref j (blockRef bn) ≠ 0 := by
  have hle := h.sound.size j (hf.type_ne (h.inum_of_lt hj))
  rw [← content_length, hf.content] at hle
  have hlt : bn < maxfile := Nat.lt_of_mul_lt_mul_right (hbn.trans_le hle)
  exact ⟨hlt, (hf.exact.data bn hlt).mpr hbn⟩

end Image

theorem finished_consistent (h : Image t (layout files)) (hmod : (files.length + 2) % 32 ≠ 0)
    (hend : needed files ≤ size - nlog) : Consistent t.finished := by
  have htotal := h.total
  rw [imageEnd_layout] at htotal
  -- Every place in use holds a block of the sound volume.
  have hplace : ∀ j k, t.finished.Uses j k → j < t.freeinode ∧
      (t.volume.dinode j).type ≠ .free ∧ k < nref ∧ t.volume.ref j k ≠ 0 := by
    intro j k huse
    have hj : j < t.freeinode := huse.inum
    rcases h.alloc_or_free hj with ⟨f, hf⟩ | ⟨hzero, hfree⟩
    · refine ⟨hj, hf.type_ne (h.inum_of_lt hj), ?_⟩
      rcases huse.place with ⟨bn, hbn, rfl⟩ | ⟨rfl, hne⟩
      · rcases (h.lt_fileBlocks hj hf).mp hbn with hin | ⟨-, hroot⟩
        · have hused := h.used hj hf hin
          exact ⟨blockRef_lt hused.1, hused.2⟩
        · simp only [bsize, direntSize] at hroot
          omega
      · rw [h.blockNo_finished hj] at hne
        exact ⟨by decide, hne⟩
    · rcases huse.place with ⟨bn, hbn, -⟩ | ⟨-, hne⟩
      · rw [fileBlocks, h.dinodeAt_finished (h.inum_of_lt hj), hfree, hzero] at hbn
        dsimp only at hbn
        rw [if_neg (by decide)] at hbn
        exact absurd hbn (Nat.not_lt_zero bn)
      · rw [h.blockNo_finished hj, ref_direct le_rfl, volume_dinode (h.inum_of_lt hj), hfree] at hne
        exact absurd rfl hne
  refine ⟨fun j hj => iblock_lt (h.inum_of_lt hj), fun j hj bn hbn => ?_,
    fun j k j' k' hu hu' heq => ?_, fun b hb => ?_⟩
  · obtain ⟨-, hj', hk, hne⟩ := hplace j (blockRef bn) ⟨hj, Or.inl ⟨bn, hbn, rfl⟩⟩
    have hm := h.sound.marked j _ hj' hk hne
    rw [h.blockNo_finished hj]
    have hlt : t.volume.ref j (blockRef bn) < t.freeblock := of_decide_eq_true hm.1
    exact ⟨hne, hm.2.1, by omega⟩
  · obtain ⟨hj, htype, hk, hne⟩ := hplace j k hu
    obtain ⟨hj', htype', hk', -⟩ := hplace j' k' hu'
    rw [h.blockNo_finished hj, h.blockNo_finished hj'] at heq
    exact h.sound.unique j k j' k' htype htype' hk hk' hne heq
  · have hmap : t.finished.image (ninodes / ipb + 3) = usedBits t.usedblocks := by
      simp only [finished, putSect, Function.update_self]
    rw [hmap, usedBits_testBit, h.books.used]
    rfl

theorem Consistent.bounds (hc : Consistent t.finished) (h : Image t (layout files)) :
    (files.length + 2) % 32 ≠ 0 ∧ needed files ≤ size - nlog := by
  have hinums := h.inums
  refine ⟨fun hmod => ?_, ?_⟩
  · have hroot : rootino < t.freeinode := by
      rw [hinums, layout_length]
      exact Nat.succ_lt_succ (Nat.succ_pos _)
    have hlen := h.files_lt
    have hfull : direntSize * (files.length + 2) / bsize * bsize =
        direntSize * (files.length + 2) := by
      simp only [direntSize, bsize]
      omega
    have hlast := (h.lt_fileBlocks hroot h.root).mpr (Or.inr ⟨rfl, hfull⟩)
    have hne := (hc.mapped rootino hroot _ hlast).1
    have hmax : direntSize * (files.length + 2) / bsize < maxfile := by
      simp only [direntSize, bsize, maxfile, ndirect, nindirect, inodeEnd, ninodes, ipb] at *
      omega
    rw [h.blockNo_finished hroot, h.root.exact.data _ hmax, hfull, rootBytes_length] at hne
    exact lt_irrefl _ hne
  · rw [← imageEnd_layout, ← h.total]
    have hlow : dataStart ≤ size - nlog := by decide
    by_contra hgt
    obtain ⟨i, f, bn, hf, hbn, hin, hnew⟩ := h.newest (by omega)
    have hj : i + 1 < t.freeinode := by
      have hlt := (List.getElem?_eq_some_iff.mp hf).1
      omega
    have hblock := (h.lt_fileBlocks hj (h.holds i f hf)).mpr (Or.inl hin)
    have hmapped := (hc.mapped (i + 1) hj bn hblock).2.2
    rw [h.blockNo_finished hj] at hmapped
    omega

def Keeps (s t : Mkfs) : Prop := t.freeinode = s.freeinode

instance : Std.Refl Keeps := ⟨fun _ => rfl⟩

instance : IsTrans Mkfs Keeps := ⟨fun _ _ _ h h' => h'.trans h⟩

section Keeps

theorem assert_keeps (p : Prop) [Decidable p] : Moves Keeps (assert p) := by
  unfold assert
  split
  · exact moves_pure _
  · exact moves_throw _

theorem wsect_keeps (sec : Nat) (buf : Nat → Nat) : Moves Keeps (wsect sec buf) :=
  moves_modify fun _ => rfl

theorem rsect_keeps (sec : Nat) : Moves Keeps (rsect sec) := by
  refine moves_get fun s => ?_
  split
  · exact rfl
  · trivial

theorem winode_keeps (inum : Nat) (d : Dinode) : Moves Keeps (winode inum d) :=
  moves_bind (rsect_keeps _) fun _ => wsect_keeps _ _

theorem rinode_keeps (inum : Nat) : Moves Keeps (rinode inum) :=
  moves_bind (rsect_keeps _) fun _ => moves_pure _

theorem takeBlock_keeps : Moves Keeps takeBlock := moves_get fun _ => rfl

theorem takeAddr_keeps (din : Dinode) (i : Nat) : Moves Keeps (takeAddr din i) := by
  unfold takeAddr
  split
  · exact moves_bind takeBlock_keeps fun _ => moves_pure _
  · exact moves_pure _

theorem takeWord_keeps (ind i : Nat) : Moves Keeps (takeWord ind i) := by
  refine moves_bind (rsect_keeps _) fun indirect => ?_
  split
  · exact moves_bind takeBlock_keeps fun _ => moves_bind (wsect_keeps _ _) fun _ => moves_pure _
  · exact moves_pure _

theorem blockOf_keeps (din : Dinode) (fbn : Nat) : Moves Keeps (blockOf din fbn) := by
  unfold blockOf
  split
  · exact moves_bind (takeAddr_keeps _ _) fun _ => moves_pure _
  · exact moves_bind (takeAddr_keeps _ _) fun _ => moves_bind (takeWord_keeps _ _) fun _ =>
      moves_pure _

theorem appendRound_keeps (din : Dinode) (off : Nat) (part : List Nat) :
    Moves Keeps (appendRound din off part) :=
  moves_bind (blockOf_keeps _ _) fun _ => moves_bind (rsect_keeps _) fun _ =>
    moves_bind (wsect_keeps _ _) fun _ => moves_pure _

theorem appendLoop_keeps (fuel : Nat) (din : Dinode) (off : Nat) (p : List Nat) :
    Moves Keeps (appendLoop fuel din off p) := by
  induction fuel generalizing din off p with
  | zero => exact moves_pure _
  | succ fuel ih =>
    rw [appendLoop]
    split
    · exact moves_pure _
    · exact moves_bind (assert_keeps _) fun _ => moves_bind (appendRound_keeps _ _ _) fun _ =>
        ih _ _ _

theorem iappend_keeps (inum : Nat) (p : List Nat) : Moves Keeps (iappend inum p) :=
  moves_bind (rinode_keeps _) fun _ => moves_bind (appendLoop_keeps _ _ _ _) fun _ =>
    winode_keeps _ _

theorem balloc_keeps (used : Nat) : Moves Keeps (balloc used) :=
  moves_bind (assert_keeps _) fun _ => wsect_keeps _ _

theorem fixRoot_keeps (root : Nat) : Moves Keeps (fixRoot root) :=
  moves_bind (rinode_keeps _) fun _ => moves_bind (winode_keeps _ _) fun _ =>
    moves_get fun t => balloc_keeps _ t

end Keeps

theorem addFile_freeinode (root : Nat) (f : Source) (t : Mkfs) :
    wp (addFile root f) (fun _ t' => t'.freeinode = t.freeinode + 1) (fun _ => True) t := by
  rw [addFile, wp_bind]
  refine wp_post (assert_keeps _ t) fun _ t₁ h₁ => ?_
  rw [wp_bind, ialloc, wp_bind, wp_get, wp_bind, wp_set, wp_bind]
  refine wp_post (winode_keeps _ _ _) fun _ t₂ h₂ => ?_
  rw [wp_pure, wp_bind]
  refine wp_post (iappend_keeps _ _ t₂) fun _ t₃ h₃ => ?_
  refine wp_post (moves_forM (fun l => iappend_keeps _ l) t₃) fun _ t₄ h₄ => ?_
  have hsame : t₄.freeinode = t₁.freeinode + 1 := h₄.trans (h₃.trans h₂)
  rw [hsame, h₁]

theorem main_freeinode (files : List Source) :
    wp (main files) (fun _ t => t.freeinode = files.length + 2) (fun _ => True) start := by
  rw [main, wp_bind]
  refine wp_post (makeRoot_spec _ rfl) fun _ t₁ himg => ?_
  rw [wp_bind]
  have hloop := wp_forM (l := files) (s := t₁) (f := addFile rootino) (F := fun _ => True)
    (I := fun rest t => t.freeinode + rest.length = files.length + 2) (fun f rest u hu => ?_) ?_
  · refine wp_post hloop fun _ t₂ h₂ => ?_
    exact wp_post (fixRoot_keeps _ t₂) fun _ t₃ h₃ => h₃.trans h₂
  · refine wp_post (addFile_freeinode _ f u) fun _ v hv => ?_
    rw [List.length_cons] at hu
    omega
  · have hinums : t₁.freeinode = 2 := himg.inums
    omega

theorem mkfs_consistent_iff (files : List Source) (t : Mkfs) (h : mkfs files = .ok t) :
    Consistent t ↔ files.length + 1 < inodeEnd ∧ (files.length + 2) % 32 ≠ 0 ∧
      needed files ≤ size - nlog := by
  by_cases hroom : files.length + 1 < inodeEnd
  · obtain ⟨u, himg, rfl⟩ := mkfs_image h hroom
    exact ⟨fun hc => ⟨hroom, hc.bounds himg⟩, fun hb => finished_consistent himg hb.2.1 hb.2.2⟩
  · refine ⟨fun hc => ?_, fun hb => absurd hb.1 hroom⟩
    have hfree : t.freeinode = files.length + 2 :=
      wp_ok (Q := fun _ t => t.freeinode = files.length + 2) (main_freeinode files) (mkfs_ok h)
    have hlast := hc.inodes (files.length + 1) (by omega)
    simp only [iblock, inodeEnd, ninodes, ipb] at *
    omega

def readme : Source := ⟨[82, 69, 65, 68, 77, 69], [[120, 118, 54]], by decide, by decide⟩

theorem mkfs_consistent_readme : ∃ t, mkfs [readme] = .ok t ∧ Consistent t := by
  have hfit : Fitting [readme] := ⟨by decide, by decide, by decide⟩
  obtain ⟨t, ht⟩ := mkfs_completes hfit (by decide)
  exact ⟨t, ht, (mkfs_consistent_iff [readme] t ht).mpr ⟨by decide, by decide, by decide⟩⟩

def emptyFile (i : Nat) : Source where
  name := [97 + i]
  reads := []
  string := ⟨List.cons_ne_nil _ _, fun h => by have := List.mem_singleton.mp h; omega⟩
  sized := fun _ h => by cases h

-- With thirty files the entries of the root fill one block, and its size says two.
theorem mkfs_inconsistent : ¬ ∀ files t, mkfs files = .ok t → Consistent t := by
  intro hall
  have hroom : ((List.range 30).map emptyFile).length + 1 < inodeEnd := by decide
  obtain ⟨t, ht⟩ := mkfs_completes ⟨by decide, by decide, by decide⟩ hroom
  obtain ⟨u, himg, rfl⟩ := mkfs_image ht hroom
  exact ((hall _ _ ht).bounds himg).1 (by decide)

end Mkfs
end Xv6
