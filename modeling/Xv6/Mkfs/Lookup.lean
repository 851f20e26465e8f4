import Mathlib.Data.List.TakeWhile
import Xv6.Mkfs.Consistent

namespace Xv6
namespace Mkfs

open Bytes Fs StateExcept Volume

variable {t : Mkfs} {files : List Source} {f : Nat × List Nat} {fs fs' : Fs} {s ip : Islot}
  {j off n : Nat}

def disk (t : Mkfs) : Volume where
  dinode j := (dinodeAt t.image j).toFs
  bitmap b := (t.image (b / bpb + ninodes / ipb + 3) (b % bpb / 8)).testBit (b % bpb % 8)
  data := t.image

-- The kernel runs on the image, has locked the root in slot `s`, and has changed no inode so far.
structure Mounted (t : Mkfs) (fs : Fs) (s : Islot) : Prop where
  disk : fs.disk = t.disk
  root : (fs.icache s).inum = rootino
  held : 0 < (fs.icache s).ref
  valid : (fs.icache s).valid = true
  clean : ∀ p, 0 < (fs.icache p).ref → (fs.icache p).valid = true →
    (fs.icache p).din = fs.disk.dinode (fs.icache p).inum
  idle : ∀ p, p ≠ s → 0 < (fs.icache p).ref → (fs.icache p).busy = false
  spare : ∃ p, (fs.icache p).ref = 0

-- The inode found under the name is a file with the bytes of the source.
def Finds (fs : Fs) (s : Islot) (f : Source) : Prop :=
  ∃ ip off fs₁ fs₂, dirlookup s f.target fs = .ok (some (ip, off), fs₁) ∧
    ilock ip fs₁ = .ok ((), fs₂) ∧ (fs₂.icache ip).din.type = .file ∧
    (fs₂.icache ip).din.size = f.bytes.length ∧
    readi ip 0 f.bytes.length fs₂ = .ok (some f.bytes, fs₂)

theorem disk_byteAt (h : Image t (layout files)) (hf : Holds t j f) (hj : j < t.freeinode)
    {pos : Nat} (hpos : pos < f.2.length) :
    t.finished.disk.ref j (blockRef (pos / bsize)) ≠ 0 ∧
      t.finished.disk.byteAt j pos = t.volume.byteAt j pos := by
  have hle := Nat.div_mul_le_self pos bsize
  have hin : pos / bsize * bsize < f.2.length := by omega
  obtain ⟨hbn, hne⟩ := h.used hj hf hin
  have href : t.finished.disk.ref j (blockRef (pos / bsize)) =
      t.volume.ref j (blockRef (pos / bsize)) := h.blockNo_finished hj _
  have hlow := (h.sound.marked j _ (hf.type_ne (h.inum_of_lt hj)) (blockRef_lt hbn) hne).2.1
  have hlow' : dataStart ≤ t.volume.ref j (blockRef (pos / bsize)) := hlow
  refine ⟨by rwa [href], ?_⟩
  rw [byteAt, byteAt, href, volume_data hlow']
  exact congrFun (finished_data hlow') _

theorem view_clean (hclean : (fs.icache s).din = fs.disk.dinode (fs.icache s).inum) :
    fs.view s = fs.disk := by
  rw [Fs.view, hclean]
  exact congrArg (fun d => ({ fs.disk with dinode := d } : Volume)) (Function.update_eq_self ..)

theorem readi_image (h : Image t (layout files)) (hdisk : fs.disk = t.finished.disk)
    (hclean : (fs.icache s).din = fs.disk.dinode (fs.icache s).inum)
    (hf : Holds t (fs.icache s).inum f) (hj : (fs.icache s).inum < t.freeinode)
    (hdev : (fs.icache s).din.type ≠ .dev) (hsize : f.2.length ≤ (fs.icache s).din.size)
    (hle : off + n ≤ f.2.length) :
    readi s off n fs = .ok (some ((f.2.drop off).take n), fs) := by
  have hmax := h.sound.size _ (hf.type_ne (h.inum_of_lt hj))
  rw [← content_length, hf.content] at hmax
  have hview : fs.view s = t.finished.disk := (view_clean hclean).trans hdisk
  have hread : readi s off n fs = _ := readi_here hdev (by omega) (by omega) fun pos hpos => by
    rw [hview]
    exact (disk_byteAt h hf hj (by omega)).1
  rw [hread, hview, ← hf.content, content_slice (by rw [← content_length, hf.content]; exact hle)]
  refine congrArg (fun l => Except.ok (some l, fs)) (slice_congr fun i hi => ?_)
  exact (disk_byteAt h hf hj (by omega)).2

theorem scanDirents_first {m : Nat} {de : Nat → Dirent} (e : Panic) (test : Dirent → Bool)
    (hread : ∀ i ≤ m, ∃ l, readi s (i * direntSize) direntSize fs = .ok (some l, fs) ∧
      l.length = direntSize ∧ Dirent.decode l = de i)
    (hsize : m * direntSize < (fs.icache s).din.size) (hbefore : ∀ i < m, test (de i) = false)
    (hm : test (de m) = true) {fuel i : Nat} (hi : i ≤ m) (hfuel : m < i + fuel) :
    scanDirents s e test fuel (i * direntSize) fs =
      .ok ((m * direntSize, some (de m)), fs) := by
  induction fuel generalizing i with
  | zero => omega
  | succ fuel ih =>
    obtain ⟨l, hl, hlen, hde⟩ := hread i hi
    have hlt : i * direntSize < (fs.icache s).din.size :=
      (Nat.mul_le_mul_right _ hi).trans_lt hsize
    simp only [scanDirents, bind_get]
    rw [if_pos hlt, bind_ok hl]
    simp only [if_pos hlen, hde]
    rcases Nat.lt_or_eq_of_le hi with hlt' | rfl
    · rw [if_neg (by rw [hbefore i hlt']; decide), ← Nat.succ_mul]
      exact ih hlt' (by omega)
    · rw [if_pos hm, pure_run]

theorem rootEntries_of_file {e : Nat × List Nat} {i : Nat}
    (h : (rootEntries files)[i + 2]? = some e) :
    ∃ f, files[i]? = some f ∧ (i + 2, f.target) = e := by
  have hget : (files.mapIdx fun i f => (i + 2, f.target))[i]? = some e := h
  rw [List.getElem?_mapIdx] at hget
  exact Option.map_eq_some_iff.mp hget

theorem rootEntries_inum {e : Nat × List Nat} {i : Nat} (h : (rootEntries files)[i]? = some e) :
    0 < e.1 ∧ e.1 ≤ files.length + 1 ∧ i < files.length + 2 := by
  match i, h with
  | 0, h =>
    cases h
    exact ⟨by decide, by simp, by omega⟩
  | 1, h =>
    cases h
    exact ⟨by decide, by simp, by omega⟩
  | i + 2, h =>
    obtain ⟨f, hf, rfl⟩ := rootEntries_of_file h
    have hlt := (List.getElem?_eq_some_iff.mp hf).1
    exact ⟨Nat.succ_pos _, by dsimp only; omega, by omega⟩

theorem rootBytes_at {e : Nat × List Nat} {i : Nat} (h : (rootEntries files)[i]? = some e) :
    ((rootBytes files).drop (i * direntSize)).take direntSize = entry e.1 e.2 := by
  rw [Nat.mul_comm, rootBytes]
  refine flatten_at (fun l hl => ?_) ?_
  · obtain ⟨e, -, rfl⟩ := List.mem_map.mp hl
    exact entry_length ..
  · rw [List.getElem?_map, h, Option.map_some]

theorem Mounted.root_clean (h : Mounted t fs s) :
    (fs.icache s).din = fs.disk.dinode (fs.icache s).inum := h.clean s h.held h.valid

theorem entry_test {e : Nat × List Nat} (hpos : 0 < e.1) (hlt : e.1 < 2 ^ 16) (name : List Nat) :
    Dirent.decode (entry e.1 e.2) = ⟨e.1, strncpy dirsiz e.2⟩ ∧
      (decide (e.1 ≠ 0 ∧ namecmp name (strncpy dirsiz e.2) = 0) = true ↔
        cut dirsiz e.2 = cut dirsiz name) := by
  refine ⟨Dirent.decode_encode hlt _, ?_⟩
  rw [decide_eq_true_eq, namecmp, strncmp_eq_zero, cut_strncpy]
  exact ⟨fun h => h.2.symm, fun h => ⟨by omega, h.symm⟩⟩

theorem root_din (h : Image t (layout files)) (hm : Mounted t.finished fs s) :
    (fs.icache s).din.type = .dir ∧
      direntSize * (files.length + 2) < (fs.icache s).din.size := by
  have hdin : (fs.icache s).din = (dinodeAt t.finished.image rootino).toFs := by
    rw [hm.root_clean, hm.root, hm.disk]
    rfl
  rw [hdin, h.dinodeAt_finished (by decide)]
  refine ⟨?_, ?_⟩
  · simp only [Dinode.toFs, h.root.type]
    rfl
  · simp only [Dinode.toFs, if_true, bsize]
    omega

theorem dirlookup_image (h : Image t (layout files)) (hm : Mounted t.finished fs s)
    {name : List Nat} {m : Nat} {e : Nat × List Nat} (he : (rootEntries files)[m]? = some e)
    (hname : cut dirsiz e.2 = cut dirsiz name)
    (hbefore : ∀ i < m, ∀ e', (rootEntries files)[i]? = some e' →
      cut dirsiz e'.2 ≠ cut dirsiz name) :
    dirlookup s name fs =
      (do
        let ip ← iget e.1
        pure (some (ip, m * direntSize)) : Fs.M _) fs := by
  obtain ⟨htype, hsize⟩ := root_din h hm
  have hlen := h.files_lt
  have hinums := h.inums
  rw [layout_length] at hinums
  obtain ⟨hpos, hle, hmlt⟩ := rootEntries_inum he
  have hcount : (rootEntries files).length = files.length + 2 := by simp [rootEntries]
  have hbytes := rootBytes_length files
  have htest : ∀ {i e'}, (rootEntries files)[i]? = some e' →
      Dirent.decode (((rootBytes files).drop (i * direntSize)).take direntSize) =
        ⟨e'.1, strncpy dirsiz e'.2⟩ ∧
      (decide (e'.1 ≠ 0 ∧ namecmp name (strncpy dirsiz e'.2) = 0) = true ↔
        cut dirsiz e'.2 = cut dirsiz name) := by
    intro i e' he'
    obtain ⟨hpos', hle', -⟩ := rootEntries_inum he'
    rw [rootBytes_at he']
    refine entry_test hpos' ?_ name
    simp only [inodeEnd, ninodes, ipb] at hlen
    omega
  have hread : ∀ i ≤ m, ∃ l, readi s (i * direntSize) direntSize fs = .ok (some l, fs) ∧
      l.length = direntSize ∧ Dirent.decode l =
        Dirent.decode (((rootBytes files).drop (i * direntSize)).take direntSize) := by
    intro i hi
    refine ⟨_, readi_image h hm.disk hm.root_clean (by rw [hm.root]; exact h.root)
      (by rw [hm.root]; simp only [rootino]; omega) (by rw [htype]; decide) ?_ ?_, ?_, rfl⟩
    · dsimp only
      omega
    · simp only [direntSize] at *
      omega
    · rw [List.length_take, List.length_drop]
      simp only [direntSize] at *
      omega
  have hscan : scanDirents s .dirlinkRead
      (fun de => decide (de.inum ≠ 0 ∧ namecmp name de.name = 0)) (fs.icache s).din.size
      (0 * direntSize) fs = _ := scanDirents_first _ _ hread ?_ ?_ ?_ (Nat.zero_le _) ?_
  · rw [Nat.zero_mul, (htest he).1] at hscan
    simp only [dirlookup, bind_get, if_pos htype]
    rw [bind_ok hscan]
  · simp only [direntSize] at *
    omega
  · intro i hi
    have hlt : i < (rootEntries files).length := by omega
    obtain ⟨hde, htrue⟩ := htest (List.getElem?_eq_getElem hlt)
    rw [hde]
    exact Bool.eq_false_iff.mpr fun heq =>
      hbefore i hi _ (List.getElem?_eq_getElem hlt) (htrue.mp heq)
  · rw [(htest he).1]
    exact (htest he).2.mpr hname
  · simp only [direntSize] at *
    omega

theorem ilock_clean {t : Mkfs} {k : Nat} (hm : Mounted t fs s) (hget : iget k fs = .ok (ip, fs'))
    (halloc : (fs.disk.dinode k).type ≠ .free) :
    ((fs'.icache ip).busy = true ∧ ip = s ∧ ilock ip fs' = .error .blocked) ∨
      ∃ fs₂, ilock ip fs' = .ok ((), fs₂) ∧ fs₂.disk = fs.disk ∧ (fs₂.icache ip).inum = k ∧
        (fs₂.icache ip).din = fs.disk.dinode k := by
  have hgot := got_of_iget hget
  have hdisk : fs'.disk = fs.disk := by rw [hgot.rest]
  have href : ¬ (fs'.icache ip).ref < 1 := by
    rcases lt_or_ge 0 (fs.icache ip).ref with hlt | hge
    · rw [hgot.held hlt]
      dsimp only
      omega
    · rw [(hgot.fresh hge).2.1]
      exact lt_irrefl 1
  have hbusy : (fs'.icache ip).busy = true → ip = s := by
    intro hb
    by_contra hne
    rcases lt_or_ge 0 (fs.icache ip).ref with hlt | hge
    · rw [hgot.held hlt] at hb
      rw [hm.idle ip hne hlt] at hb
      cases hb
    · rw [(hgot.fresh hge).2.1] at hb
      cases hb
  have hvalid : (fs'.icache ip).valid = true → (fs'.icache ip).din = fs.disk.dinode k := by
    intro hv
    rcases lt_or_ge 0 (fs.icache ip).ref with hlt | hge
    · have hinum := hgot.inum
      rw [hgot.held hlt] at hv hinum ⊢
      dsimp only at hv hinum ⊢
      rw [hm.clean ip hlt hv, hinum]
    · rw [(hgot.fresh hge).2.1] at hv
      cases hv
  simp only [ilock, bind_get, if_neg href]
  split
  · next hb => exact Or.inl ⟨hb, hbusy hb, rfl⟩
  · refine Or.inr ?_
    split
    · next hv =>
      refine ⟨fs'.setIp ip { fs'.icache ip with busy := true }, rfl, hdisk, ?_, ?_⟩
      · rw [setIp_self]
        exact hgot.inum
      · rw [setIp_self]
        exact hvalid hv
    · rw [if_neg (by rw [hdisk, hgot.inum]; exact halloc)]
      refine ⟨fs'.setIp ip { fs'.icache ip with
        busy := true, valid := true, din := fs'.disk.dinode (fs'.icache ip).inum }, rfl, hdisk,
        ?_, ?_⟩
      · rw [setIp_self]
        exact hgot.inum
      · rw [setIp_self, hdisk, hgot.inum]

theorem cut_target (f : Source) : cut dirsiz f.target = f.target.take dirsiz := by
  rw [cut, List.takeWhile_eq_self_iff]
  intro x hx
  have hmem : x ∈ f.name := by
    have htarget := List.mem_of_mem_take hx
    rw [Source.target] at htarget
    split at htarget
    · exact List.mem_of_mem_tail htarget
    · exact htarget
  exact decide_eq_true fun hzero => f.string.2 (hzero ▸ hmem)

theorem rootEntries_file {f : Source} {i : Nat} (hf : files[i]? = some f) :
    (rootEntries files)[i + 2]? = some (i + 2, f.target) := by
  change (files.mapIdx fun i f => (i + 2, f.target))[i]? = _
  rw [List.getElem?_mapIdx, hf, Option.map_some]

theorem layout_file {f : Source} {i : Nat} (hf : files[i]? = some f) :
    (layout files)[i + 1]? = some (tFile, f.bytes) := by
  change (files.map fun f => (tFile, f.bytes))[i]? = _
  rw [List.getElem?_map, hf, Option.map_some]

theorem finds_of_fresh (h : Image t (layout files)) (hm : Mounted t.finished fs s) {f : Source}
    {i : Nat} (hf : files[i]? = some f)
    (hnodup : (files.map fun f => f.target.take dirsiz).Nodup)
    (hdot : f.target.take dirsiz ≠ [46]) (hdots : f.target.take dirsiz ≠ [46, 46]) :
    Finds fs s f := by
  have hholds := h.holds (i + 1) _ (layout_file hf)
  have hinums := h.inums
  have hj : i + 2 < t.freeinode := by
    have hlt := (List.getElem?_eq_some_iff.mp (layout_file hf)).1
    omega
  have hjend := h.inum_of_lt hj
  have hdin : fs.disk.dinode (i + 2) = (dinodeAt t.image (i + 2)).toFs := by
    rw [hm.disk]
    change (dinodeAt t.finished.image (i + 2)).toFs = _
    rw [h.dinodeAt_finished hjend, if_neg (by simp only [rootino]; omega)]
  have htype : (fs.disk.dinode (i + 2)).type = .file := by
    rw [hdin, Dinode.toFs, hholds.type]
    rfl
  have hsize : (fs.disk.dinode (i + 2)).size = f.bytes.length := by
    rw [hdin]
    exact hholds.din_size hjend
  have hlook : dirlookup s f.target fs = _ := dirlookup_image h hm (rootEntries_file hf) rfl
    fun m hlt e he hcut => ?_
  · rcases iget_got (i + 2) fs with ⟨ip, fs₁, hget, hgot⟩ | ⟨hfull, -⟩
    · rw [bind_ok hget, pure_run] at hlook
      rcases ilock_clean hm hget (by rw [htype]; decide) with
        ⟨-, rfl, -⟩ | ⟨fs₂, hlock, hdisk, hinum, hclean⟩
      · have hinum := hgot.inum
        rw [hgot.held hm.held, hm.root] at hinum
        simp only [rootino] at hinum
        omega
      · refine ⟨ip, _, fs₁, fs₂, hlook, hlock, by rw [hclean, htype], by rw [hclean, hsize], ?_⟩
        have hread : readi ip 0 f.bytes.length fs₂ = _ := readi_image h (hdisk.trans hm.disk)
          (by rw [hclean, hinum, hdisk]) (by rw [hinum]; exact hholds) (by rwa [hinum])
          (by rw [hclean, htype]; decide) (by rw [hclean, hsize]) (by simp)
        rw [hread]
        simp
    · obtain ⟨p, hp⟩ := hm.spare
      exact absurd hp (hfull p).1
  · rw [cut_target] at hcut
    rcases m with _ | _ | k
    · cases he
      exact hdot hcut.symm
    · cases he
      exact hdots hcut.symm
    · obtain ⟨g, hg, rfl⟩ := rootEntries_of_file he
      have hne := List.nodup_iff_getElem?_ne_getElem?.mp hnodup k i (by omega) (by
        rw [List.length_map]
        exact (List.getElem?_eq_some_iff.mp hf).1)
      rw [List.getElem?_map, List.getElem?_map, hf, hg] at hne
      exact hne (congrArg some ((cut_target g).symm.trans hcut))

theorem not_finds_dots (h : Image t (layout files)) (hm : Mounted t.finished fs s) {f : Source}
    (hdot : f.target.take dirsiz = [46] ∨ f.target.take dirsiz = [46, 46]) : ¬ Finds fs s f := by
  rintro ⟨ip, off, fs₁, fs₂, hlook, hlock, htype, -⟩
  have hroot : (fs.disk.dinode rootino).type = .dir := by
    rw [← (root_din h hm).1, hm.root_clean, hm.root]
  obtain ⟨m, hfound⟩ : ∃ m, dirlookup s f.target fs =
      (do
        let ip ← iget rootino
        pure (some (ip, m * direntSize)) : Fs.M _) fs := by
    rw [← cut_target] at hdot
    rcases hdot with hdot | hdot
    · refine ⟨0, dirlookup_image h hm (m := 0) (e := (rootino, [46])) rfl hdot.symm ?_⟩
      exact fun i hi => absurd hi (Nat.not_lt_zero i)
    · refine ⟨1, dirlookup_image h hm (m := 1) (e := (rootino, [46, 46])) rfl hdot.symm ?_⟩
      intro i hi e he
      obtain rfl : i = 0 := by omega
      cases he
      rw [hdot]
      decide
  rw [hlook] at hfound
  rcases iget_got rootino fs with ⟨ip', fs', hget, -⟩ | ⟨-, hget⟩
  · rw [bind_ok hget, pure_run] at hfound
    cases hfound
    rcases ilock_clean hm hget (by rw [hroot]; decide) with ⟨-, -, hblocked⟩ | ⟨fs₃, hok, -, -, hdin⟩
    · rw [hlock] at hblocked
      cases hblocked
    · rw [hlock] at hok
      cases hok
      rw [hdin, hroot] at htype
      cases htype
  · rw [bind_error hget] at hfound
    cases hfound

-- mkfs and the kernel agree on every file that the root's own entries do not hide.
theorem dirlookup_finds_iff (files : List Source) (hnames : ∀ f ∈ files, 47 ∉ f.name)
    (hnodup : (files.map fun f => f.target.take dirsiz).Nodup)
    (hsizes : ∀ f ∈ files, f.bytes.length ≤ maxfile * bsize) (hinodes : files.length < ninodes)
    (hblocks : needed files < dataStart + nblocks) :
    ∃ t, mkfs files = .ok t ∧ ∀ fs s, Mounted t fs s → ∀ f ∈ files,
      (Finds fs s f ↔ f.target.take dirsiz ≠ [46] ∧ f.target.take dirsiz ≠ [46, 46]) := by
  have hroom : files.length + 1 < inodeEnd := by
    simp only [inodeEnd, ninodes, ipb] at *
    omega
  have hend : dataStart + nblocks ≤ size := by decide
  obtain ⟨t, ht⟩ := mkfs_completes ⟨hnames, hsizes, by omega⟩ hroom
  obtain ⟨u, himg, rfl⟩ := mkfs_image ht hroom
  refine ⟨_, ht, fun fs s hm f hf => ⟨fun hfinds => ?_, fun hdots => ?_⟩⟩
  · by_contra hno
    exact not_finds_dots himg hm (by tauto) hfinds
  · obtain ⟨i, hi⟩ := List.mem_iff_getElem?.mp hf
    exact finds_of_fresh himg hm hi hnodup hdots.1 hdots.2

def boot (t : Mkfs) : Fs where
  sb := ⟨size, ninodes, nlog⟩
  disk := t.disk
  icache := Function.update (fun _ => ⟨0, 0, false, false, t.disk.dinode 0⟩) 0
    ⟨rootino, 1, true, true, t.disk.dinode rootino⟩
  file _ := ⟨0, none, false, false, 0⟩
  proc _ := ⟨false, false, none, fun _ => none⟩
  busy := none
  lh := []
  cur := 0

theorem boot_mounted (t : Mkfs) : Mounted t t.boot 0 := by
  have hself : t.boot.icache 0 = ⟨rootino, 1, true, true, t.disk.dinode rootino⟩ := by
    simp only [boot, Function.update_self]
  have hother : ∀ p, p ≠ 0 → t.boot.icache p = ⟨0, 0, false, false, t.disk.dinode 0⟩ := by
    intro p hp
    simp only [boot, Function.update_of_ne hp]
  refine ⟨rfl, by rw [hself], by rw [hself]; exact Int.one_pos, by rw [hself], fun p href _ => ?_,
    fun p hp href => ?_, ⟨1, by rw [hother 1 (by decide)]⟩⟩
  · by_cases hp : p = 0
    · rw [hp, hself]
      rfl
    · rw [hother p hp] at href
      cases href
  · rw [hother p hp] at href
    cases href

theorem dirlookup_finds_readme : ∃ t, mkfs [readme] = .ok t ∧ Mounted t t.boot 0 ∧
    Finds t.boot 0 readme := by
  obtain ⟨t, ht, hall⟩ := dirlookup_finds_iff [readme] (by decide) (by decide) (by decide)
    (by decide) (by decide)
  exact ⟨t, ht, boot_mounted t, (hall _ _ (boot_mounted t) readme List.mem_cons_self).mpr (by decide)⟩

def dotFile : Source := ⟨[95, 46], [[120]], by decide, by decide⟩

theorem dotFile_hidden : ¬ ∀ files : List Source, (∀ f ∈ files, 47 ∉ f.name) →
    (files.map fun f => f.target.take dirsiz).Nodup →
    (∀ f ∈ files, f.bytes.length ≤ maxfile * bsize) → files.length < ninodes →
    needed files < dataStart + nblocks →
    ∃ t, mkfs files = .ok t ∧ ∀ fs s, Mounted t fs s → ∀ f ∈ files, Finds fs s f := by
  intro hall
  obtain ⟨t, ht, hfinds⟩ := hall [dotFile] (by decide) (by decide) (by decide) (by decide)
    (by decide)
  obtain ⟨u, himg, rfl⟩ := mkfs_image ht (by decide)
  exact not_finds_dots himg (boot_mounted _) (Or.inl rfl)
    (hfinds _ _ (boot_mounted _) dotFile List.mem_cons_self)

end Mkfs
end Xv6
