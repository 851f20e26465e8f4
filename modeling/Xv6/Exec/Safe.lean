import Xv6.Exec.Stack
import Xv6.Proc.Growth

namespace Xv6

open Vm

variable {L : Layout} {vm : Vm} {role : Nat → Role} {proc : Image}

structure Runs (L : Layout) (vm : Vm) (role : Nat → Role) (pgdir : Nat) : Prop where
  exact : Exact L vm role
  dir : role pgdir = .dir
  stacked : Stacked vm pgdir

def ExecResult.Atomic (r : ExecResult) (vm : Vm) (proc : Image) : Prop :=
  (r.ret = 0 ∨ r.ret = -1 ∧ r.proc = proc) ∧ ∀ st ∈ r.stores, StoreOk vm st

inductive Execs (L : Layout) (vm : Vm) (role : Nat → Role) (proc : Image)
    (file : Option (List UInt8)) (argv : List (List UInt8)) : Except ExecFault ExecResult → Prop
  | fault {e : ExecFault} (hfit : ¬ ExecFits Loading.Any vm.freelist.length file argv) :
      Execs L vm role proc file argv (.error e)
  | failed {vm' : Vm} {stores : List Store}
      (hfit : ExecFits Loading.Any vm.freelist.length file argv)
      (hst : ∀ st ∈ stores, StoreOk vm st)
      (hkept : ExecFits Loading.Keeps vm.freelist.length file argv →
        SetupFits vm.freelist.length file → Exact L vm' role ∧ SameDirs vm vm' role) :
      Execs L vm role proc file argv (.ok ⟨vm', proc, -1, stores⟩)
  | done {vm₁ vm₂ : Vm} {base role₁ role₂ : Nat → Role} {d sz eip esp : Nat} {name : List UInt8}
      {stores : List Store} (hfit : ExecFits Loading.Any vm.freelist.length file argv)
      (hst : ∀ st ∈ stores, StoreOk vm st)
      (hkept : ExecFits Loading.Keeps vm.freelist.length file argv → base = role)
      (hstack : StackSpace L d (pages sz) sz vm vm₁ base role₁)
      (hfree : Frees L proc.pgdir vm₁ vm₂ role₁ role₂) :
      Execs L vm role proc file argv (.ok ⟨vm₂, ⟨d, sz, eip, esp, name⟩, 0, stores⟩)

theorem ExecFits.of_no_file {grows : Loading → Nat → Prop} {free : Nat}
    {file : Option (List UInt8)} {argv : List (List UInt8)}
    (h : file.bind (fun file => (readElfhdr file).map fun elf => (file, elf)) = none) :
    ExecFits grows free file argv := by
  rintro f elf rfl helf
  simp [helf] at h

theorem ExecFits.iff_file {grows : Loading → Nat → Prop} {free : Nat} {f : List UInt8}
    {elf : Elfhdr} {argv : List (List UInt8)} (helf : readElfhdr f = some elf) (hfree : 65 ≤ free) :
    ExecFits grows free (some f) argv ↔
      SegmentsFit f grows (StackFits grows argv) elf.phnum elf.phoff ⟨0, 0, free - 65⟩ := by
  refine ⟨fun h => h f elf rfl helf hfree, fun h => ?_⟩
  rintro f' elf' ⟨⟩ helf' _
  rw [helf] at helf'
  cases helf'
  exact h

theorem Vm.Discardable.freed {vm₁ vm₂ : Vm} {base role₁ role₂ : Nat → Role} {d : Nat}
    (h : Exact L vm base) (hd : Discardable L d vm vm₁ base role₁)
    (hf : Frees L d vm₁ vm₂ role₁ role₂) : Exact L vm₂ base ∧ SameDirs vm vm₂ base := by
  have hrole := hf.restores h hd.free hd.acts.moves
  refine ⟨hrole ▸ hf.exact, fun q hq => ?_⟩
  have hqd : q ≠ d := by
    rintro rfl
    simp [hd.free] at hq
  have hq' : Function.update base d .dir q = .dir := by rwa [Function.update_of_ne hqd]
  obtain ⟨hp, hg⟩ := hd.acts.dirs q hqd hq'
  obtain ⟨hp', hg'⟩ := hf.dirs q hqd (hd.acts.dir hq')
  exact ⟨hp'.trans hp, fun v => (hg' v).trans (hg v)⟩

theorem Runs.release {vm₂ : Vm} {base role₂ : Nat → Role} {d mapped top : Nat}
    (h : Runs L vm role proc.pgdir) (hloses : Loses role base)
    (hstack : StackSpace L d mapped top vm vm₂ base role₂) :
    d ≠ proc.pgdir ∧ role₂ proc.pgdir = .dir ∧
      ∃ vm₃ role₃, vm₂.freevm L proc.pgdir = .ok vm₃ ∧ Frees L proc.pgdir vm₂ vm₃ role₂ role₃ := by
  have hdir := hloses.dir h.dir
  have hne : proc.pgdir ≠ d := by
    rintro heq
    have := hstack.free
    rw [← heq, hdir] at this
    cases this
  have hold : Function.update base d .dir proc.pgdir = .dir := by
    rw [Function.update_of_ne hne, hdir]
  have hst₂ : Stacked vm₂ proc.pgdir := h.stacked.congr (hstack.acts.dirs proc.pgdir hne hold).1
  exact ⟨hne.symm, hstack.acts.dir hold, freevm_acts hstack.acts.exact (hstack.acts.dir hold) hst₂⟩

theorem exec_spec {file : Option (List UInt8)} {path : List UInt8} {argv : List (List UInt8)}
    (h : Runs L vm role proc.pgdir) (hfile : ∀ f ∈ file, f.length < 2 ^ 32)
    (hargs : ∀ arg ∈ argv, arg.length < kernbase) :
    Execs L vm role proc file argv (exec L vm proc file path argv) := by
  have hsame : Exact L vm role ∧ SameDirs vm vm role := ⟨h.exact, fun _ _ => ⟨rfl, fun _ => rfl⟩⟩
  unfold exec
  split
  · rename_i hnone
    exact .failed (.of_no_file hnone) (by simp) fun _ _ => hsame
  · rename_i f elf hbind
    obtain ⟨f', rfl, hmap⟩ := Option.bind_eq_some_iff.mp hbind
    obtain ⟨elf', helf, heq⟩ := Option.map_eq_some_iff.mp hmap
    cases heq
    rcases setupkvm_cases h.exact with ⟨vm₁, role₁, d, hsetup, hnew⟩ | ⟨hlt, vm₁, hsetup⟩
    · rw [lift_ok hsetup]
      dsimp only
      have hlen := hnew.length
      have hbuild : Builds L d f elf argv ⟨0, 0, vm.freelist.length - 65⟩ vm role
          (vm₁.buildImage L d f elf argv) :=
        buildImage_spec (hfile f rfl) hargs (h.exact.freshDir hnew.free) hnew.space rfl
      generalize vm₁.buildImage L d f elf argv = r at hbuild ⊢
      cases hbuild with
      | fault hno =>
        exact .fault fun hc => hno ((ExecFits.iff_file helf (by omega)).mp hc)
      | bad hst hloses hkept hfit hdis =>
        rename_i vm₂ base role₂ stores
        obtain ⟨vm₃, role₃, hfree, hfrees⟩ := freevm_acts hdis.acts.exact
          (hdis.acts.dir (Function.update_self ..)) hdis.stacked
        rw [bind_ok rfl]
        dsimp only
        rw [lift_ok hfree]
        refine .failed ((ExecFits.iff_file helf (by omega)).mpr hfit) hst fun hk _ => ?_
        have hbase := hkept ((ExecFits.iff_file helf (by omega)).mp hk)
        subst hbase
        exact hdis.freed h.exact hfrees
      | done hst hloses hkept hfit hstack =>
        rename_i vm₂ base role₂ stores sz sp
        obtain ⟨_, _, vm₃, role₃, hfree, hfrees⟩ := h.release hloses hstack
        rw [bind_ok rfl]
        dsimp only
        rw [lift_ok hfree]
        exact .done ((ExecFits.iff_file helf (by omega)).mpr hfit) hst
          (fun hk => hkept ((ExecFits.iff_file helf (by omega)).mp hk)) hstack hfrees
    · rw [lift_ok hsetup]
      refine .failed (fun _ _ _ _ hc => absurd hc (by omega)) (by simp) fun _ hfits => ?_
      have hzero := (hfits f rfl (by simp [helf])).resolve_right (by omega)
      rw [setupkvm_empty (List.length_eq_zero_iff.mp hzero)] at hsetup
      cases hsetup
      exact hsame

theorem exec_safe_iff {file : Option (List UInt8)} {path : List UInt8} {argv : List (List UInt8)}
    (h : Runs L vm role proc.pgdir) (hfile : ∀ f ∈ file, f.length < 2 ^ 32)
    (hargs : ∀ arg ∈ argv, arg.length < kernbase) :
    (∃ r, exec L vm proc file path argv = .ok r ∧ r.Atomic vm proc) ↔
      ExecFits Loading.Any vm.freelist.length file argv := by
  have hspec : Execs L vm role proc file argv (exec L vm proc file path argv) :=
    exec_spec h hfile hargs
  generalize exec L vm proc file path argv = r at hspec ⊢
  cases hspec with
  | fault hno =>
    refine iff_of_false ?_ hno
    rintro ⟨r, hr, _⟩
    cases hr
  | failed hfit hst _ => exact iff_of_true ⟨_, rfl, .inr ⟨rfl, rfl⟩, hst⟩ hfit
  | done hfit hst _ _ _ => exact iff_of_true ⟨_, rfl, .inl rfl, hst⟩ hfit

theorem runs_boot : ∃ vm role d, Runs Kernel.smallLayout vm role d ∧ vm.freelist.length = 7935 := by
  obtain ⟨vm, role, d, _, hnew⟩ := setupkvm_acts Kernel.smallVm_boot.freeList.exact
    (by simp [Kernel.smallVm])
  refine ⟨vm, role, d, ⟨hnew.acts.exact, hnew.acts.dir (Function.update_self ..),
    hnew.spans.stacked⟩, ?_⟩
  have hlen := hnew.length
  rw [Kernel.smallVm, List.length_range'] at hlen
  omega

def oneSegment (vaddr : UInt8) : List UInt8 :=
  [0x7f, 0x45, 0x4c, 0x46] ++ List.replicate 24 0 ++ [52, 0, 0, 0] ++ List.replicate 12 0 ++
    [1, 0] ++ List.replicate 6 0 ++
    [1, 0, 0, 0, 0, 0, 0, 0, vaddr, 0, 0, 0, 0, 0, 0, 0, 4, 0, 0, 0, 16, 0, 0, 0, 0, 0, 0, 0, 0, 0,
      0, 0]

theorem unaligned_segment_panics : ∃ vm role proc,
    Runs Kernel.smallLayout vm role proc.pgdir ∧ (oneSegment 1).length < 2 ^ 32 ∧
      exec Kernel.smallLayout vm proc (some (oneSegment 1)) [] [] = .error .loaduvmAlign := by
  obtain ⟨vm, role, d, hruns, hlen⟩ := runs_boot
  refine ⟨vm, role, ⟨d, 4096, 0, 0, []⟩, hruns, by decide, ?_⟩
  have helf : readElfhdr (oneSegment 1) = some ⟨elfMagic, 0, 52, 1⟩ := by decide +kernel
  have hph : readProghdr (oneSegment 1) 52 = some ⟨1, 0, 1, 4, 16⟩ := by decide +kernel
  obtain ⟨vm₁, role₁, d₁, hsetup, hnew⟩ := setupkvm_acts hruns.exact (by omega)
  have hspace := hnew.space
  obtain ⟨vm₂, base, role₂, halloc, _⟩ := hspace.alloc (hruns.exact.freshDir hnew.free)
    (show 17 < kernbase by decide)
  have hgrow : Loading.grow ⟨0, 0, vm.freelist.length - 65⟩ 17 = some ⟨17, 1, 7868⟩ := by
    rw [hlen]
    decide +kernel
  rw [hgrow] at halloc
  change vm₁.allocuvm Kernel.smallLayout d₁ 0 (uint (1 + 16)) = .ok (vm₂, 17) at halloc
  have hload : loadSegments Kernel.smallLayout d₁ (oneSegment 1) 1 vm₁ [] 52 0 =
      .error .loaduvmAlign := by
    rw [loadSegments]
    simp only [hph]
    rw [if_neg (by decide), if_neg (by decide), lift_ok halloc]
    change (if 17 = 0 then _ else (vm₂.loaduvm d₁ (oneSegment 1) ⟨1, 0, 1, 4, 16⟩ [] >>= _)) = _
    rw [if_neg (by decide), loaduvm, if_pos (by decide)]
    rfl
  simp only [exec, Option.bind_some, helf, Option.map_some]
  rw [lift_ok hsetup]
  dsimp only [buildImage]
  rw [hload]
  rfl

theorem exec_safe_iff_segment : ∃ vm role proc,
    Runs Kernel.smallLayout vm role proc.pgdir ∧ (oneSegment 0).length < 2 ^ 32 ∧
      ∃ r, exec Kernel.smallLayout vm proc (some (oneSegment 0)) [] [[120]] = .ok r ∧
        r.Atomic vm proc := by
  obtain ⟨vm, role, d, hruns, hlen⟩ := runs_boot
  have helf : readElfhdr (oneSegment 0) = some ⟨elfMagic, 0, 52, 1⟩ := by decide +kernel
  have hph : readProghdr (oneSegment 0) 52 = some ⟨1, 0, 0, 4, 16⟩ := by decide +kernel
  have hgrow : Loading.grow ⟨0, 0, 7870⟩ 16 = some ⟨16, 1, 7868⟩ := by decide +kernel
  have hstack : Loading.grow ⟨4096, 1, 7868⟩ 12288 = some ⟨12288, 3, 7866⟩ := by decide +kernel
  have hfits : ExecFits Loading.Any vm.freelist.length (some (oneSegment 0)) [[120]] := by
    rw [ExecFits.iff_file helf (by omega), hlen, SegmentsFit]
    simp only [hph]
    rw [if_neg (by decide), if_neg (by decide)]
    refine ⟨trivial, fun s hs _ => ?_⟩
    change Loading.grow ⟨0, 0, 7870⟩ 16 = some s at hs
    rw [hgrow] at hs
    cases hs
    refine ⟨⟨by decide, .inl (by decide)⟩, fun _ => .inr ⟨trivial, fun s hs => ?_⟩⟩
    change Loading.grow ⟨4096, 1, 7868⟩ 12288 = some s at hs
    rw [hstack] at hs
    cases hs
    exact .inr ⟨.inr (by decide), fun _ _ => show 3 = pages 12288 by decide⟩
  refine ⟨vm, role, ⟨d, 4096, 0, 0, []⟩, hruns, by decide, ?_⟩
  exact (exec_safe_iff hruns (by
    rintro f ⟨⟩
    decide) (by
    intro arg harg
    rw [List.mem_singleton.mp harg]
    decide)).mpr hfits

end Xv6
