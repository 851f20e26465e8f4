import Xv6.Fs.Calls
import Xv6.Lib.GuardedRun
import Xv6.Lib.StateExcept

namespace Xv6
namespace Fs

open StateExcept Threads

-- The transaction that is open stays so, and no write is outside of one.
def Keeps {A : Type} (m : M A) : Prop :=
  ∀ fs, wp m (fun _ fs' => fs'.busy = fs.busy)
    (fun e => fs.busy ≠ none → e ≠ .panic .writeOutsideTrans) fs

section
variable {A B : Type}

@[grind ←] theorem keeps_bind {m : M A} {f : A → M B} (hm : Keeps m) (hf : ∀ a, Keeps (f a)) :
    Keeps (m >>= f) := by
  intro fs
  rw [wp_bind]
  refine wp_post (hm fs) fun a fs' h => ?_
  have hrest := hf a fs'
  rwa [h] at hrest

@[grind ←] theorem keeps_get : Keeps (get : M Fs) := fun _ => rfl

@[grind ←] theorem keeps_pure (a : A) : Keeps (pure a : M A) := fun _ => rfl

@[grind ←] theorem keeps_blocked : Keeps (throw .blocked : M A) := fun _ => by simp [wp]

@[grind ←] theorem keeps_panic {m : Panic} (hm : m ≠ .writeOutsideTrans) :
    Keeps (panic m : M A) := fun _ => by simp [wp, panic, hm]

@[grind ←] theorem keeps_forM {l : List A} {f : A → M PUnit} (hf : ∀ x, Keeps (f x)) :
    Keeps (forM l f) := fun fs =>
  wp_forM (I := fun _ (u : Fs) => u.busy = fs.busy) (fun x _ u hu => by rw [← hu]; exact hf x u) rfl

@[grind ←] theorem keeps_setDisk (v : Volume) : Keeps (setDisk v) := fun _ => rfl

@[grind ←] theorem keeps_setInode (s : Islot) (ip : Inode) : Keeps (setInode s ip) := fun _ => rfl

@[grind ←] theorem keeps_setFile (f : Fin nfile) (x : File) : Keeps (setFile f x) := fun _ => rfl

@[grind ←] theorem keeps_setProc (p : Nat) (x : Proc) : Keeps (setProc p x) := fun _ => rfl

@[grind ←] theorem keeps_logWrite (s : Nat) : Keeps (logWrite s) := by
  intro fs
  simp only [logWrite, wp_bind, wp_get]
  split_ifs with hfull hnone
  · simp [wp, panic]
  · exact fun hbusy => absurd hnone hbusy
  · rfl

@[grind ←] theorem keeps_setBlock (b : Nat) (bytes : Nat → Nat) : Keeps (setBlock b bytes) := by
  grind [setBlock]

@[grind ←] theorem keeps_balloc : Keeps balloc := by grind [balloc, bzero]

@[grind ←] theorem keeps_bfree (b : Nat) : Keeps (bfree b) := by grind [bfree]

@[grind ←] theorem keeps_setDin (s : Islot) (f : Dinode → Dinode) : Keeps (setDin s f) := by
  grind [setDin]

@[grind ←] theorem keeps_iupdate (s : Islot) : Keeps (iupdate s) := by grind [iupdate]

@[grind ←] theorem keeps_iget (k : Nat) : Keeps (iget k) := by grind [iget]

@[grind ←] theorem keeps_itrunc (s : Islot) : Keeps (itrunc s) := by grind [itrunc, setAddr]

@[grind ←] theorem keeps_iput (s : Islot) : Keeps (iput s) := by
  refine keeps_bind keeps_get fun fs => ?_
  split
  · split
    · grind
    · refine keeps_bind (keeps_setInode _ _) fun _ => keeps_bind (keeps_itrunc s) fun _ => ?_
      grind
  · grind

@[grind ←] theorem keeps_bmap (s : Islot) (bn : Nat) : Keeps (bmap s bn) := by
  grind [bmap, mapAddr, setAddr]

@[grind ←] theorem keeps_readLoop (s : Islot) (fuel off n : Nat) :
    Keeps (readLoop s fuel off n) := by
  induction fuel generalizing off n with grind [readLoop]

@[grind ←] theorem keeps_readi (s : Islot) (off n : Nat) : Keeps (readi s off n) := by grind [readi]

@[grind ←] theorem keeps_writeLoop (s : Islot) (fuel off : Nat) (src : List Nat) :
    Keeps (writeLoop s fuel off src) := by
  induction fuel generalizing off src with grind [writeLoop]

@[grind ←] theorem keeps_scan (s : Islot) {e : Panic} (he : e ≠ .writeOutsideTrans)
    (test : Dirent → Bool) (fuel off : Nat) : Keeps (scanDirents s e test fuel off) := by
  induction fuel generalizing off with grind [scanDirents]

@[grind ←] theorem keeps_cwd : Keeps cwd := by grind [cwd]

@[grind ←] theorem keeps_idup (s : Islot) : Keeps (idup s) := by grind [idup]

@[grind ←] theorem keeps_fdopen (s : Islot) (readable writable : Bool) :
    Keeps (fdopen s readable writable) := by
  refine keeps_bind keeps_get fun fs => ?_
  repeat' split
  all_goals grind

theorem run_keeps (o : Op) (hb : o ≠ .beginTrans) (hc : o ≠ .commitTrans)
    (hm : ∀ m, o ≠ .panic m) : Keeps o.run := by
  cases o <;> grind [Op.run, ilock, iunlock, dirlookup, emptyDirent, isdirempty, writei, ialloc,
    fdclose, filedup, allocproc]

end

abbrev World := Pool Nat Fs Op Op.Res

def exec (p : Nat) (o : Op) (fs : Fs) : Except Stop (o.Res × Fs) := o.run { fs with cur := p }

abbrev World.run (w : World) (es : List (Move Nat Syscall)) : Option World :=
  GuardedRun.run (step exec Syscall.program) w es

structure Quiet (w : World) : Prop where
  busy : w.state.busy = none
  prog : ∀ p, w.prog p = .pure ()

def Op.writes : Op → Bool
  | .writei _ _ _ | .ialloc _ | .initInode _ _ _ | .addLink _ _ => true
  | _ => false

structure Serial (w : World) : Prop where
  writer : ∀ p o k, w.prog p = .op o k → o.writes = true → w.state.busy = some p
  inside : ∀ p o k, w.prog p = .op o k → o.writes = true →
    exec p o w.state ≠ .error (.panic .writeOutsideTrans)
  commits : ∀ p k, w.prog p = .op .commitTrans k → w.state.busy = some p
  begins : ∀ p k, w.prog p = .op .beginTrans k → w.state.busy ≠ some p
  closed : ∀ p u, w.prog p = .pure u → w.state.busy ≠ some p

def Agrees (fs : Fs) (ls : Nat → Held) : Prop := ∀ p, (ls p).trans = true ↔ fs.busy = some p

abbrev Orderly (w : World) : Prop := Disciplined locking (fun l => ∃ cwd, l.Idle cwd) Agrees w

theorem Agrees.update {fs fs' : Fs} {ls : Nat → Held} {p : Nat} {l : Held} (h : Agrees fs ls)
    (hp : l.trans = true ↔ fs'.busy = some p)
    (hother : ∀ q, q ≠ p → (fs'.busy = some q ↔ fs.busy = some q)) :
    Agrees fs' (Function.update ls p l) := by
  intro q
  by_cases hq : q = p
  · subst hq
    simpa using hp
  · simpa [hq, hother q hq] using h q

theorem agrees_exec {fs fs' : Fs} {ls : Nat → Held} {p : Nat} {o : Op} {r : o.Res}
    (h : Agrees fs ls) (hpre : (ls p).pre o) (hr : exec p o fs = .ok (r, fs')) :
    ∃ l' ∈ (ls p).next o r, Agrees fs' (Function.update ls p l') := by
  have hplain : ∀ l' ∈ (ls p).next o r, l'.trans = (ls p).trans → o ≠ .beginTrans →
      o ≠ .commitTrans → (∀ m, o ≠ .panic m) →
      ∃ l' ∈ (ls p).next o r, Agrees fs' (Function.update ls p l') := by
    intro l' hl' htrans hb hc hm
    have hkeeps : fs'.busy = fs.busy :=
      wp_ok (Q := fun _ (t : Fs) => t.busy = fs.busy) (run_keeps o hb hc hm { fs with cur := p }) hr
    exact ⟨l', hl', h.update (by rw [htrans, hkeeps, h p]) fun q _ => by rw [hkeeps]⟩
  cases o
  case beginTrans =>
    simp only [exec, Op.run, beginTrans, bind_get] at hr
    split at hr
    · next hnone =>
      cases hr
      refine ⟨_, rfl, h.update (by simp) fun q hq => ?_⟩
      simp [show fs.busy = none from hnone, hq.symm]
    · cases hr
  case commitTrans =>
    have hbusy := (h p).mp hpre
    cases hr
    exact ⟨_, rfl, h.update (by simp) fun q hq => by simp [hbusy, hq.symm]⟩
  case panic => cases hr
  case dirlookup | fdclose | fdopen =>
    cases r <;> exact hplain _ rfl rfl (by simp) (by simp) (by simp)
  all_goals exact hplain _ rfl rfl (by simp) (by simp) (by simp)

theorem Quiet.orderly {w : World} (h : Quiet w) : Orderly w := by
  refine ⟨fun _ => idle 0 false, fun p => by simp [idle, h.busy], fun p => ?_⟩
  rw [h.prog p]
  exact ⟨true, idle_ends⟩

theorem orderly_step (w : World) (e : Move Nat Syscall) (t : World) (h : Orderly w) (_ : True)
    (hs : step exec Syscall.program w e = some t) : Orderly t := by
  refine disciplined_step (l := idle 0 false) (fun c => ?_) (fun fs ls p h hdone => ?_)
    (fun _ _ _ _ _ _ => agrees_exec) w e t h hs
  · exact follows_mono (program_follows c) fun _ _ hl => ⟨_, hl⟩
  · obtain ⟨cwd, hidle⟩ := hdone
    exact h.update ((h p).symm.trans (by simp [idle, hidle.trans])).symm fun _ _ => Iff.rfl

theorem Orderly.serial {w : World} (h : Orderly w) : Serial w := by
  obtain ⟨ls, hagrees, hf⟩ := h
  have hpre : ∀ p o k, w.prog p = .op o k → (ls p).pre o := by
    intro p o k hp
    have hfp := hf p
    rw [hp] at hfp
    exact hfp.1
  have hwriter : ∀ p o k, w.prog p = .op o k → o.writes = true → w.state.busy = some p := by
    intro p o k hp ho
    have hop := hpre p o k hp
    refine (hagrees p).mp ?_
    cases o with
    | ialloc => exact hop
    | writei | initInode | addLink => exact hop.2
    | _ => cases ho
  refine ⟨hwriter, fun p o k hp ho herr => ?_, fun p k hp => (hagrees p).mp (hpre p _ k hp),
    fun p k hp hb => ?_, fun p u hp hb => ?_⟩
  · have hkeeps := run_keeps o (by rintro rfl; cases ho) (by rintro rfl; cases ho)
      (by rintro m rfl; cases ho) { w.state with cur := p }
    exact wp_error hkeeps herr (by simp [hwriter p o k hp ho]) rfl
  · have hfalse : (ls p).trans = false := hpre p _ k hp
    rw [(hagrees p).mpr hb] at hfalse
    cases hfalse
  · have hfp := hf p
    rw [hp] at hfp
    obtain ⟨cwd, hidle⟩ := hfp
    rw [← hagrees p, hidle.trans] at hb
    cases hb

theorem transactions_serial {w t : World} {es : List (Move Nat Syscall)} (hw : Quiet w)
    (hr : w.run es = some t) : Serial t :=
  (GuardedRun.run_invariant orderly_step hw.orderly
    (GuardedRun.along_of_forall (fun _ _ _ => trivial) w) hr).serial

def quiet : World where
  state := ⟨⟨0, 0, 0⟩, ⟨fun _ => ⟨.free, 0, 0, 0, 0, fun _ => 0⟩, fun _ => false, fun _ _ => 0⟩,
    fun _ => ⟨0, 0, false, false, ⟨.free, 0, 0, 0, 0, fun _ => 0⟩⟩,
    fun _ => ⟨0, none, false, false, 0⟩, fun _ => ⟨true, true, none, fun _ => none⟩, none, [], 0⟩
  prog _ := .pure ()

def contended : List (Move Nat Syscall) :=
  [.call 1 (.mkdir none), .tick 1, .call 2 (.mkdir none)]

theorem transactions_serial_contended :
    ∃ t, quiet.run contended = some t ∧ t.state.busy = some 1 ∧ Serial t := by
  obtain ⟨t, ht, hbusy⟩ : ∃ t, quiet.run contended = some t ∧ t.state.busy = some 1 :=
    ⟨_, rfl, rfl⟩
  exact ⟨t, ht, hbusy, transactions_serial ⟨rfl, fun _ => rfl⟩ ht⟩

end Fs
end Xv6
