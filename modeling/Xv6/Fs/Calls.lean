import Xv6.Fs.Sysfile

namespace Xv6
namespace Fs

open Threads

def each {A : Type} (f : A → FsProg Unit) : List A → FsProg Unit
  | [] => pure ()
  | x :: xs => do
    f x
    each f xs

-- The part of fork and New_exit that works on files and inodes.
def fork (c : Nat) : FsProg Unit := do
  let ok ← act (.allocproc c)
  if ok then
    each (fun fd => act (.filedup c fd)) (List.finRange nofile)
    act (.dupCwd c)
    act (.publish c)
  else pure ()

def newExit : FsProg Unit := do
  act .notInit
  each sysClose (List.finRange nofile)
  act .iputCwd
  act .zombie

inductive Syscall where
  | open (path : Option (List Nat)) (omode : Nat)
  | close (fd : Fin nofile)
  | read (fd : Fin nofile) (n : Nat)
  | write (fd : Fin nofile) (src : List Nat)
  | mkdir (path : Option (List Nat))
  | mknod (path : Option (List Nat)) (major minor : Int)
  | link (old new : Option (List Nat))
  | unlink (path : Option (List Nat))
  | chdir (path : Option (List Nat))
  | exec (path : List Nat) (parts : List (Nat × Nat))
  | fork (c : Nat)
  | exit

def discard {A : Type} (m : FsProg A) : FsProg Unit := do
  let _ ← m
  pure ()

def Syscall.program : Syscall → FsProg Unit
  | .open path omode => discard (sysOpen path omode)
  | .close fd => sysClose fd
  | .read fd n => discard (sysRead fd n)
  | .write fd src => discard (sysWrite fd src)
  | .mkdir path => discard (sysMkdir path)
  | .mknod path major minor => discard (sysMknod path major minor)
  | .link old new => discard (sysLink old new)
  | .unlink path => discard (sysUnlink path)
  | .chdir path => discard (sysChdir path)
  | .exec path parts => execRead path parts
  | .fork c => Fs.fork c
  | .exit => newExit

-- What a process holds in the middle of a call: references to inodes, inodes kept by files it has
-- open, locks, the transaction and the reference of its working directory.
structure Held where
  refs : Multiset Islot
  files : Multiset Islot
  locked : Multiset Islot
  trans : Bool
  cwd : Bool

namespace Held

@[simp] def Backs (l : Held) (s : Islot) : Prop := s ∈ l.refs ∨ s ∈ l.files

@[simp] def take (l : Held) (s : Islot) : Held := { l with refs := s ::ₘ l.refs }

@[simp] def drop (l : Held) (s : Islot) : Held := { l with refs := l.refs.erase s }

@[simp] def lock (l : Held) (s : Islot) : Held := { l with locked := s ::ₘ l.locked }

@[simp] def unlock (l : Held) (s : Islot) : Held := { l with locked := l.locked.erase s }

@[simp] def enter (l : Held) (s : Islot) : Held := (l.take s).lock s

-- Inodes are read and written under their lock, and written in a transaction; a reference is given
-- up only while whatever stays locked has another.
@[simp] def pre (l : Held) : Op → Prop
  | .beginTrans => l.trans = false
  | .commitTrans => l.trans = true
  | .idupCwd | .dupCwd _ => l.cwd = true
  | .ilock s | .inum s => l.Backs s
  | .iunlock s | .dinode s | .dirlookup s _ | .emptyDirent s | .isdirempty s | .readi s _ _ =>
    s ∈ l.locked
  | .writei s _ _ | .initInode s _ _ | .addLink s _ => s ∈ l.locked ∧ l.trans = true
  | .ialloc _ => l.trans = true
  | .iput s => s ∈ l.refs ∧ ∀ x ∈ l.locked, (l.drop s).Backs x
  | .fdopen s _ _ => s ∈ l.refs
  | .advance _ _ => l.locked ≠ 0
  | .fdclose _ => l.locked = 0
  | .iputCwd => l.locked = 0 ∧ l.cwd = true
  | .setCwd s => s ∈ l.refs ∧ l.cwd = false
  | .zombie => l.cwd = false
  | _ => True

-- A panic does not return.
@[simp] def next (l : Held) : (o : Op) → o.Res → Option Held
  | .beginTrans, _ => some { l with trans := true }
  | .commitTrans, _ => some { l with trans := false }
  | .iget _, s | .ialloc _, s | .idupCwd, s => some (l.take s)
  | .dirlookup _ _, some (s, _) | .fdclose _, some s => some (l.take s)
  | .ilock s, _ => some (l.lock s)
  | .iunlock s, _ => some (l.unlock s)
  | .iput s, _ => some (l.drop s)
  | .fdopen s _ _, some _ => some { l.drop s with files := s ::ₘ l.files }
  | .file _, x => some { l with files := x.ip.toList + l.files }
  | .iputCwd, _ => some { l with cwd := false }
  | .setCwd s, _ => some { l.drop s with cwd := true }
  | .panic _, _ => none
  | _, _ => some l

end Held

def locking : Discipline Op Op.Res Held := ⟨Held.pre, Held.next⟩

section

variable {l : Held} {A : Type} {Q : Held → A → Prop} {s dp ip : Islot}

theorem follows_act {o : Op} {f : o.Res → FsProg A} (hpre : l.pre o)
    (hf : ∀ r, (l.next o r).elim True fun l' => Follows locking l' (f r) Q) :
    Follows locking l (act o >>= f) Q := by
  refine ⟨hpre, fun r l' hl => ?_⟩
  have hr := hf r
  rwa [show l.next o r = some l' from hl] at hr

theorem follows_ilock {f : Unit → FsProg A} (hs : l.Backs s)
    (hf : Follows locking (l.lock s) (f ()) Q) : Follows locking l (act (.ilock s) >>= f) Q :=
  follows_act hs fun _ => hf

theorem follows_iunlock {f : Unit → FsProg A} (hf : Follows locking l (f ()) Q) :
    Follows locking (l.lock s) (act (.iunlock s) >>= f) Q :=
  follows_act (by simp) fun _ => by simpa using hf

theorem follows_iunlockput {f : Unit → FsProg A} (hs : s ∈ l.locked) (href : s ∈ l.refs)
    (hrest : ∀ x ∈ l.locked.erase s, (l.drop s).Backs x)
    (hf : Follows locking ((l.unlock s).drop s) (f ()) Q) :
    Follows locking l (iunlockput s >>= f) Q :=
  follows_act hs fun _ => follows_act ⟨href, hrest⟩ fun _ => hf

theorem follows_leave {f : Unit → FsProg A} (hl : l.locked = 0)
    (hf : Follows locking l (f ()) Q) :
    Follows locking (l.enter s) (iunlockput s >>= f) Q :=
  follows_iunlockput (by simp) (by simp) (by simp [hl]) (by simpa using hf)

theorem follows_leave_outer {f : Unit → FsProg A} (hl : l.locked = 0)
    (hf : Follows locking (l.enter ip) (f ()) Q) :
    Follows locking ((l.enter dp).enter ip) (iunlockput dp >>= f) Q := by
  have hrefs := Multiset.cons_swap ip dp l.refs
  have hlocked : ip ::ₘ {dp} = dp ::ₘ {ip} := Multiset.cons_swap ip dp 0
  refine follows_iunlockput (by simp) (by simp) (by simp [hrefs, hlocked, hl]) ?_
  simpa [hrefs, hlocked, hl] using hf

theorem take_leave {f : Unit → FsProg A} (hl : l.locked = 0)
    (hf : Follows locking (l.take ip) (f ()) Q) :
    Follows locking ((l.enter dp).take ip) (iunlockput dp >>= f) Q := by
  have hrefs := Multiset.cons_swap ip dp l.refs
  exact follows_iunlockput (by simp) (by simp) (by simp [hl]) (by simpa [hrefs] using hf)

theorem namexLoop_follows (hl : l.locked = 0) (parent : Bool) (fuel : Nat) : ∀ path ip,
    Follows locking (l.take ip) (namexLoop parent fuel path ip) fun l' r =>
      l' = r.elim l fun x => l.take x.1 := by
  induction fuel with
  | zero => exact fun path ip => rfl
  | succ fuel ih =>
    intro path ip
    rw [namexLoop]
    split
    · split
      · exact follows_act (by simp [Held.pre, hl]) fun _ => by simp
      · rfl
    · rename_i name rest _
      refine follows_ilock (by simp) (follows_act (by simp) fun d => ?_)
      split
      · exact follows_leave hl rfl
      · split
        · exact follows_act (by simp) fun _ => by simp
        · refine follows_act (by simp) fun r => ?_
          cases r with
          | none =>
            exact follows_leave hl rfl
          | some x =>
            exact take_leave hl (ih rest x.1)

theorem namex_follows (hl : l.locked = 0) (hc : l.cwd = true) (path : List Nat) (parent : Bool) :
    Follows locking l (namex path parent) fun l' r => l' = r.elim l fun x => l.take x.1 := by
  rw [namex]
  split
  · exact follows_act trivial fun ip => namexLoop_follows hl ..
  · exact follows_act hc fun ip => namexLoop_follows hl ..

theorem namei_follows (hl : l.locked = 0) (hc : l.cwd = true) (path : List Nat) :
    Follows locking l (namei path) fun l' r => l' = r.elim l l.take := by
  refine follows_seq (namex_follows hl hc path false) fun l' r hr => ?_
  cases r <;> exact hr

theorem panic_follows {m : Panic} {f : Unit → FsProg A} :
    Follows locking l (act (.panic m) >>= f) Q := ⟨trivial, nofun⟩

theorem dirlink_follows (hdp : dp ∈ l.locked) (ht : l.trans = true)
    (hb : ∀ x ∈ l.locked, l.Backs x) (name : List Nat) (inum : Nat) :
    Follows locking l (dirlink dp name inum) fun l' _ => l' = l := by
  refine follows_act hdp fun r => ?_
  cases r with
  | some x =>
    exact follows_act ⟨by simp, by simpa using hb⟩ fun _ => by simp
  | none =>
    refine follows_act hdp fun off => follows_act ⟨hdp, ht⟩ fun n => ?_
    split
    · rfl
    · exact panic_follows

theorem createDots_follows (hdp : dp ∈ l.locked) (hip : ip ∈ l.locked)
    (ht : l.trans = true) (hb : ∀ x ∈ l.locked, l.Backs x) :
    Follows locking l (createDots dp ip) fun l' _ => l' = l := by
  refine follows_act ⟨hdp, ht⟩ fun _ => follows_act (hb ip hip) fun k => ?_
  refine follows_seq (dirlink_follows hip ht hb dot k) ?_
  rintro _ a rfl
  split
  · exact ⟨trivial, nofun⟩
  · refine follows_act (hb dp hdp) fun k => ?_
    refine follows_seq (dirlink_follows hip ht hb dotdot k) ?_
    rintro _ b rfl
    split
    · exact ⟨trivial, nofun⟩
    · rfl

-- Both ways through createNode end by entering the new inode in its directory.
theorem createLink_follows {name : List Nat} (hl : l.locked = 0) (ht : l.trans = true) :
    Follows locking ((l.enter dp).enter ip) (do
      let inum ← act (.inum ip)
      let c ← dirlink dp name inum
      if c < 0 then act (.panic .createDirlink) else pure ()
      iunlockput dp
      pure ip) fun l' ip => l' = l.enter ip := by
  refine follows_act (by simp) fun k => ?_
  refine follows_seq (dirlink_follows (by simp) (by exact ht) (by simp [hl]) name k) ?_
  rintro _ c rfl
  split
  · exact panic_follows
  · exact follows_leave_outer hl rfl

theorem createNode_follows (hl : l.locked = 0) (ht : l.trans = true) (name : List Nat)
    (type : FileType) (major minor : Int) :
    Follows locking (l.enter dp) (createNode dp name type major minor) fun l' ip =>
      l' = l.enter ip := by
  refine follows_act ht fun ip => follows_ilock (by simp) ?_
  refine follows_act ⟨by simp, ht⟩ fun _ => ?_
  dsimp only
  split
  · refine follows_seq (createDots_follows (by simp) (by simp) (by exact ht) (by simp [hl])) ?_
    rintro _ _ rfl
    exact createLink_follows hl ht
  · exact createLink_follows hl ht

theorem create_follows (hl : l.locked = 0) (hc : l.cwd = true) (ht : l.trans = true)
    (path : List Nat) (type : FileType) (major minor : Int) :
    Follows locking l (create path type major minor) fun l' r =>
      l' = r.elim l fun ip => l.enter ip := by
  refine follows_seq (namex_follows hl hc path true) ?_
  rintro _ (_ | ⟨dp, name⟩) rfl
  · rfl
  · refine follows_ilock (by simp) (follows_act (by simp) fun r => ?_)
    cases r with
    | none =>
      refine follows_seq (createNode_follows hl ht name type major minor) ?_
      rintro _ ip rfl
      rfl
    | some x =>
      refine take_leave hl (follows_ilock (by simp) ?_)
      refine follows_act (by simp) fun d => ?_
      split
      · rfl
      · exact follows_leave hl rfl

end

-- Between calls a process has no lock, no transaction and only the reference of its directory.
structure Held.Idle (l : Held) (cwd : Bool) : Prop where
  refs : l.refs = 0
  locked : l.locked = 0
  trans : l.trans = false
  dir : l.cwd = cwd

def idle (files : Multiset Islot) (trans : Bool) : Held := ⟨0, files, 0, trans, true⟩

variable {F : Multiset Islot}

abbrev Ends {A : Type} (l : Held) (m : FsProg A) : Prop :=
  Follows locking l m fun l' _ => l'.Idle true

theorem idle_ends : (idle F false).Idle true := ⟨rfl, rfl, rfl, rfl⟩

theorem commit_ends {n : Int} : Ends (idle F true) (do
    act .commitTrans
    pure n) := follows_act rfl fun _ => idle_ends

theorem openFile_ends (ip : Islot) (omode : Nat) :
    Ends ((idle F false).enter ip) (openFile ip omode) := by
  refine follows_act (by simp) fun r => ?_
  cases r with
  | none => exact follows_leave rfl idle_ends
  | some fd => exact follows_act (by simp) fun _ => by constructor <;> simp [idle]

theorem sysOpen_ends (path : Option (List Nat)) (omode : Nat) :
    Ends (idle F false) (sysOpen path omode) := by
  cases path with
  | none => exact idle_ends
  | some path =>
    rw [sysOpen]
    split
    · refine follows_act rfl fun _ => ?_
      refine follows_seq (create_follows (l := idle F true) rfl rfl rfl path .file 0 0) ?_
      rintro _ (_ | ip) rfl
      · exact follows_act rfl fun _ => idle_ends
      · exact follows_act rfl fun _ => openFile_ends ip omode
    · refine follows_seq (namei_follows rfl rfl path) ?_
      rintro _ (_ | ip) rfl
      · exact idle_ends
      · refine follows_ilock (by simp) (follows_act (by simp) fun d => ?_)
        split
        · exact follows_leave rfl idle_ends
        · exact openFile_ends ip omode

theorem sysCreate_ends (path : Option (List Nat)) (type : FileType) (major minor : Int) :
    Ends (idle F false) (sysCreate path type major minor) := by
  refine follows_act rfl fun _ => ?_
  cases path with
  | none => exact commit_ends
  | some path =>
    refine follows_seq (create_follows (l := idle F true) rfl rfl rfl path type major minor) ?_
    rintro _ (_ | ip) rfl
    · exact commit_ends
    · exact follows_leave rfl commit_ends

theorem linkBad_ends (ip : Islot) : Ends ((idle F true).take ip) (linkBad ip) :=
  follows_ilock (by simp) (follows_act ⟨by simp, rfl⟩ fun _ => follows_leave rfl commit_ends)

theorem sysLink_ends (old new : Option (List Nat)) : Ends (idle F false) (sysLink old new) := by
  rcases old with _ | old
  · exact idle_ends
  rcases new with _ | new
  · exact idle_ends
  refine follows_seq (namei_follows rfl rfl old) ?_
  rintro _ (_ | ip) rfl
  · exact idle_ends
  refine follows_act rfl fun _ => follows_ilock (by simp) (follows_act (by simp) fun d => ?_)
  split
  · exact follows_leave (l := idle F true) rfl commit_ends
  refine follows_act ⟨by simp, rfl⟩ fun _ => follows_iunlock ?_
  refine follows_seq (namex_follows (l := (idle F true).take ip) rfl rfl new true) ?_
  rintro _ (_ | ⟨dp, name⟩) rfl
  · exact linkBad_ends ip
  refine follows_ilock (by simp) (follows_act (by simp) fun k => ?_)
  refine follows_seq (dirlink_follows (by simp) rfl (by simp [idle]) name k) ?_
  rintro _ a rfl
  refine follows_leave (l := (idle F true).take ip) rfl ?_
  split
  · exact linkBad_ends ip
  · exact follows_act (by simp [idle]) fun _ => by simpa using commit_ends (F := F)

theorem unlinkBad_ends (dp : Islot) : Ends ((idle F true).enter dp) (unlinkBad dp) :=
  follows_leave rfl commit_ends

theorem unlinkEntry_ends (dp ip : Islot) (off : Nat) (type : FileType) :
    Ends (((idle F true).enter dp).enter ip) (unlinkEntry dp ip off type) := by
  have hleave : Ends (((idle F true).enter dp).enter ip) (do
      iunlockput dp
      act (.addLink ip (-1))
      iunlockput ip
      act .commitTrans
      pure (0 : Int)) :=
    follows_leave_outer rfl (follows_act ⟨by simp, rfl⟩ fun _ => follows_leave rfl commit_ends)
  have herase : Follows locking (((idle F true).enter dp).enter ip) (eraseEntry dp off)
      fun l' _ => l' = ((idle F true).enter dp).enter ip := by
    refine follows_act ⟨by simp, rfl⟩ fun n => ?_
    split
    · rfl
    · exact ⟨trivial, nofun⟩
  refine follows_seq herase ?_
  rintro _ _ rfl
  dsimp only
  split
  · exact follows_act ⟨by simp, rfl⟩ fun _ => hleave
  · exact hleave

theorem sysUnlink_ends (path : Option (List Nat)) : Ends (idle F false) (sysUnlink path) := by
  rcases path with _ | path
  · exact idle_ends
  refine follows_seq (namex_follows rfl rfl path true) ?_
  rintro _ (_ | ⟨dp, name⟩) rfl
  · exact idle_ends
  refine follows_act rfl fun _ => follows_ilock (by simp) ?_
  split
  · exact unlinkBad_ends dp
  refine follows_act (by simp) fun r => ?_
  rcases r with _ | ⟨ip, off⟩
  · exact unlinkBad_ends dp
  refine follows_ilock (by simp) (follows_act (by simp) fun d => ?_)
  split
  · exact panic_follows
  have hdone : ∀ b : Bool, Ends (((idle F true).enter dp).enter ip)
      (if b then unlinkEntry dp ip off d.type else do
        iunlockput ip
        unlinkBad dp) := by
    intro b
    split
    · exact unlinkEntry_ends dp ip off d.type
    · exact follows_iunlockput (by simp) (by simp) (by simp [idle])
        (by simpa using unlinkBad_ends dp)
  split
  · exact follows_act (by simp) hdone
  · exact hdone true

theorem sysChdir_ends (path : Option (List Nat)) : Ends (idle F false) (sysChdir path) := by
  rcases path with _ | path
  · exact idle_ends
  refine follows_seq (namei_follows rfl rfl path) ?_
  rintro _ (_ | ip) rfl
  · exact idle_ends
  refine follows_ilock (by simp) (follows_act (by simp) fun d => ?_)
  split
  · exact follows_leave rfl idle_ends
  · refine follows_iunlock (follows_act ⟨rfl, rfl⟩ fun _ => follows_act (by simp) fun _ => ?_)
    constructor <;> simp [idle]

theorem execRead_ends (path : List Nat) (parts : List (Nat × Nat)) :
    Ends (idle F false) (execRead path parts) := by
  refine follows_seq (namei_follows rfl rfl path) ?_
  rintro _ (_ | ip) rfl
  · exact idle_ends
  have hread : Follows locking ((idle F false).enter ip) (execRead.readParts ip parts)
      fun l' _ => l' = (idle F false).enter ip := by
    induction parts with
    | nil => rfl
    | cons x rest ih => exact follows_act (by simp) fun _ => ih
  refine follows_ilock (by simp) (follows_seq hread ?_)
  rintro _ _ rfl
  exact follows_leave rfl idle_ends

theorem fileread_ends (f : Fin nfile) (n : Nat) : Ends (idle F false) (fileread f n) := by
  refine follows_act trivial fun x => ?_
  dsimp only
  split
  · split
    · exact panic_follows
    · rename_i ip hip
      refine follows_ilock (by simp [hip]) (follows_act trivial fun x => ?_)
      refine follows_act (by simp) fun r => ?_
      cases r with
      | none =>
        exact follows_act (by simp) fun _ => ⟨rfl, by simp [idle], rfl, rfl⟩
      | some b =>
        refine follows_act (by simp) fun _ => follows_act (by simp) fun _ => ?_
        exact ⟨rfl, by simp [idle], rfl, rfl⟩
  · exact ⟨rfl, rfl, rfl, rfl⟩

theorem writeChunks_ends (f : Fin nfile) {ip : Islot} (fuel : Nat) : ∀ {l : Held} (src : List Nat),
    l.Idle true → ip ∈ l.files → Ends l (writeChunks f ip fuel src) := by
  induction fuel with
  | zero => exact fun src hl _ => hl
  | succ fuel ih =>
    intro l src hl hip
    have hlocked := hl.locked
    rw [writeChunks]
    split
    · exact hl
    refine follows_act hl.trans fun _ => follows_ilock (.inr hip) (follows_act trivial fun x => ?_)
    refine follows_act (by simp) fun r => ?_
    cases r with
    | none =>
      refine follows_act (by simp) fun _ => follows_act rfl fun _ => ?_
      exact ⟨hl.refs, by simpa, rfl, hl.dir⟩
    | some n =>
      refine follows_act (by simp) fun _ => follows_act (by simp) fun _ => ?_
      refine follows_act rfl fun _ => ?_
      split
      · exact follows_seq (ih _ ⟨hl.refs, by simpa, rfl, hl.dir⟩ (by simp [hip])) fun _ _ h => h
      · exact panic_follows

theorem filewrite_ends (f : Fin nfile) (src : List Nat) :
    Ends (idle F false) (filewrite f src) := by
  refine follows_act trivial fun x => ?_
  split
  · split
    · exact panic_follows
    · rename_i ip hip
      exact follows_seq (writeChunks_ends f src.length src ⟨rfl, rfl, rfl, rfl⟩ (by simp [hip]))
        fun _ _ h => h
  · exact ⟨rfl, rfl, rfl, rfl⟩

theorem sysClose_follows (fd : Fin nofile) :
    Follows locking (idle F false) (sysClose fd) fun l' _ => l' = idle F false := by
  refine follows_act rfl fun r => ?_
  cases r with
  | none => rfl
  | some ip =>
    exact follows_act rfl fun _ => follows_act (by simp [idle]) fun _ => ⟨rfl, fun _ l' hn => by
      cases hn
      simp [idle, Follows]⟩

theorem each_follows {B : Type} {f : B → FsProg Unit} {l : Held}
    (hf : ∀ x, Follows locking l (f x) fun l' _ => l' = l) (xs : List B) :
    Follows locking l (each f xs) fun l' _ => l' = l := by
  induction xs with
  | nil => rfl
  | cons x xs ih =>
    refine follows_seq (hf x) ?_
    rintro _ _ rfl
    exact ih

theorem fork_ends (c : Nat) : Ends (idle F false) (fork c) := by
  refine follows_act trivial fun ok => ?_
  split
  · refine follows_seq (each_follows (l := idle F false) ?_ _) ?_
    · refine fun fd => ⟨trivial, ?_⟩
      rintro _ _ ⟨⟩
      rfl
    · rintro _ _ rfl
      refine follows_act rfl fun _ => ⟨trivial, ?_⟩
      rintro _ _ ⟨⟩
      exact idle_ends
  · exact idle_ends

theorem newExit_follows : Follows locking (idle F false) newExit fun l' _ => l'.Idle false := by
  refine follows_act trivial fun _ => follows_seq (each_follows sysClose_follows _) ?_
  rintro _ _ rfl
  refine follows_act ⟨rfl, rfl⟩ fun _ => ⟨rfl, ?_⟩
  rintro _ _ ⟨⟩
  exact ⟨rfl, rfl, rfl, rfl⟩

theorem discard_ends {A : Type} {m : FsProg A} (h : Ends (idle F false) m) :
    Ends (idle F false) (discard m) := follows_seq h fun _ _ h => h

theorem program_follows (c : Syscall) :
    Follows locking (idle F false) c.program fun l' _ => l'.Idle !(c matches .exit) := by
  cases c with
  | «open» path omode => exact discard_ends (sysOpen_ends path omode)
  | close fd => exact follows_mono (sysClose_follows fd) fun _ _ h => h ▸ idle_ends
  | read fd n =>
    refine discard_ends (follows_act trivial fun r => ?_)
    cases r with
    | none => exact idle_ends
    | some f => exact fileread_ends f n
  | write fd src =>
    refine discard_ends (follows_act trivial fun r => ?_)
    cases r with
    | none => exact idle_ends
    | some f => exact filewrite_ends f src
  | mkdir path => exact discard_ends (sysCreate_ends path .dir 0 0)
  | mknod path major minor => exact discard_ends (sysCreate_ends path .dev major minor)
  | link old new => exact discard_ends (sysLink_ends old new)
  | unlink path => exact discard_ends (sysUnlink_ends path)
  | chdir path => exact discard_ends (sysChdir_ends path)
  | exec path parts => exact execRead_ends path parts
  | fork c => exact fork_ends c
  | exit => exact newExit_follows

theorem Held.Idle.eq {l : Held} (h : l.Idle true) : l = idle l.files false := by
  cases l
  cases h
  simp_all [idle]

-- Whatever calls a process makes until it exits.
theorem calls_locking (cs : List Syscall) (hcs : .exit ∉ cs) :
    Follows locking (idle 0 false) (each Syscall.program (cs ++ [.exit])) fun l' _ =>
      l'.Idle false := by
  generalize (0 : Multiset Islot) = F
  induction cs generalizing F with
  | nil => exact follows_seq newExit_follows fun _ _ h => h
  | cons c cs ih =>
    rw [List.mem_cons, not_or] at hcs
    refine follows_seq (program_follows c) fun l' _ hl => ?_
    have hidle : l'.Idle true := by
      cases c with
      | exit => exact absurd rfl hcs.1
      | _ => exact hl
    rw [hidle.eq]
    exact ih hcs.2 l'.files

theorem calls_locking_forked :
    Follows locking (idle 0 false)
      (each Syscall.program ([.fork 2, .mkdir none, .close 0] ++ [.exit])) fun l' _ =>
      l'.Idle false := calls_locking _ (by simp)

end Fs
end Xv6
