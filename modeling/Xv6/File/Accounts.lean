import Xv6.Lib.RefCount
import Xv6.File.System
import Xv6.Proc.Slots

namespace Xv6

open RefCount

variable {n : Nat}

inductive Owner (n : Nat) where
  | group (pid : Int)
  | call (p : Fin n)
  | file (f : Fin nfile)
  deriving DecidableEq

inductive Account (n : Nat) where
  | proc (p : Fin n)
  | call (p : Fin n)
  | file (f : Fin nfile)
  deriving DecidableEq

def FilePc.file : FilePc → Fin nfile → Nat
  | .pipeNext f, g => if g = f then 1 else 0
  | .drops ds _, g => ds.count (.file g)
  | _, _ => 0

def FilePc.inode : FilePc → Fin ninode → Nat
  | .walk _ ip, j => if j = ip then 1 else 0
  | .walkNext _ ip next, j => (if j = ip then 1 else 0) + if j = next then 1 else 0
  | .openStore _ ip _, j => if j = ip then 1 else 0
  | .chdirStore ip, j => if j = ip then 1 else 0
  | .drops ds _, j => ds.count (.inode j)
  | .exitPut _ ip, j => if ip = some j then 1 else 0
  | _, _ => 0

def File.inode (f : File) (j : Fin ninode) : Nat :=
  if f.type = .inode ∧ f.ip = some j then 1 else 0

namespace Files

def live (s : Files n) (p : Fin n) : Prop := (s.procs.ptable p).live

def pid (s : Files n) (p : Fin n) : Int := (s.procs.ptable p).pid

def owner (s : Files n) : Account n → Owner n
  | .proc p => .group (s.pid p)
  | .call p => .call p
  | .file f => .file f

-- The descriptors of a slot, without the one New_exit has given to fileclose and not yet cleared.
def held (s : Files n) (p : Fin n) : Ofile :=
  match s.fpc p with
  | .exitPut fd _ => Function.update (s.ofile p) fd none
  | _ => s.ofile p

-- The directory of a slot, unless chdir or New_exit has given it to iput and not yet stored the
-- next value of proc->cwd.
def workdir (s : Files n) (p : Fin n) : Option (Fin ninode) :=
  match s.fpc p with
  | .chdirStore _ | .exitStore => none
  | _ => s.cwd p

def fileBooks (s : Files n) : Books (Account n) (Owner n) (Fin nfile) where
  active
    | .proc p => s.live p
    | .call _ => True
    | .file _ => False
  owner := s.owner
  holds
    | .proc p => tally (s.held p)
    | .call p => (s.fpc p).file
    | .file _ => fun _ => 0

def inodeBooks (s : Files n) : Books (Account n) (Owner n) (Fin ninode) where
  active
    | .proc p => s.live p
    | .call _ => True
    | .file _ => True
  owner := s.owner
  holds
    | .proc p => fun j => if s.workdir p = some j then 1 else 0
    | .call p => (s.fpc p).inode
    | .file f => (s.ftable f).inode

def Alone (s : Files n) (i : Fin n) (f : Fin nfile) : Prop :=
  ∀ q, q ≠ i → s.live q → s.pid q = s.pid i → ∀ fd, s.ofile q fd ≠ some f

def AloneIn (s : Files n) (i : Fin n) : Prop :=
  ∀ q, q ≠ i → s.live q → s.pid q = s.pid i → s.workdir q ≠ s.cwd i

def Vacant (s : Files n) (p : Fin n) : Prop := (∀ fd, s.ofile p fd = none) ∧ s.cwd p = none

instance (s : Files n) (p : Fin n) : Decidable (s.live p) := by unfold live; infer_instance

instance (s : Files n) (i : Fin n) (f : Fin nfile) : Decidable (s.Alone i f) := by
  unfold Alone; infer_instance

instance (s : Files n) (i : Fin n) : Decidable (s.AloneIn i) := by unfold AloneIn; infer_instance

instance (s : Files n) (p : Fin n) : Decidable (s.Vacant p) := by unfold Vacant; infer_instance

def closes (s : Files n) (e : Fin n × FileOp) : Option (Fin nfile) :=
  match e.2 with
  | .close fd => s.ofile e.1 fd
  | .exitClose => (s.openFd e.1).map Prod.snd
  | _ => none

def Unshared (s : Files n) (e : Fin n × FileOp) : Prop :=
  (∀ f, s.closes e = some f → s.Alone e.1 f) ∧
    (e.2 = .chdirPut ∨ e.2 = .exitCwd → s.AloneIn e.1) ∧
    (e.2 = .proc (.spawn .fork) ∨ e.2 = .proc (.spawn .thread) →
      ∀ np, allocSlot s.procs.ptable = some np → s.Vacant np)

def Bounded (s : Files n) : Prop :=
  (∀ f, (s.ftable f).ref < 2 ^ 31 - 1) ∧ ∀ j, (s.icache j).ref < 2 ^ 31 - 1

instance (s : Files n) (e : Fin n × FileOp) : Decidable (s.Unshared e) := by
  unfold Unshared; infer_instance

instance (s : Files n) : Decidable s.Bounded := by unfold Bounded; infer_instance

structure Tidy (s : Files n) : Prop where
  spawning : s.procs.groups.Spawning
  idle : ∀ p, ¬ (s.procs.ptable p).active → s.fpc p = .idle
  embryo : ∀ p, (s.procs.ptable p).state = .embryo → (∀ i, s.procs.pc i ≠ .forkPublish p) →
    ∀ fd, s.ofile p fd = none

structure Refs (s : Files n) : Prop extends Tidy s where
  files : s.fileBooks.Backed fun f => (s.ftable f).ref
  inodes : s.inodeBooks.Backed fun j => (s.icache j).ref
  since : ∀ p fd f, s.live p → s.held p fd = some f → s.since p fd = s.opened f
  home : ∀ p j, s.live p → s.workdir p = some j → (s.icache j).inum = s.home p
  cwd : ∀ p, (s.procs.ptable p).active → s.cwd p = none → s.fpc p = .exited

theorem Refs.file_alive {s : Files n} (h : s.Refs) {p : Fin n} {fd : Fin nofile} {f : Fin nfile}
    (hp : s.live p) (hf : s.held p fd = some f) : 1 ≤ (s.ftable f).ref :=
  h.files.alive (a := .proc p) hp (tally_pos hf)

theorem Refs.inode_alive {s : Files n} (h : s.Refs) {p : Fin n} {j : Fin ninode}
    (hp : s.live p) (hj : s.workdir p = some j) : 1 ≤ (s.icache j).ref :=
  h.inodes.alive (a := .proc p) hp (by simp [inodeBooks, hj])

structure Local (s t : Files n) (i q : Fin n) : Prop where
  ptable : t.procs.ptable = s.procs.ptable
  ofile : ∀ p, p ≠ q → t.ofile p = s.ofile p
  fpc : ∀ p, p ≠ i → t.fpc p = s.fpc p

section Local

variable {s t : Files n} {i q : Fin n}

theorem Local.live (hl : Local s t i q) (p : Fin n) : t.live p ↔ s.live p := by
  simp only [Files.live, hl.ptable]

theorem Local.owner (hl : Local s t i q) (a : Account n) : t.owner a = s.owner a := by
  cases a <;> simp only [Files.owner, Files.pid, hl.ptable]

theorem Local.held (hl : Local s t i q) {p : Fin n} (hq : p ≠ q) (hi : p ≠ i) :
    t.held p = s.held p := by
  simp only [Files.held, hl.ofile p hq, hl.fpc p hi]

theorem Local.active (hl : Local s t i q) (a : Account n) :
    t.fileBooks.active a → s.fileBooks.active a := by
  cases a with
  | proc p => exact (hl.live p).mp
  | call p | file f => exact id

theorem Local.kept (hl : Local s t i q) {a : Account n}
    (h : a = .proc q ∨ a = .proc i ∨ a = .call i →
      ∀ f, t.fileBooks.holds a f ≤ s.fileBooks.holds a f) :
    Books.Kept s.fileBooks t.fileBooks a := by
  refine fun hact => ⟨hl.active a hact, hl.owner a, fun f => ?_⟩
  by_cases ha : a = .proc q ∨ a = .proc i ∨ a = .call i
  · exact h ha f
  · cases a with
    | proc p =>
      simp only [Account.proc.injEq, reduceCtorEq, or_false, not_or] at ha
      exact le_of_eq (congrArg (tally · f) (hl.held ha.1 ha.2))
    | call p =>
      simp only [Account.call.injEq, reduceCtorEq, false_or] at ha
      exact le_of_eq (congrArg (FilePc.file · f) (hl.fpc p ha))
    | file g => exact le_rfl

theorem Local.callGivesUp (hl : Local s t i i) {f : Fin nfile}
    (hc : ∀ g, (t.fpc i).file g + (if g = f then 1 else 0) ≤ (s.fpc i).file g) :
    Books.GivesUp s.fileBooks t.fileBooks (.call i) f := by
  refine ⟨trivial, ?_, fun _ => ⟨rfl, hc⟩, ?_⟩
  · exact Nat.lt_of_lt_of_le (by simp) (hc f)
  · intro a ha _ hown
    rw [show t.fileBooks.owner a = s.owner a from hl.owner a] at hown
    cases a with
    | call p => exact absurd (congrArg Account.call (Owner.call.inj hown)) ha
    | proc p | file g => cases hown

theorem held_ne {p : Fin n} {f : Fin nfile} (h : ∀ fd, s.ofile p fd ≠ some f) (fd : Fin nofile) :
    s.held p fd ≠ some f := by
  cases hf : s.fpc p with
  | exitPut fd' ip =>
    by_cases hfd : fd = fd'
    · subst hfd; simp [Files.held, hf]
    · simpa [Files.held, hf, hfd] using h fd
  | _ => simpa [Files.held, hf] using h fd

theorem Local.procGivesUp (hl : Local s t i i) {f : Fin nfile} (hlive : s.live i)
    (halone : s.Alone i f)
    (hi : ∀ g, tally (t.held i) g + (if g = f then 1 else 0) ≤ tally (s.held i) g) :
    Books.GivesUp s.fileBooks t.fileBooks (.proc i) f := by
  refine ⟨hlive, ?_, fun _ => ⟨hl.owner (.proc i), hi⟩, ?_⟩
  · exact Nat.lt_of_lt_of_le (by simp) (hi f)
  · intro a ha hact hown
    rw [show t.fileBooks.owner a = s.owner a from hl.owner a] at hown
    cases a with
    | proc p =>
      have hp : p ≠ i := fun hpi => ha (congrArg Account.proc hpi)
      have hnone := halone p hp ((hl.live p).mp hact) (Owner.group.inj hown)
      change tally (t.held p) f = 0
      rw [hl.held hp hp]
      exact tally_eq_zero (held_ne hnone)
    | call p | file g => cases hown

section Ftable

variable (h : s.fileBooks.Backed fun f => (s.ftable f).ref)

include h

theorem files_keep (hl : Local s t i i) (href : ∀ f, (s.ftable f).ref ≤ (t.ftable f).ref)
    (hi : ∀ f, tally (t.held i) f ≤ tally (s.held i) f)
    (hc : ∀ f, (t.fpc i).file f ≤ (s.fpc i).file f) :
    t.fileBooks.Backed fun f => (t.ftable f).ref := by
  refine h.weaken href fun a => (hl.kept ?_).covered
  rintro (rfl | rfl | rfl)
  · exact hi
  · exact hi
  · exact hc

theorem files_takeProc (hl : Local s t i q) (f : Fin nfile)
    (href : (s.ftable f).ref + 1 ≤ (t.ftable f).ref)
    (hother : ∀ g, g ≠ f → (s.ftable g).ref ≤ (t.ftable g).ref)
    (hi : i ≠ q → ∀ g, tally (t.held i) g ≤ tally (s.held i) g)
    (hc : ∀ g, (t.fpc i).file g ≤ (s.fpc i).file g)
    (hq : ∀ g, tally (t.held q) g ≤ tally (s.held q) g + if g = f then 1 else 0) :
    t.fileBooks.Backed fun f => (t.ftable f).ref := by
  refine h.take (.proc q) f href hother (fun a ha => (hl.kept ?_).covered)
    (fun hact => ⟨(hl.live q).mp hact, hl.owner (.proc q)⟩) hq
  rintro (rfl | rfl | rfl)
  · exact absurd rfl ha
  · exact hi fun hiq => ha (congrArg Account.proc hiq)
  · exact hc

theorem files_takeCall (hl : Local s t i i) (f : Fin nfile)
    (href : (s.ftable f).ref + 1 ≤ (t.ftable f).ref)
    (hother : ∀ g, g ≠ f → (s.ftable g).ref ≤ (t.ftable g).ref)
    (hi : ∀ g, tally (t.held i) g ≤ tally (s.held i) g)
    (hc : ∀ g, (t.fpc i).file g ≤ (s.fpc i).file g + if g = f then 1 else 0) :
    t.fileBooks.Backed fun f => (t.ftable f).ref := by
  refine h.take (.call i) f href hother (fun a ha => (hl.kept ?_).covered)
    (fun hact => ⟨hact, rfl⟩) hc
  rintro (rfl | rfl | rfl)
  · exact hi
  · exact hi
  · exact absurd rfl ha

theorem files_dropCall (hl : Local s t i i) (f : Fin nfile)
    (href : (s.ftable f).ref - 1 ≤ (t.ftable f).ref)
    (hother : ∀ g, g ≠ f → (s.ftable g).ref ≤ (t.ftable g).ref)
    (hi : ∀ g, tally (t.held i) g ≤ tally (s.held i) g)
    (hc : ∀ g, (t.fpc i).file g + (if g = f then 1 else 0) ≤ (s.fpc i).file g) :
    t.fileBooks.Backed fun f => (t.ftable f).ref := by
  refine h.drop (.call i) f (hl.callGivesUp hc) href hother fun a ha => (hl.kept ?_).covered
  rintro (rfl | rfl | rfl)
  · exact hi
  · exact hi
  · exact absurd rfl ha

theorem files_dropProc (hl : Local s t i i) (f : Fin nfile) (hlive : s.live i)
    (halone : s.Alone i f) (href : (s.ftable f).ref - 1 ≤ (t.ftable f).ref)
    (hother : ∀ g, g ≠ f → (s.ftable g).ref ≤ (t.ftable g).ref)
    (hi : ∀ g, tally (t.held i) g + (if g = f then 1 else 0) ≤ tally (s.held i) g)
    (hc : ∀ g, (t.fpc i).file g ≤ (s.fpc i).file g) :
    t.fileBooks.Backed fun f => (t.ftable f).ref := by
  refine h.drop (.proc i) f (hl.procGivesUp hlive halone hi) href hother
    fun a ha => (hl.kept ?_).covered
  rintro (rfl | rfl | rfl)
  · exact absurd rfl ha
  · exact absurd rfl ha
  · exact hc

theorem files_procToCall (hl : Local s t i i) (f : Fin nfile) (hlive : s.live i)
    (halone : s.Alone i f) (href : ∀ g, (s.ftable g).ref ≤ (t.ftable g).ref)
    (hi : ∀ g, tally (t.held i) g + (if g = f then 1 else 0) ≤ tally (s.held i) g)
    (hc : ∀ g, (t.fpc i).file g ≤ (s.fpc i).file g + if g = f then 1 else 0) :
    t.fileBooks.Backed fun f => (t.ftable f).ref := by
  refine h.move (.proc i) (.call i) f (hl.procGivesUp hlive halone hi)
    (by simp [fileBooks, Files.owner]) href (fun a ha ha' => (hl.kept ?_).covered)
    (fun hact => ⟨hact, rfl⟩) hc
  rintro (rfl | rfl | rfl)
  · exact absurd rfl ha
  · exact absurd rfl ha
  · exact absurd rfl ha'

theorem files_callToProc (hl : Local s t i i) (f : Fin nfile)
    (href : ∀ g, (s.ftable g).ref ≤ (t.ftable g).ref)
    (hi : ∀ g, tally (t.held i) g ≤ tally (s.held i) g + if g = f then 1 else 0)
    (hc : ∀ g, (t.fpc i).file g + (if g = f then 1 else 0) ≤ (s.fpc i).file g) :
    t.fileBooks.Backed fun f => (t.ftable f).ref := by
  refine h.move (.call i) (.proc i) f (hl.callGivesUp hc) (by simp [fileBooks, Files.owner]) href
    (fun a ha ha' => (hl.kept ?_).covered)
    (fun hact => ⟨(hl.live i).mp hact, hl.owner (.proc i)⟩) hi
  rintro (rfl | rfl | rfl)
  · exact absurd rfl ha'
  · exact absurd rfl ha'
  · exact absurd rfl ha

end Ftable

theorem workdir_cwd {p : Fin n} {j : Fin ninode} (h : s.workdir p = some j) : s.cwd p = some j := by
  unfold workdir at h
  split at h
  · cases h
  · cases h
  · exact h

theorem workdir_congr {p : Fin n} (hfpc : t.fpc p = s.fpc p) (hcwd : t.cwd p = s.cwd p) :
    t.workdir p = s.workdir p := by
  simp only [workdir, hfpc, hcwd]

theorem workdir_of (hfpc : ∀ p, p ≠ i → t.fpc p = s.fpc p) (hw : s.workdir i = s.cwd i)
    (hcwd : t.cwd = s.cwd) {p : Fin n} {j : Fin ninode} (hj : t.workdir p = some j) :
    s.workdir p = some j := by
  by_cases hp : p = i
  · subst hp
    rw [hw, ← hcwd]
    exact workdir_cwd hj
  · rwa [← workdir_congr (hfpc p hp) (congrFun hcwd p)]

theorem workdir_le {p q : Fin n} {j : Fin ninode}
    (h : t.workdir p = some j → s.workdir q = some j) :
    t.inodeBooks.holds (.proc p) j ≤ s.inodeBooks.holds (.proc q) j := by
  by_cases hj : t.workdir p = some j
  · simp [inodeBooks, hj, h hj]
  · simp [inodeBooks, hj]

theorem Local.inode_kept (hl : Local s t i q) {a : Account n}
    (hwd : ∀ p, a = .proc p → ∀ j, t.workdir p = some j → s.workdir p = some j)
    (hft : ∀ g, a = .file g → ∀ j, (t.ftable g).inode j ≤ (s.ftable g).inode j)
    (hc : a = .call i → ∀ j, (t.fpc i).inode j ≤ (s.fpc i).inode j) :
    Books.Kept s.inodeBooks t.inodeBooks a := by
  intro hact
  cases a with
  | proc p =>
    exact ⟨(hl.live p).mp hact, hl.owner (.proc p), fun j => workdir_le (hwd p rfl j)⟩
  | call p =>
    refine ⟨trivial, rfl, fun j => ?_⟩
    by_cases hp : p = i
    · subst hp
      exact hc rfl j
    · exact le_of_eq (congrArg (FilePc.inode · j) (hl.fpc p hp))
  | file g => exact ⟨trivial, rfl, hft g rfl⟩

theorem Local.inode_callGivesUp (hl : Local s t i q) {j : Fin ninode}
    (hc : ∀ k, (t.fpc i).inode k + (if k = j then 1 else 0) ≤ (s.fpc i).inode k) :
    Books.GivesUp s.inodeBooks t.inodeBooks (.call i) j := by
  refine ⟨trivial, ?_, fun _ => ⟨rfl, hc⟩, ?_⟩
  · exact Nat.lt_of_lt_of_le (by simp) (hc j)
  · intro a ha _ hown
    rw [show t.inodeBooks.owner a = s.owner a from hl.owner a] at hown
    cases a with
    | call p => exact absurd (congrArg Account.call (Owner.call.inj hown)) ha
    | proc p | file g => cases hown

section Icache

variable (h : s.inodeBooks.Backed fun j => (s.icache j).ref)

include h

theorem inodes_callToProc (hl : Local s t i i) (j : Fin ninode)
    (href : ∀ k, (s.icache k).ref ≤ (t.icache k).ref)
    (hcwd : t.cwd = Function.update s.cwd i (some j))
    (hft : ∀ g j, (t.ftable g).inode j ≤ (s.ftable g).inode j)
    (hc : ∀ k, (t.fpc i).inode k + (if k = j then 1 else 0) ≤ (s.fpc i).inode k) :
    t.inodeBooks.Backed fun j => (t.icache j).ref := by
  refine h.move (.call i) (.proc i) j (hl.inode_callGivesUp hc) (by simp [inodeBooks, Files.owner])
    href (fun a ha ha' => (hl.inode_kept ?_ (fun g _ => hft g) fun hai => absurd hai ha).covered)
    (fun hact => ⟨(hl.live i).mp hact, hl.owner (.proc i)⟩) ?_
  · rintro p rfl k hk
    have hp : p ≠ i := fun hpi => ha' (congrArg Account.proc hpi)
    rwa [workdir_congr (hl.fpc p hp) (by simp [hcwd, hp])] at hk
  · intro k
    by_cases hk : t.workdir i = some k
    · obtain rfl : j = k := by simpa [hcwd] using workdir_cwd hk
      simp [inodeBooks, hk]
    · simp [inodeBooks, hk]

variable (hw : s.workdir i = s.cwd i)

include hw

theorem inodes_keep (hl : Local s t i q) (href : ∀ j, (s.icache j).ref ≤ (t.icache j).ref)
    (hcwd : t.cwd = s.cwd) (hft : ∀ g j, (t.ftable g).inode j ≤ (s.ftable g).inode j)
    (hc : ∀ j, (t.fpc i).inode j ≤ (s.fpc i).inode j) :
    t.inodeBooks.Backed fun j => (t.icache j).ref :=
  h.weaken href fun _ =>
    (hl.inode_kept (fun _ _ _ => workdir_of hl.fpc hw hcwd) (fun g _ => hft g) fun _ => hc).covered

theorem inodes_takeCall (hl : Local s t i q) (j : Fin ninode)
    (href : (s.icache j).ref + 1 ≤ (t.icache j).ref)
    (hother : ∀ k, k ≠ j → (s.icache k).ref ≤ (t.icache k).ref) (hcwd : t.cwd = s.cwd)
    (hft : ∀ g j, (t.ftable g).inode j ≤ (s.ftable g).inode j)
    (hc : ∀ k, (t.fpc i).inode k ≤ (s.fpc i).inode k + if k = j then 1 else 0) :
    t.inodeBooks.Backed fun j => (t.icache j).ref :=
  h.take (.call i) j href hother
    (fun _ ha => (hl.inode_kept (fun _ _ _ => workdir_of hl.fpc hw hcwd) (fun g _ => hft g)
      fun hai => absurd hai ha).covered)
    (fun hact => ⟨hact, rfl⟩) hc

theorem inodes_dropCall (hl : Local s t i q) (j : Fin ninode)
    (href : (s.icache j).ref - 1 ≤ (t.icache j).ref)
    (hother : ∀ k, k ≠ j → (s.icache k).ref ≤ (t.icache k).ref) (hcwd : t.cwd = s.cwd)
    (hft : ∀ g j, (t.ftable g).inode j ≤ (s.ftable g).inode j)
    (hc : ∀ k, (t.fpc i).inode k + (if k = j then 1 else 0) ≤ (s.fpc i).inode k) :
    t.inodeBooks.Backed fun j => (t.icache j).ref :=
  h.drop (.call i) j (hl.inode_callGivesUp hc) href hother fun _ ha =>
    (hl.inode_kept (fun _ _ _ => workdir_of hl.fpc hw hcwd) (fun g _ => hft g)
      fun hai => absurd hai ha).covered

theorem inodes_dropProc (hl : Local s t i i) (j : Fin ninode) (hlive : s.live i)
    (hj : s.cwd i = some j) (halone : s.AloneIn i) (href : (s.icache j).ref - 1 ≤ (t.icache j).ref)
    (hother : ∀ k, k ≠ j → (s.icache k).ref ≤ (t.icache k).ref)
    (hcwd : t.cwd = s.cwd) (hput : t.workdir i = none)
    (hft : ∀ g j, (t.ftable g).inode j ≤ (s.ftable g).inode j)
    (hc : ∀ j, (t.fpc i).inode j ≤ (s.fpc i).inode j) :
    t.inodeBooks.Backed fun j => (t.icache j).ref := by
  refine h.drop (.proc i) j ⟨hlive, by simp [inodeBooks, hw, hj],
    fun _ => ⟨hl.owner (.proc i), ?_⟩, ?_⟩ href hother fun _ _ =>
    (hl.inode_kept (fun _ _ _ => workdir_of hl.fpc hw hcwd) (fun g _ => hft g) fun _ => hc).covered
  · intro k
    simp [inodeBooks, hput, hw, hj, eq_comm]
  · intro a ha hact hown
    rw [show t.inodeBooks.owner a = s.owner a from hl.owner a] at hown
    cases a with
    | proc p =>
      have hp : p ≠ i := fun hpi => ha (congrArg Account.proc hpi)
      have hne := halone p hp ((hl.live p).mp hact) (Owner.group.inj hown)
      rw [hj, ← workdir_congr (hl.fpc p hp) (congrFun hcwd p)] at hne
      simp [inodeBooks, hne]
    | call p | file g => cases hown

theorem inodes_callToFile (hl : Local s t i i) (j : Fin ninode) (f : Fin nfile)
    (href : ∀ k, (s.icache k).ref ≤ (t.icache k).ref) (hcwd : t.cwd = s.cwd)
    (hft : ∀ g, g ≠ f → ∀ j, (t.ftable g).inode j ≤ (s.ftable g).inode j)
    (hf : ∀ k, (t.ftable f).inode k ≤ if k = j then 1 else 0)
    (hc : ∀ k, (t.fpc i).inode k + (if k = j then 1 else 0) ≤ (s.fpc i).inode k) :
    t.inodeBooks.Backed fun j => (t.icache j).ref := by
  refine h.move (.call i) (.file f) j (hl.inode_callGivesUp hc) (by simp [inodeBooks, Files.owner])
    href (fun a ha ha' => (hl.inode_kept (fun _ _ _ => workdir_of hl.fpc hw hcwd) ?_
      fun hai => absurd hai ha).covered) (fun hact => ⟨hact, rfl⟩) ?_
  · rintro g rfl
    exact hft g fun hgf => ha' (congrArg Account.file hgf)
  · intro k
    exact (hf k).trans (Nat.le_add_left _ _)

theorem inodes_fileToCall (hl : Local s t i i) (j : Fin ninode) (f : Fin nfile)
    (href : ∀ k, (s.icache k).ref ≤ (t.icache k).ref) (hcwd : t.cwd = s.cwd)
    (hft : ∀ g, g ≠ f → ∀ j, (t.ftable g).inode j ≤ (s.ftable g).inode j)
    (hf : ∀ k, (t.ftable f).inode k + (if k = j then 1 else 0) ≤ (s.ftable f).inode k)
    (hc : ∀ k, (t.fpc i).inode k ≤ (s.fpc i).inode k + if k = j then 1 else 0) :
    t.inodeBooks.Backed fun j => (t.icache j).ref := by
  refine h.move (.file f) (.call i) j ⟨trivial, Nat.lt_of_lt_of_le (by simp) (hf j),
    fun _ => ⟨rfl, hf⟩, ?_⟩ (by simp [inodeBooks, Files.owner]) href
    (fun a ha ha' => (hl.inode_kept (fun _ _ _ => workdir_of hl.fpc hw hcwd) ?_
      fun hai => absurd hai ha').covered)
    (fun hact => ⟨hact, rfl⟩) hc
  · intro a ha _ hown
    rw [show t.inodeBooks.owner a = s.owner a from hl.owner a] at hown
    cases a with
    | file g => exact absurd (congrArg Account.file (Owner.file.inj hown)) ha
    | proc p | call p => cases hown
  · rintro g rfl
    exact hft g fun hgf => ha (congrArg Account.file hgf)

end Icache

end Local

end Files
end Xv6
