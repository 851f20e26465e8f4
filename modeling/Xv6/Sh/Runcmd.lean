import Xv6.Lib.SlotScan
import Xv6.Sh.Basic

namespace Xv6.Sh

open SlotScan

inductive Turn where
  | sub
  | left
  | right
  deriving DecidableEq, Repr

abbrev Node := List Turn

-- Each node of the tree is run once, so that it names the file or the pipe it opens.
inductive Obj where
  | initial (fd : Nat)
  | file (node : Node)
  | readEnd (node : Node)
  | writeEnd (node : Node)
  deriving DecidableEq, Repr

abbrev Fds := Fin nofile → Option Obj

-- What is seen of the processes: the descriptors of a process that runs a node, between its
-- system calls, when it calls exec, and when it waits for the two ends of a pipe.
inductive Seen (W : Type) where
  | runs (node : Node) (fds : Fds)
  | execs (node : Node) (fds : Fds) (argv : List W)
  | waits (node : Node) (fds : Fds)

namespace Seen

variable {W : Type}

def node : Seen W → Node
  | .runs π _ | .execs π _ _ | .waits π _ => π

def fds : Seen W → Fds
  | .runs _ fds | .execs _ fds _ | .waits _ fds => fds

end Seen

variable {W : Type}

def fdalloc (fds : Fds) : Option (Fin nofile) := firstSlot fun d => (fds d).isNone

def close (fds : Fds) (d : Fin nofile) : Fds := Function.update fds d none

def install (fds : Fds) (o : Obj) : Option (Fin nofile × Fds) :=
  (fdalloc fds).map fun d => (d, Function.update fds d (some o))

def dup (fds : Fds) (d : Fin nofile) : Fds :=
  match fds d with
  | none => fds
  | some o =>
    match install fds o with
    | none => fds
    | some (_, fds) => fds

def pipe (fds : Fds) (π : Node) : Option (Fin nofile × Fin nofile × Fds) := do
  let (p0, fds) ← install fds (.readEnd π)
  let (p1, fds) ← install fds (.writeEnd π)
  pure (p0, p1, fds)

-- A child starts with a copy of its parent's descriptors; what it is seen to do is put before
-- what the parent does next.
def runcmd : Cmd W → Node → Fds → List (Seen W)
  | .exec [], π, fds => [.runs π fds]
  | .exec (path :: args), π, fds => [.runs π fds, .execs π fds (path :: args)]
  | .redir cmd _ _ fd, π, fds =>
    let closed := close fds (fd.castLE (by decide))
    .runs π fds :: .runs π closed ::
      match install closed (.file π) with
      | none => []
      | some (_, fds) => runcmd cmd (π ++ [.sub]) fds
  | .list left right, π, fds =>
    .runs π fds :: (runcmd left (π ++ [.left]) fds ++ runcmd right (π ++ [.right]) fds)
  | .pipe left right, π, fds =>
    .runs π fds ::
      match pipe fds π with
      | none => []
      | some (p0, p1, fds) =>
        let l1 := close fds 1
        let l2 := dup l1 p1
        let l3 := close l2 p0
        let r1 := close fds 0
        let r2 := dup r1 p0
        let r3 := close r2 p0
        .runs π fds :: (([.runs π l1, .runs π l2, .runs π l3] ++
          runcmd left (π ++ [.left]) (close l3 p1)) ++
          (([.runs π r1, .runs π r2, .runs π r3] ++
          runcmd right (π ++ [.right]) (close r3 p1)) ++
          [.runs π (close fds p0), .waits π (close (close fds p0) p1)]))
  | .back cmd, π, fds => .runs π fds :: runcmd cmd (π ++ [.sub]) fds

def std (a b : Obj) : Fds := fun d =>
  if d = 0 then some a else if d = 1 then some b else if d = 2 then some (.initial 2) else none

-- The node below `c` at the end of a way, and the nodes on the way that set descriptor `fd`,
-- `c` being at `π`.
def Cmd.at? : Cmd W → Node → Option (Cmd W)
  | c, [] => some c
  | .redir c _ _ _, .sub :: ρ | .back c, .sub :: ρ => c.at? ρ
  | .pipe l _, .left :: ρ | .list l _, .left :: ρ => l.at? ρ
  | .pipe _ r, .right :: ρ | .list _ r, .right :: ρ => r.at? ρ
  | _, _ => none

theorem Cmd.at?_nil (c : Cmd W) : c.at? [] = some c := by
  cases c <;> rfl

def Cmd.setters (fd : Fin 2) : Cmd W → Node → Node → List Obj
  | .redir c _ _ d, π, .sub :: ρ =>
    (if d = fd then [.file π] else []) ++ c.setters fd (π ++ [.sub]) ρ
  | .back c, π, .sub :: ρ => c.setters fd (π ++ [.sub]) ρ
  | .pipe l _, π, .left :: ρ =>
    (if fd = 1 then [.writeEnd π] else []) ++ l.setters fd (π ++ [.left]) ρ
  | .pipe _ r, π, .right :: ρ =>
    (if fd = 0 then [.readEnd π] else []) ++ r.setters fd (π ++ [.right]) ρ
  | .list l _, π, .left :: ρ => l.setters fd (π ++ [.left]) ρ
  | .list _ r, π, .right :: ρ => r.setters fd (π ++ [.right]) ρ
  | _, _, _ => []

-- The nearest of them to the leaf is the last one; without any, `x` is left in its place.
def Cmd.found (c : Cmd W) (fd : Fin 2) (π ρ : Node) (x : Obj) : Obj :=
  (c.setters fd π ρ).getLast?.getD x

def Cmd.wired (c : Cmd W) (fd : Fin 2) (ρ : Node) : Obj := c.found fd [] ρ (.initial fd)

def piped (a b : Obj) (π : Node) : Fds :=
  Function.update (Function.update (std a b) 3 (some (.readEnd π))) 4 (some (.writeEnd π))

section Std

variable (a b : Obj) (π : Node)

theorem pipe_std : pipe (std a b) π = some (3, 4, piped a b π) := rfl

theorem install_std (fd : Fin 2) : install (close (std a b) (fd.castLE (by decide))) (.file π) =
    some (fd.castLE (by decide), if fd = 0 then std (.file π) b else std a (.file π)) := by
  match fd with
  | 0 => exact congrArg some (Prod.ext rfl (funext fun d => by fin_cases d <;> rfl))
  | 1 => exact congrArg some (Prod.ext rfl (funext fun d => by fin_cases d <;> rfl))

theorem left_std : close (close (dup (close (piped a b π) 1) 4) 3) 4 = std a (.writeEnd π) := by
  funext d
  fin_cases d <;> rfl

theorem right_std : close (close (dup (close (piped a b π) 0) 3) 3) 4 = std (.readEnd π) b := by
  funext d
  fin_cases d <;> rfl

theorem parent_std : close (close (piped a b π) 3) 4 = std a b := by
  funext d
  fin_cases d <;> rfl

end Std

def betweenForks (a b : Obj) (π : Node) : List Fds :=
  [std a b, piped a b π, close (piped a b π) 1, dup (close (piped a b π) 1) 4,
    close (dup (close (piped a b π) 1) 4) 3, close (piped a b π) 0, dup (close (piped a b π) 0) 3,
    close (dup (close (piped a b π) 0) 3) 3, close (piped a b π) 3]

variable {a b : Obj} {π ν ρ : Node} {o : Seen W} {l r c : Cmd W} {fds : Fds}

theorem mem_runcmd_pipe : o ∈ runcmd (.pipe l r) π (std a b) ↔
    (∃ fds ∈ betweenForks a b π, o = .runs π fds) ∨
      o ∈ runcmd l (π ++ [.left]) (std a (.writeEnd π)) ∨
      o ∈ runcmd r (π ++ [.right]) (std (.readEnd π) b) ∨ o = .waits π (std a b) := by
  rw [runcmd, pipe_std]
  simp only [left_std, right_std, parent_std, betweenForks, List.mem_cons, List.mem_append,
    List.not_mem_nil, or_false, exists_eq_or_imp, exists_eq_left]
  tauto

theorem mem_runcmd_redir {file : W} {mode : Mode} {fd : Fin 2} :
    o ∈ runcmd (.redir c file mode fd) π (std a b) ↔
      o = .runs π (std a b) ∨ o = .runs π (close (std a b) (fd.castLE (by decide))) ∨
        o ∈ runcmd c (π ++ [.sub]) (if fd = 0 then std (.file π) b else std a (.file π)) := by
  rw [runcmd, install_std]
  simp only [List.mem_cons]

theorem mem_runcmd_list : o ∈ runcmd (.list l r) π (std a b) ↔ o = .runs π (std a b) ∨
    o ∈ runcmd l (π ++ [.left]) (std a b) ∨ o ∈ runcmd r (π ++ [.right]) (std a b) := by
  simp only [runcmd, List.mem_cons, List.mem_append]

theorem mem_runcmd_back : o ∈ runcmd (.back c) π (std a b) ↔
    o = .runs π (std a b) ∨ o ∈ runcmd c (π ++ [.sub]) (std a b) := by
  simp only [runcmd, List.mem_cons]

def Obj.under (π : Node) : Obj → Prop
  | .initial _ => False
  | .file ν | .readEnd ν | .writeEnd ν => π <+: ν

theorem Obj.under_of_prefix {x : Obj} (h : x.under ν) (hp : π <+: ν) : x.under π := by
  cases x with
  | initial => exact h.elim
  | file | readEnd | writeEnd => exact hp.trans h

-- Apart from what was opened below `π`, the descriptors are as they were when `π` was entered.
def Within (π : Node) (a b : Obj) (fds : Fds) : Prop :=
  ∀ d x, fds d = some x → x = a ∧ d = 0 ∨ x = b ∧ d = 1 ∨ x = .initial 2 ∧ d = 2 ∨ x.under π

theorem within_std (π : Node) (a b : Obj) : Within π a b (std a b) := by
  intro d x h
  unfold std at h
  split_ifs at h with h0 h1 h2
  · exact .inl ⟨(Option.some.inj h).symm, h0⟩
  · exact .inr (.inl ⟨(Option.some.inj h).symm, h1⟩)
  · exact .inr (.inr (.inl ⟨(Option.some.inj h).symm, h2⟩))

theorem Within.close (h : Within π a b fds) (d : Fin nofile) : Within π a b (close fds d) := by
  intro e x he
  by_cases hed : e = d
  · subst hed
    simp [Sh.close] at he
  · exact h e x (by simpa [Sh.close, hed] using he)

theorem Within.update (h : Within π a b fds) (d : Fin nofile) {y : Obj} (hy : y.under π) :
    Within π a b (Function.update fds d (some y)) := by
  intro e x he
  by_cases hed : e = d
  · subst hed
    rw [Function.update_self, Option.some.injEq] at he
    exact .inr (.inr (.inr (he ▸ hy)))
  · exact h e x (by simpa [hed] using he)

theorem Within.dup (h : Within π a b fds) {d : Fin nofile} {y : Obj} (hd : fds d = some y)
    (hy : y.under π) : Within π a b (dup fds d) := by
  unfold Sh.dup Sh.install
  rw [hd]
  cases fdalloc fds with
  | none => exact h
  | some e => exact h.update e hy

theorem within_betweenForks (h : fds ∈ betweenForks a b π) : Within π a b fds := by
  have hp : Within π a b (piped a b π) :=
    ((within_std π a b).update 3 (y := .readEnd π) List.prefix_rfl).update 4
      (y := .writeEnd π) List.prefix_rfl
  have hl : Within π a b (Sh.dup (Sh.close (piped a b π) 1) 4) :=
    (hp.close 1).dup (y := .writeEnd π) rfl List.prefix_rfl
  have hr : Within π a b (Sh.dup (Sh.close (piped a b π) 0) 3) :=
    (hp.close 0).dup (y := .readEnd π) rfl List.prefix_rfl
  simp only [betweenForks, List.mem_cons, List.not_mem_nil, or_false] at h
  rcases h with rfl | rfl | rfl | rfl | rfl | rfl | rfl | rfl | rfl
  · exact within_std π a b
  · exact hp
  · exact hp.close 1
  · exact hl
  · exact hl.close 3
  · exact hp.close 0
  · exact hr
  · exact hr.close 3
  · exact hp.close 3

inductive Enters (π : Node) (a b : Obj) : Cmd W → Turn → Cmd W → Obj → Obj → Prop
  | input (c : Cmd W) (file : W) (mode : Mode) :
      Enters π a b (.redir c file mode 0) .sub c (.file π) b
  | output (c : Cmd W) (file : W) (mode : Mode) :
      Enters π a b (.redir c file mode 1) .sub c a (.file π)
  | pipeLeft (l r : Cmd W) : Enters π a b (.pipe l r) .left l a (.writeEnd π)
  | pipeRight (l r : Cmd W) : Enters π a b (.pipe l r) .right r (.readEnd π) b
  | listLeft (l r : Cmd W) : Enters π a b (.list l r) .left l a b
  | listRight (l r : Cmd W) : Enters π a b (.list l r) .right r a b
  | back (c : Cmd W) : Enters π a b (.back c) .sub c a b

inductive Sees : Cmd W → Node → Obj → Obj → Seen W → Prop
  | runs {c : Cmd W} {π : Node} {a b : Obj} {fds : Fds} (h : Within π a b fds) :
      Sees c π a b (.runs π fds)
  | execs {π : Node} {a b : Obj} (path : W) (args : List W) :
      Sees (.exec (path :: args)) π a b (.execs π (std a b) (path :: args))
  | waits {π : Node} {a b : Obj} (l r : Cmd W) : Sees (.pipe l r) π a b (.waits π (std a b))
  | enter {c c' : Cmd W} {π : Node} {a b a' b' : Obj} {t : Turn} {o : Seen W}
      (he : Enters π a b c t c' a' b') (h : Sees c' (π ++ [t]) a' b' o) : Sees c π a b o

theorem runcmd_sees (h : o ∈ runcmd c π (std a b)) : Sees c π a b o := by
  induction c generalizing π a b with
  | exec argv =>
    cases argv with
    | nil =>
      rw [List.mem_singleton.mp h]
      exact .runs (within_std π a b)
    | cons path args =>
      simp only [runcmd, List.mem_cons, List.not_mem_nil, or_false] at h
      rcases h with rfl | rfl
      · exact .runs (within_std π a b)
      · exact .execs path args
  | redir c file mode fd ih =>
    rcases mem_runcmd_redir.mp h with rfl | rfl | h
    · exact .runs (within_std π a b)
    · exact .runs ((within_std π a b).close _)
    · match fd with
      | 0 => exact .enter (.input c file mode) (ih h)
      | 1 => exact .enter (.output c file mode) (ih h)
  | pipe l r ihl ihr =>
    rcases mem_runcmd_pipe.mp h with ⟨fds, hfds, rfl⟩ | h | h | rfl
    · exact .runs (within_betweenForks hfds)
    · exact .enter (.pipeLeft l r) (ihl h)
    · exact .enter (.pipeRight l r) (ihr h)
    · exact .waits l r
  | list l r ihl ihr =>
    rcases mem_runcmd_list.mp h with rfl | h | h
    · exact .runs (within_std π a b)
    · exact .enter (.listLeft l r) (ihl h)
    · exact .enter (.listRight l r) (ihr h)
  | back c ih =>
    rcases mem_runcmd_back.mp h with rfl | h
    · exact .runs (within_std π a b)
    · exact .enter (.back c) (ih h)

theorem Enters.mem {c' : Cmd W} {t : Turn} {a' b' : Obj} (he : Enters π a b c t c' a' b')
    (h : o ∈ runcmd c' (π ++ [t]) (std a' b')) : o ∈ runcmd c π (std a b) := by
  cases he with
  | input | output => exact mem_runcmd_redir.mpr (.inr (.inr h))
  | pipeLeft => exact mem_runcmd_pipe.mpr (.inr (.inl h))
  | pipeRight => exact mem_runcmd_pipe.mpr (.inr (.inr (.inl h)))
  | listLeft => exact mem_runcmd_list.mpr (.inr (.inl h))
  | listRight => exact mem_runcmd_list.mpr (.inr (.inr h))
  | back => exact mem_runcmd_back.mpr (.inr h)

theorem Enters.objs {c' : Cmd W} {t : Turn} {a' b' : Obj} (he : Enters π a b c t c' a' b') :
    (a' = a ∨ a'.under π) ∧ (b' = b ∨ b'.under π) := by
  cases he with
  | input | pipeRight => exact ⟨.inr List.prefix_rfl, .inl rfl⟩
  | output | pipeLeft => exact ⟨.inl rfl, .inr List.prefix_rfl⟩
  | listLeft | listRight | back => exact ⟨.inl rfl, .inl rfl⟩

theorem Sees.node (h : Sees c π a b o) : π <+: o.node := by
  induction h with
  | runs | execs | waits => exact List.prefix_rfl
  | enter he h ih => exact (List.prefix_append _ _).trans ih

theorem Sees.within (h : Sees c π a b o) : Within π a b o.fds := by
  induction h with
  | runs h => exact h
  | execs | waits => exact within_std _ _ _
  | @enter c c' π a b a' b' t o he h ih =>
    obtain ⟨ha, hb⟩ := he.objs
    intro d x hd
    rcases ih d x hd with ⟨rfl, rfl⟩ | ⟨rfl, rfl⟩ | hx | hx
    · exact ha.imp (fun h => ⟨h, rfl⟩) fun h => .inr (.inr h)
    · exact .inr (hb.imp (fun h => ⟨h, rfl⟩) .inr)
    · exact .inr (.inr (.inl hx))
    · exact .inr (.inr (.inr (x.under_of_prefix hx (List.prefix_append π [t]))))

theorem getLast_cons (x y : Obj) (l : List Obj) : (x :: l).getLast?.getD y = l.getLast?.getD x := by
  cases l with
  | nil => rfl
  | cons z l => rw [List.getLast?_cons_cons, List.getLast?_cons, Option.getD_some, Option.getD_some]

theorem Enters.found {c' : Cmd W} {t : Turn} {a' b' : Obj} (he : Enters π a b c t c' a' b') :
    c.at? (t :: ρ) = c'.at? ρ ∧ c.found 0 π (t :: ρ) a = c'.found 0 (π ++ [t]) ρ a' ∧
      c.found 1 π (t :: ρ) b = c'.found 1 (π ++ [t]) ρ b' := by
  cases he with
  | input | output | pipeLeft | pipeRight =>
    refine ⟨rfl, ?_, ?_⟩ <;> simp [Cmd.found, Cmd.setters, getLast_cons]
  | listLeft | listRight | back => exact ⟨rfl, rfl, rfl⟩

theorem Sees.leaf (h : Sees c π a b o) {fds : Fds} {argv : List W} (ho : o = .execs ν fds argv) :
    ∃ ρ, ν = π ++ ρ ∧ c.at? ρ = some (.exec argv) ∧ argv ≠ [] ∧
      fds = std (c.found 0 π ρ a) (c.found 1 π ρ b) := by
  induction h with
  | runs | waits => cases ho
  | execs path args =>
    cases ho
    exact ⟨[], (List.append_nil _).symm, rfl, List.cons_ne_nil path args, rfl⟩
  | @enter c c' π a b a' b' t o he h ih =>
    obtain ⟨ρ, hν, hat, hne, hfds⟩ := ih ho
    obtain ⟨hleaf, h0, h1⟩ := he.found (ρ := ρ)
    refine ⟨t :: ρ, ?_, hleaf.trans hat, hne, ?_⟩
    · rw [hν, List.append_assoc]
      rfl
    · rw [h0, h1, hfds]

theorem exists_enters (π : Node) (a b : Obj) {t : Turn} {x : Cmd W}
    (h : c.at? (t :: ρ) = some x) : ∃ c' a' b', Enters π a b c t c' a' b' := by
  match c, t with
  | .redir c file mode 0, .sub => exact ⟨c, _, _, .input c file mode⟩
  | .redir c file mode 1, .sub => exact ⟨c, _, _, .output c file mode⟩
  | .pipe l r, .left => exact ⟨l, _, _, .pipeLeft l r⟩
  | .pipe l r, .right => exact ⟨r, _, _, .pipeRight l r⟩
  | .list l r, .left => exact ⟨l, _, _, .listLeft l r⟩
  | .list l r, .right => exact ⟨r, _, _, .listRight l r⟩
  | .back c, .sub => exact ⟨c, _, _, .back c⟩

theorem leaf_execs {path : W} {args : List W} (h : c.at? ρ = some (.exec (path :: args))) :
    .execs (π ++ ρ) (std (c.found 0 π ρ a) (c.found 1 π ρ b)) (path :: args) ∈
      runcmd c π (std a b) := by
  induction ρ generalizing c π a b with
  | nil =>
    obtain rfl : c = .exec (path :: args) := Option.some.inj (Cmd.at?_nil c ▸ h)
    rw [List.append_nil]
    exact List.mem_cons_of_mem _ (List.mem_singleton.mpr rfl)
  | cons t ρ ih =>
    obtain ⟨c', a', b', he⟩ := exists_enters π a b h
    obtain ⟨hat, h0, h1⟩ := he.found (ρ := ρ)
    have hmem := he.mem (ih (π := π ++ [t]) (a := a') (b := b') (hat ▸ h))
    rwa [List.append_assoc, List.singleton_append, ← h0, ← h1] at hmem

theorem not_under_longer (t : Turn) : ¬ π ++ [t] <+: π := by
  intro h
  simpa using h.length_le

theorem Enters.old {c' : Cmd W} {t : Turn} {a' b' : Obj} (he : Enters π a b c t c' a' b')
    (ha : ¬ a.under π) (hb : ¬ b.under π) :
    ¬ a'.under (π ++ [t]) ∧ ¬ b'.under (π ++ [t]) := by
  have hp := List.prefix_append π [t]
  have ha' : ¬ a.under (π ++ [t]) := fun h => ha (a.under_of_prefix h hp)
  have hb' : ¬ b.under (π ++ [t]) := fun h => hb (b.under_of_prefix h hp)
  cases he with
  | input | pipeRight => exact ⟨not_under_longer _, hb'⟩
  | output | pipeLeft => exact ⟨ha', not_under_longer _⟩
  | listLeft | listRight | back => exact ⟨ha', hb'⟩

theorem ends_not_under {x : Obj} (h : ¬ x.under π) : x ≠ .readEnd π ∧ x ≠ .writeEnd π := by
  refine ⟨?_, ?_⟩
  · rintro rfl
    exact h List.prefix_rfl
  · rintro rfl
    exact h List.prefix_rfl

theorem Sees.wait (h : Sees c π a b o) (ha : ¬ a.under π) (hb : ¬ b.under π) {fds : Fds}
    (ho : o = .waits ν fds) (d : Fin nofile) :
    fds d ≠ some (.readEnd ν) ∧ fds d ≠ some (.writeEnd ν) := by
  induction h with
  | runs | execs => cases ho
  | @waits π a b l r =>
    cases ho
    obtain ⟨ha1, ha2⟩ := ends_not_under ha
    obtain ⟨hb1, hb2⟩ := ends_not_under hb
    unfold std
    split_ifs <;> simp [*]
  | enter he h ih => exact ih (he.old ha hb).1 (he.old ha hb).2 ho

def Side (π : Node) (fds : Fds) : Turn → Prop
  | .sub => True
  | .left => ∀ d, fds d ≠ some (.readEnd π) ∧ (fds d = some (.writeEnd π) → d = 1)
  | .right => ∀ d, fds d ≠ some (.writeEnd π) ∧ (fds d = some (.readEnd π) → d = 0)

theorem Within.ends {t : Turn} (h : Within (π ++ [t]) a b fds) {d : Fin nofile} {x : Obj}
    (hx : x = .readEnd π ∨ x = .writeEnd π) (hd : fds d = some x) :
    x = a ∧ d = 0 ∨ x = b ∧ d = 1 := by
  rcases h d x hd with h0 | h1 | h2 | hu
  · exact .inl h0
  · exact .inr h1
  · rcases hx with rfl | rfl <;> cases h2.1
  · rcases hx with rfl | rfl <;> exact absurd hu (not_under_longer t)

theorem Within.no_readEnd {t : Turn} (h : Within (π ++ [t]) a b fds) (ha : a ≠ .readEnd π)
    (hb : b ≠ .readEnd π) (d : Fin nofile) : fds d ≠ some (.readEnd π) := by
  intro hd
  rcases h.ends (.inl rfl) hd with ⟨hx, -⟩ | ⟨hx, -⟩
  · exact ha hx.symm
  · exact hb hx.symm

theorem Within.no_writeEnd {t : Turn} (h : Within (π ++ [t]) a b fds) (ha : a ≠ .writeEnd π)
    (hb : b ≠ .writeEnd π) (d : Fin nofile) : fds d ≠ some (.writeEnd π) := by
  intro hd
  rcases h.ends (.inr rfl) hd with ⟨hx, -⟩ | ⟨hx, -⟩
  · exact ha hx.symm
  · exact hb hx.symm

theorem Enters.side {c' : Cmd W} {t : Turn} {a' b' : Obj} (he : Enters π a b c t c' a' b')
    (ha : ¬ a.under π) (hb : ¬ b.under π) (hw : Within (π ++ [t]) a' b' fds) : Side π fds t := by
  obtain ⟨ha1, ha2⟩ := ends_not_under ha
  obtain ⟨hb1, hb2⟩ := ends_not_under hb
  cases he with
  | input | output | back => trivial
  | pipeLeft =>
    intro d
    refine ⟨hw.no_readEnd ha1 (by simp) d, fun hd => ?_⟩
    rcases hw.ends (.inr rfl) hd with ⟨hx, -⟩ | ⟨-, h1⟩
    · exact absurd hx.symm ha2
    · exact h1
  | pipeRight =>
    intro d
    refine ⟨hw.no_writeEnd (by simp) hb2 d, fun hd => ?_⟩
    rcases hw.ends (.inl rfl) hd with ⟨-, h0⟩ | ⟨hx, -⟩
    · exact h0
    · exact absurd hx.symm hb1
  | listLeft =>
    intro d
    exact ⟨hw.no_readEnd ha1 hb1 d, fun hd => absurd hd (hw.no_writeEnd ha2 hb2 d)⟩
  | listRight =>
    intro d
    exact ⟨hw.no_writeEnd ha2 hb2 d, fun hd => absurd hd (hw.no_readEnd ha1 hb1 d)⟩

theorem Sees.side (h : Sees c π a b o) (ha : ¬ a.under π) (hb : ¬ b.under π) {t : Turn}
    (hν : π <+: ν) (ho : o.node = ν ++ t :: ρ) : Side ν o.fds t := by
  have below : ∀ {π : Node}, π <+: ν → π ≠ ν ++ t :: ρ := by
    intro π hp he
    have := hp.length_le
    simp [he] at this
  induction h with
  | runs h => exact absurd ho (below hν)
  | execs path args => exact absurd ho (below hν)
  | waits l r => exact absurd ho (below hν)
  | @enter c c' π a b a' b' t' o he h ih =>
    have hpre : π ++ [t'] <+: ν ++ t :: ρ := ho ▸ h.node
    obtain ⟨μ, rfl⟩ := hν
    rw [List.append_assoc, List.prefix_append_right_inj] at hpre
    cases μ with
    | nil =>
      obtain rfl : t' = t := (List.cons_prefix_cons.mp hpre).1
      rw [List.append_nil]
      exact he.side ha hb h.within
    | cons x μ =>
      obtain rfl : t' = x := (List.cons_prefix_cons.mp hpre).1
      exact ih (he.old ha hb).1 (he.old ha hb).2 ⟨μ, by simp⟩ ho

theorem runcmd_wires (c : Cmd W) :
    (∀ ρ path args, c.at? ρ = some (.exec (path :: args)) →
      .execs ρ (std (c.wired 0 ρ) (c.wired 1 ρ)) (path :: args) ∈
        runcmd c [] (std (.initial 0) (.initial 1))) ∧
    ∀ o ∈ runcmd c [] (std (.initial 0) (.initial 1)),
      (∀ ρ fds argv, o = .execs ρ fds argv →
        c.at? ρ = some (.exec argv) ∧ fds = std (c.wired 0 ρ) (c.wired 1 ρ)) ∧
      (∀ π fds, o = .waits π fds →
        ∀ d, fds d ≠ some (.readEnd π) ∧ fds d ≠ some (.writeEnd π)) ∧
      ∀ π turn ρ, o.node = π ++ turn :: ρ → Side π o.fds turn := by
  refine ⟨fun ρ path args h => leaf_execs (π := []) h, fun o ho => ?_⟩
  have hs := runcmd_sees ho
  refine ⟨fun ρ fds argv he => ?_, fun π fds hw => ?_, fun π turn ρ hn => ?_⟩
  · obtain ⟨ρ', rfl, hat, -, hfds⟩ := hs.leaf he
    exact ⟨hat, hfds⟩
  · exact hs.wait (fun h => h) (fun h => h) hw
  · exact hs.side (fun h => h) (fun h => h) List.nil_prefix hn

end Xv6.Sh
