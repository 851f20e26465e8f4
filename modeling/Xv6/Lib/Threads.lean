import Mathlib.Control.Monad.Basic

namespace Threads

inductive Prog (O : Type) (R : O → Type) (A : Type) : Type where
  | pure (a : A)
  | op (o : O) (k : R o → Prog O R A)

variable {O : Type} {R : O → Type} {A B : Type}

namespace Prog

def bind : Prog O R A → (A → Prog O R B) → Prog O R B
  | .pure a, f => f a
  | .op o k, f => .op o fun r => (k r).bind f

instance : Monad (Prog O R) where
  pure := .pure
  bind := .bind

def call (o : O) : Prog O R (R o) := .op o .pure

def eval {S E : Type} (run : (o : O) → StateT S (Except E) (R o)) :
    Prog O R A → StateT S (Except E) A
  | .pure a => Pure.pure a
  | .op o k => run o >>= fun r => (k r).eval run

section

variable {S E : Type} {run : (o : O) → StateT S (Except E) (R o)}

@[simp] theorem eval_call (o : O) : (call o : Prog O R (R o)).eval run = run o := bind_pure (run o)

@[simp] theorem eval_bind {m : Prog O R A} {f : A → Prog O R B} :
    (m >>= f).eval run = m.eval run >>= fun a => (f a).eval run := by
  induction m with
  | pure a => exact (pure_bind a fun a => (f a).eval run).symm
  | op o k ih =>
    change (run o >>= fun r => ((k r).bind f).eval run) = (run o >>= fun r => (k r).eval run) >>= _
    rw [bind_assoc]
    exact congrArg (run o >>= ·) (funext ih)

end

end Prog

-- What a thread must hold before an operation, and what it holds after each result; none where the
-- operation does not return.
structure Discipline (O : Type) (R : O → Type) (L : Type) where
  pre : L → O → Prop
  next : L → (o : O) → R o → Option L

variable {L : Type} (D : Discipline O R L)

-- On every path of the program, whatever its operations return.
def Follows : L → Prog O R A → (L → A → Prop) → Prop
  | l, .pure a, Q => Q l a
  | l, .op o k, Q => D.pre l o ∧ ∀ r, ∀ l' ∈ D.next l o r, Follows l' (k r) Q

variable {D} {l : L} {Q Q' : L → A → Prop}

@[simp] theorem follows_pure {a : A} : Follows D l (pure a) Q ↔ Q l a := Iff.rfl

theorem follows_mono {m : Prog O R A} (h : Follows D l m Q) (hq : ∀ l a, Q l a → Q' l a) :
    Follows D l m Q' := by
  induction m generalizing l with
  | pure a => exact hq l a h
  | op o k ih => exact ⟨h.1, fun r l' hn => ih r (h.2 r l' hn)⟩

theorem follows_bind {m : Prog O R A} {f : A → Prog O R B} {Q : L → B → Prop} :
    Follows D l (m >>= f) Q ↔ Follows D l m fun l' a => Follows D l' (f a) Q := by
  induction m generalizing l with
  | pure a => exact Iff.rfl
  | op o k ih =>
    refine and_congr_right fun _ => forall_congr' fun r => forall_congr' fun l' => ?_
    exact imp_congr_right fun _ => ih r

theorem follows_seq {m : Prog O R A} {f : A → Prog O R B} {Q' : L → B → Prop}
    (hm : Follows D l m Q) (hf : ∀ l' a, Q l' a → Follows D l' (f a) Q') :
    Follows D l (m >>= f) Q' := follows_bind.mpr (follows_mono hm hf)

-- Threads that run such programs over one shared state, one operation at a time.
structure Pool (P S O : Type) (R : O → Type) where
  state : S
  prog : P → Prog O R Unit

inductive Move (P C : Type) where
  | call (p : P) (c : C)
  | tick (p : P)

section

variable {P C S E : Type} [DecidableEq P] (exec : P → (o : O) → S → Except E (R o × S))
  (program : C → Prog O R Unit)

def step (w : Pool P S O R) : Move P C → Option (Pool P S O R)
  | .call p c =>
    match w.prog p with
    | .pure _ => some { w with prog := Function.update w.prog p (program c) }
    | .op _ _ => none
  | .tick p =>
    match w.prog p with
    | .pure _ => none
    | .op o k =>
      match exec p o w.state with
      | .ok (r, s) => some ⟨s, Function.update w.prog p (k r)⟩
      | .error _ => none

variable (D) (done : L → Prop) (I : S → (P → L) → Prop)

-- Every thread follows the discipline from what it holds, and the shared state bears it out.
def Disciplined (w : Pool P S O R) : Prop :=
  ∃ ls : P → L, I w.state ls ∧ ∀ p, Follows D (ls p) (w.prog p) fun l _ => done l

variable {D done I exec program}

theorem disciplined_update {w : Pool P S O R} {ls : P → L} {s : S} {p : P} {l : L}
    {m : Prog O R Unit} (hf : ∀ q, Follows D (ls q) (w.prog q) fun l _ => done l)
    (hi : I s (Function.update ls p l)) (hm : Follows D l m fun l _ => done l) :
    Disciplined D done I ⟨s, Function.update w.prog p m⟩ := by
  refine ⟨_, hi, fun q => ?_⟩
  by_cases hq : q = p
  · subst hq
    simpa using hm
  · simpa [hq] using hf q

theorem disciplined_step (hprog : ∀ c, Follows D l (program c) fun l _ => done l)
    (hcall : ∀ s ls p, I s ls → done (ls p) → I s (Function.update ls p l))
    (hexec : ∀ s ls p o r s', I s ls → D.pre (ls p) o → exec p o s = .ok (r, s') →
      ∃ l' ∈ D.next (ls p) o r, I s' (Function.update ls p l'))
    (w : Pool P S O R) (e : Move P C) (t : Pool P S O R) (h : Disciplined D done I w)
    (hs : step exec program w e = some t) : Disciplined D done I t := by
  obtain ⟨ls, hi, hf⟩ := h
  cases e with
  | call p c =>
    have hp := hf p
    simp only [step] at hs
    split at hs
    · next heq =>
      cases hs
      rw [heq] at hp
      exact disciplined_update hf (hcall _ ls p hi hp) (hprog c)
    · cases hs
  | tick p =>
    have hp := hf p
    simp only [step] at hs
    split at hs
    · cases hs
    · next o k heq =>
      rw [heq] at hp
      split at hs
      · next r s hex =>
        cases hs
        obtain ⟨l', hnext, hi'⟩ := hexec _ ls p o r s hi hp.1 hex
        exact disciplined_update hf hi' (hp.2 r l' hnext)
      · cases hs

end

end Threads
