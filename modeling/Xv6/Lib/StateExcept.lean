import Mathlib.Tactic

namespace StateExcept

variable {S E A B : Type}

section Run

variable {m : StateT S (Except E) A} {f : A → StateT S (Except E) B} {s t : S} {a : A}

theorem bind_ok (h : m s = .ok (a, t)) : (m >>= f) s = f a t := by
  change (m s >>= fun x => f x.1 x.2) = _
  rw [h]
  rfl

theorem bind_error {e : E} (h : m s = .error e) : (m >>= f) s = .error e := by
  change (m s >>= fun x => f x.1 x.2) = _
  rw [h]
  rfl

theorem bind_eq_ok {b : B} {u : S} (h : (m >>= f) s = .ok (b, u)) :
    ∃ a t, m s = .ok (a, t) ∧ f a t = .ok (b, u) := by
  cases hm : m s with
  | error e =>
    rw [bind_error hm] at h
    cases h
  | ok x =>
    rw [bind_ok hm] at h
    exact ⟨x.1, x.2, rfl, h⟩

@[simp] theorem bind_get {f : S → StateT S (Except E) B} :
    ((get : StateT S (Except E) S) >>= f) s = f s s := rfl

@[simp] theorem bind_set {f : PUnit → StateT S (Except E) B} :
    ((set t : StateT S (Except E) PUnit) >>= f) s = f ⟨⟩ t := rfl

@[simp] theorem bind_modify {g : S → S} {f : PUnit → StateT S (Except E) B} :
    ((modify g : StateT S (Except E) PUnit) >>= f) s = f ⟨⟩ (g s) := rfl

@[simp] theorem pure_run (a : A) : (pure a : StateT S (Except E) A) s = .ok (a, s) := rfl

@[simp] theorem throw_run (e : E) : (throw e : StateT S (Except E) A) s = .error e := rfl

end Run

-- Every way `m` can end from `s`: with a result that meets `Q`, or with a failure that meets `F`.
def wp (m : StateT S (Except E) A) (Q : A → S → Prop) (F : E → Prop) (s : S) : Prop :=
  match m s with
  | .ok (a, t) => Q a t
  | .error e => F e

variable {m : StateT S (Except E) A} {Q Q' : A → S → Prop} {F F' : E → Prop} {s t : S} {a : A}

theorem wp_ok (h : wp m Q F s) (hm : m s = .ok (a, t)) : Q a t := by
  simpa [wp, hm] using h

theorem wp_error {e : E} (h : wp m Q F s) (hm : m s = .error e) : F e := by
  simpa [wp, hm] using h

theorem wp_of (hok : ∀ a t, m s = .ok (a, t) → Q a t) (herr : ∀ e, m s = .error e → F e) :
    wp m Q F s := by
  unfold wp
  split
  · rename_i h
    exact hok _ _ h
  · rename_i h
    exact herr _ h

theorem wp_run (hm : m s = .ok (a, t)) (hq : Q a t) : wp m Q F s := by
  simpa [wp, hm] using hq

theorem wp_fail {e : E} (hm : m s = .error e) (hf : F e) : wp m Q F s := by
  simpa [wp, hm] using hf

theorem wp_mono (h : wp m Q F s) (hq : ∀ a t, Q a t → Q' a t) (hf : ∀ e, F e → F' e) :
    wp m Q' F' s :=
  wp_of (fun a t hm => hq a t (wp_ok h hm)) fun e hm => hf e (wp_error h hm)

theorem wp_post (h : wp m Q F s) (hq : ∀ a t, Q a t → Q' a t) : wp m Q' F s :=
  wp_mono h hq fun _ he => he

@[simp] theorem wp_pure (a : A) : wp (pure a : StateT S (Except E) A) Q F s ↔ Q a s := Iff.rfl

@[simp] theorem wp_bind {f : A → StateT S (Except E) B} {Q : B → S → Prop} :
    wp (m >>= f) Q F s ↔ wp m (fun a t => wp (f a) Q F t) F s := by
  simp only [wp, bind, StateT.bind, Except.bind]
  cases m s with
  | ok x => rfl
  | error e => rfl

@[simp] theorem wp_get {Q : S → S → Prop} :
    wp (get : StateT S (Except E) S) Q F s ↔ Q s s := Iff.rfl

@[simp] theorem wp_set {Q : PUnit → S → Prop} :
    wp (set t : StateT S (Except E) PUnit) Q F s ↔ Q ⟨⟩ t := Iff.rfl

theorem wp_forM {A : Type} {l : List A} {f : A → StateT S (Except E) PUnit} {I : List A → S → Prop}
    (hstep : ∀ x rest u, I (x :: rest) u → wp (f x) (fun _ v => I rest v) F u) (hs : I l s) :
    wp (forM l f) (fun _ v => I [] v) F s := by
  induction l generalizing s with
  | nil => exact hs
  | cons x l ih =>
    rw [List.forM_cons, wp_bind]
    exact wp_post (hstep x l s hs) fun _ v hv => ih hv

def Moves (R : S → S → Prop) (m : StateT S (Except E) A) : Prop :=
  ∀ s, wp m (fun _ t => R s t) (fun _ => True) s

section Moves

variable {R : S → S → Prop}

theorem moves_pure [Std.Refl R] (a : A) : Moves R (pure a : StateT S (Except E) A) := fun s => refl_of R s

theorem moves_throw (e : E) : Moves R (throw e : StateT S (Except E) A) := fun _ => trivial

theorem moves_bind [IsTrans S R] {f : A → StateT S (Except E) B} (hm : Moves R m) (hf : ∀ a, Moves R (f a)) :
    Moves R (m >>= f) := by
  intro s
  rw [wp_bind]
  refine wp_post (hm s) fun a t hst => wp_post (hf a t) fun _ u htu => ?_
  exact trans_of R hst htu

theorem moves_get {f : S → StateT S (Except E) B}
    (hf : ∀ s, wp (f s) (fun _ t => R s t) (fun _ => True) s) : Moves R (get >>= f) := by
  intro s
  rw [wp_bind, wp_get]
  exact hf s

theorem moves_modify {f : S → S} (hf : ∀ s, R s (f s)) :
    Moves R (modify f : StateT S (Except E) PUnit) := fun s => hf s

theorem moves_forM [Std.Refl R] [IsTrans S R] {A : Type} {l : List A} {f : A → StateT S (Except E) PUnit}
    (hf : ∀ x, Moves R (f x)) : Moves R (forM l f) := by
  induction l with
  | nil => exact moves_pure _
  | cons x l ih =>
    rw [List.forM_cons]
    exact moves_bind (hf x) fun _ => ih

end Moves

end StateExcept
