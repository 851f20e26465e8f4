import Mathlib.Tactic

namespace GuardedRun

variable {S E : Type} (step : S → E → Option S)

def run : S → List E → Option S
  | s, [] => some s
  | s, e :: es => (step s e).bind (fun t => run t es)

def along (C : S → E → Prop) : S → List E → Prop
  | _, [] => True
  | s, e :: es => C s e ∧ ∀ t, step s e = some t → along C t es

def checks (C : S → E → Prop) [∀ s e, Decidable (C s e)] : S → List E → Bool
  | _, [] => true
  | s, e :: es => decide (C s e) && (match step s e with
    | some t => checks C t es
    | none => true)

@[simp] theorem run_nil (s : S) : run step s [] = some s := rfl

theorem run_cons {s u : S} {e : E} {es : List E} :
    run step s (e :: es) = some u ↔ ∃ t, step s e = some t ∧ run step t es = some u := by
  simp only [run, Option.bind_eq_some_iff]

theorem run_append {s u : S} {es fs : List E} :
    run step s (es ++ fs) = some u ↔ ∃ t, run step s es = some t ∧ run step t fs = some u := by
  induction es generalizing s with
  | nil => simp
  | cons e es ih =>
    simp only [List.cons_append, run_cons, ih]
    constructor
    · rintro ⟨t, ht, v, hv, hu⟩
      exact ⟨v, ⟨t, ht, hv⟩, hu⟩
    · rintro ⟨v, ⟨t, ht, hv⟩, hu⟩
      exact ⟨t, ht, v, hv, hu⟩

variable {step}

theorem exists_of_any {P : S → Prop} [DecidablePred P] {s : S} {es : List E}
    (h : (run step s es).any (fun t => decide (P t)) = true) : ∃ t, run step s es = some t ∧ P t := by
  obtain ⟨t, ht, hp⟩ := (Option.any_eq_true _ _).mp h
  exact ⟨t, ht, of_decide_eq_true hp⟩

theorem along_cons {C : S → E → Prop} {s t : S} {e : E} {es : List E} (hc : C s e)
    (hs : step s e = some t) (ht : along step C t es) : along step C s (e :: es) := by
  refine ⟨hc, fun u hu => ?_⟩
  rw [hs, Option.some.injEq] at hu
  exact hu ▸ ht

theorem along_of_checks {C : S → E → Prop} [∀ s e, Decidable (C s e)] {s : S} {es : List E}
    (h : checks step C s es = true) : along step C s es := by
  induction es generalizing s with
  | nil => trivial
  | cons e es ih =>
    simp only [checks, Bool.and_eq_true, decide_eq_true_eq] at h
    refine ⟨h.1, fun t ht => ih ?_⟩
    simpa [ht] using h.2

theorem along_of_forall {C : S → E → Prop} {es : List E} (h : ∀ e ∈ es, ∀ s, C s e) (s : S) :
    along step C s es := by
  induction es generalizing s with
  | nil => trivial
  | cons e es ih =>
    exact ⟨h e List.mem_cons_self s, fun t _ => ih (fun f hf => h f (List.mem_cons_of_mem e hf)) t⟩

theorem along_append {C : S → E → Prop} {s : S} {es fs : List E} (hes : along step C s es)
    (hfs : ∀ t, run step s es = some t → along step C t fs) : along step C s (es ++ fs) := by
  induction es generalizing s with
  | nil => exact hfs s rfl
  | cons e es ih =>
    exact ⟨hes.1, fun t ht => ih (hes.2 t ht) fun u hu => hfs u ((run_cons step).mpr ⟨t, ht, hu⟩)⟩

theorem along_at {C : S → E → Prop} {s t : S} {e : E} {es fs : List E}
    (h : along step C s (es ++ e :: fs)) (hr : run step s es = some t) : C t e := by
  induction es generalizing s with
  | nil =>
    cases hr
    exact h.1
  | cons f es ih =>
    obtain ⟨u, hu, hr⟩ := (run_cons step).mp hr
    exact ih (h.2 u hu) hr

theorem along_and {C D : S → E → Prop} {s : S} {es : List E} (hc : along step C s es)
    (hd : along step D s es) : along step (fun s e => C s e ∧ D s e) s es := by
  induction es generalizing s with
  | nil => trivial
  | cons e es ih => exact ⟨⟨hc.1, hd.1⟩, fun t ht => ih (hc.2 t ht) (hd.2 t ht)⟩

theorem along_mono {C D : S → E → Prop} (h : ∀ s e, C s e → D s e) {s : S} {es : List E}
    (hc : along step C s es) : along step D s es := by
  induction es generalizing s with
  | nil => trivial
  | cons e es ih => exact ⟨h s e hc.1, fun t ht => ih (hc.2 t ht)⟩

theorem run_invariant {C : S → E → Prop} {I : S → Prop}
    (hstep : ∀ s e t, I s → C s e → step s e = some t → I t)
    {s t : S} {es : List E} (hi : I s) (hc : along step C s es) (hr : run step s es = some t) :
    I t := by
  induction es generalizing s with
  | nil =>
    simp only [run_nil, Option.some.injEq] at hr
    exact hr ▸ hi
  | cons e es ih =>
    obtain ⟨u, hu, hr⟩ := (run_cons step).mp hr
    exact ih (hstep s e u hi hc.1 hu) (hc.2 u hu) hr

theorem along_of_invariant {C P : S → E → Prop} {I : S → Prop}
    (hstep : ∀ s e t, I s → C s e → step s e = some t → I t) (hp : ∀ s e, I s → C s e → P s e)
    {s : S} {es : List E} (hi : I s) (hc : along step C s es) : along step P s es := by
  induction es generalizing s with
  | nil => trivial
  | cons e es ih =>
    exact ⟨hp s e hi hc.1, fun t ht => ih (hstep s e t hi hc.1 ht) (hc.2 t ht)⟩

end GuardedRun
