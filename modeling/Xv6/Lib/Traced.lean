import Mathlib.Tactic

-- Computations that may fail and that record every cell they touch, also when they fail.
structure Traced (A V : Type) where
  touched : List A
  result : Option V

namespace Traced

variable {A V W : Type}

def fail : Traced A V := ⟨[], none⟩

def touch (l : List A) : Traced A Unit := ⟨l, some ()⟩

protected def bind (x : Traced A V) (f : V → Traced A W) : Traced A W :=
  match x.result with
  | none => ⟨x.touched, none⟩
  | some v => ⟨x.touched ++ (f v).touched, (f v).result⟩

instance : Monad (Traced A) where
  pure v := ⟨[], some v⟩
  bind := Traced.bind

theorem bind_result {x : Traced A V} {f : V → Traced A W} {w : W}
    (h : (x >>= f).result = some w) : ∃ v, x.result = some v ∧ (f v).result = some w := by
  change (x.bind f).result = some w at h
  unfold Traced.bind at h
  split at h
  · cases h
  · rename_i v hv
    exact ⟨v, hv, h⟩

def Within (P : A → Prop) (x : Traced A V) : Prop := ∀ a ∈ x.touched, P a

variable {P : A → Prop}

theorem within_pure (v : V) : Within P (pure v : Traced A V) := by
  intro a ha
  cases ha

theorem within_fail : Within P (fail : Traced A V) := by
  intro a ha
  cases ha

theorem within_touch {l : List A} (h : ∀ a ∈ l, P a) : Within P (touch l) := h

theorem within_bind_iff {x : Traced A V} {f : V → Traced A W} :
    Within P (x >>= f) ↔ x.Within P ∧ ∀ v, x.result = some v → (f v).Within P := by
  change Within P (x.bind f) ↔ _
  unfold Traced.bind
  cases hx : x.result with
  | none => exact ⟨fun h => ⟨h, fun _ hv => by cases hv⟩, fun h => h.1⟩
  | some v =>
    simp only [Within, List.mem_append, or_imp, forall_and]
    refine and_congr_right fun _ => ⟨fun h w hw => ?_, fun h => h v rfl⟩
    cases hw
    exact h

theorem within_bind {x : Traced A V} {f : V → Traced A W} (hx : x.Within P)
    (hf : ∀ v, x.result = some v → (f v).Within P) : Within P (x >>= f) :=
  within_bind_iff.mpr ⟨hx, hf⟩

end Traced
