/-
Two runs side by side: computations whose states and results stay related.
With one computation twice, this is what it does not depend on.
-/
import Mathlib.Logic.Basic
import Mathlib.Control.Basic

namespace MpcHunt.TwoRuns

universe u v
variable {σ α β : Type u} {τ γ δ : Type v} {R S T : σ → τ → Prop} {V : α → γ → Prop}
  {W : β → δ → Prop}

/-- From states related by `R` both computations end in states related by `S`, with results
related by `V`. -/
def Related (R S : σ → τ → Prop) (V : α → γ → Prop) (x : StateM σ α) (y : StateM τ γ) : Prop :=
  ∀ s t, R s t → V (x s).1 (y t).1 ∧ S (x s).2 (y t).2

theorem Related.pure {a : α} {c : γ} (h : V a c) :
    Related R R V (Pure.pure a : StateM σ α) (Pure.pure c : StateM τ γ) :=
  fun _ _ hst => ⟨h, hst⟩

theorem Related.bind {x : StateM σ α} {y : StateM τ γ} {f : α → StateM σ β} {g : γ → StateM τ δ}
    (hx : Related R S V x y) (hf : ∀ a c, V a c → Related S T W (f a) (g c)) :
    Related R T W (x >>= f) (y >>= g) := by
  intro s t hst
  obtain ⟨hval, hmid⟩ := hx s t hst
  exact hf (x s).1 (y t).1 hval (x s).2 (y t).2 hmid

/-- After a first part with one result. -/
theorem Related.bind_eq {x : StateM σ α} {y : StateM σ α} {f g : α → StateM σ β}
    {R S T : σ → σ → Prop} {W : β → β → Prop}
    (hx : Related R S Eq x y) (hf : ∀ a, Related S T W (f a) (g a)) :
    Related R T W (x >>= f) (y >>= g) := by
  refine hx.bind fun a c h => ?_
  rw [h]
  exact hf c

/-- Reading the states: what is done with them may depend on what they share only. -/
theorem Related.get {f : σ → StateM σ β} {g : τ → StateM τ δ}
    (h : ∀ s t, R s t → Related R S W (f s) (g t)) :
    Related R S W (MonadState.get >>= f) (MonadState.get >>= g) :=
  fun s t hst => h s t hst s t hst

theorem Related.modify {f : σ → σ} {g : τ → τ} (h : ∀ s t, R s t → S (f s) (g t)) :
    Related R S (fun _ _ => True) (modify f : StateM σ PUnit) (modify g : StateM τ PUnit) :=
  fun s t hst => ⟨trivial, h s t hst⟩

theorem Related.mono {R' S' : σ → τ → Prop} {V' : α → γ → Prop} {x : StateM σ α} {y : StateM τ γ}
    (h : Related R S V x y) (hR : ∀ s t, R' s t → R s t) (hS : ∀ s t, S s t → S' s t)
    (hV : ∀ a c, V a c → V' a c) : Related R' S' V' x y := by
  intro s t hst
  obtain ⟨hval, hend⟩ := h s t (hR s t hst)
  exact ⟨hV _ _ hval, hS _ _ hend⟩

theorem Related.ite {c : Prop} [Decidable c] {x x' : StateM σ α} {y y' : StateM τ γ}
    (hx : c → Related R S V x y) (hy : ¬ c → Related R S V x' y') :
    Related R S V (if c then x else x') (if c then y else y') := by
  by_cases h : c
  · rw [if_pos h, if_pos h]
    exact hx h
  · rw [if_neg h, if_neg h]
    exact hy h

end MpcHunt.TwoRuns
