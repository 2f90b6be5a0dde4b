/-
Computations that may raise and keep their state when they do: what `finally`
and a handler that raises again do, what such a computation leaves unchanged
however it ends, and what it has established when it returns.
-/
import Mathlib.Logic.Basic

namespace MpcHunt.Raising

universe u
variable {ε σ α β : Type u} {P Q I : σ → Prop}

/-- The state a computation ends in, either way. -/
def ending : EStateM.Result ε σ α → σ
  | .ok _ s => s
  | .error _ s => s

/-- What a computation returned, unless it raised. -/
def returned : EStateM.Result ε σ α → Option α
  | .ok a _ => some a
  | .error _ _ => none

/-- What a computation raised, unless it returned. -/
def raised : EStateM.Result ε σ α → Option ε
  | .ok _ _ => none
  | .error e _ => some e

theorem eq_error_of_raised {r : EStateM.Result ε σ α} {e : ε} (h : raised r = some e) :
    r = .error e (ending r) := by
  cases r with
  | ok b s => cases h
  | error e' s =>
    cases h
    rfl

theorem eq_ok_of_returned {r : EStateM.Result ε σ α} {a : α} (h : returned r = some a) :
    r = .ok a (ending r) := by
  cases r with
  | ok b s =>
    cases h
    rfl
  | error e s => cases h

/-- `try: x finally: f`. -/
def finallyDo (x : EStateM ε σ α) (f : EStateM ε σ PUnit) : EStateM ε σ α := fun s =>
  match x s with
  | .ok a s' =>
    match f s' with
    | .ok _ t => .ok a t
    | .error e t => .error e t
  | .error e s' =>
    match f s' with
    | .ok _ t => .error e t
    | .error e' t => .error e' t

/-- `try: x except BaseException: f; raise`. -/
def onRaise (x : EStateM ε σ α) (f : EStateM ε σ PUnit) : EStateM ε σ α := fun s =>
  match x s with
  | .ok a s' => .ok a s'
  | .error e s' =>
    match f s' with
    | .ok _ t => .error e t
    | .error e' t => .error e' t

/-! ## What is left unchanged -/

/-- From a state with `I` the computation ends in one, whether it returns or raises. -/
def Keeps (I : σ → Prop) (x : EStateM ε σ α) : Prop := ∀ s, I s → I (ending (x s))

theorem Keeps.pure (a : α) : Keeps I (Pure.pure a : EStateM ε σ α) := fun _ hs => hs

theorem Keeps.throw (e : ε) : Keeps I (throw e : EStateM ε σ α) := fun _ hs => hs

theorem Keeps.bind {x : EStateM ε σ α} {f : α → EStateM ε σ β} (hx : Keeps I x)
    (hf : ∀ a, Keeps I (f a)) : Keeps I (x >>= f) := by
  intro s hs
  have hmid := hx s hs
  simp only [Bind.bind, EStateM.bind]
  cases h : x s with
  | ok a s' =>
    rw [h] at hmid
    exact hf a s' hmid
  | error e s' =>
    rw [h] at hmid
    exact hmid

theorem Keeps.ite {c : Prop} [Decidable c] {x y : EStateM ε σ α} (hx : Keeps I x)
    (hy : Keeps I y) : Keeps I (if c then x else y) := by
  by_cases h : c
  · rw [if_pos h]
    exact hx
  · rw [if_neg h]
    exact hy

theorem Keeps.finallyDo {x : EStateM ε σ α} {f : EStateM ε σ PUnit} (hx : Keeps I x)
    (hf : Keeps I f) : Keeps I (finallyDo x f) := by
  intro s hs
  have hmid := hx s hs
  simp only [Raising.finallyDo]
  generalize x s = r at hmid ⊢
  cases r with
  | ok a s' =>
    have hend := hf s' hmid
    dsimp only
    generalize f s' = r' at hend ⊢
    cases r' <;> exact hend
  | error e s' =>
    have hend := hf s' hmid
    dsimp only
    generalize f s' = r' at hend ⊢
    cases r' <;> exact hend

theorem Keeps.ok {x : EStateM ε σ α} (h : Keeps I x) {s s' : σ} {a : α} (hs : I s)
    (hx : x s = .ok a s') : I s' := by
  have hend := h s hs
  rw [hx] at hend
  exact hend

theorem Keeps.error {x : EStateM ε σ α} (h : Keeps I x) {s s' : σ} {e : ε} (hs : I s)
    (hx : x s = .error e s') : I s' := by
  have hend := h s hs
  rw [hx] at hend
  exact hend

/-! ## What has been established -/

theorem bind_eq_ok {x : EStateM ε σ α} {f : α → EStateM ε σ β} {s s' : σ} {b : β} :
    (x >>= f) s = .ok b s' ↔ ∃ a t, x s = .ok a t ∧ f a t = .ok b s' := by
  simp only [Bind.bind, EStateM.bind]
  cases x s <;> simp [and_assoc]

/-- A bind that raises does so in its first part or after it. -/
theorem bind_eq_error {x : EStateM ε σ α} {f : α → EStateM ε σ β} {s s' : σ} {e : ε} :
    (x >>= f) s = .error e s' ↔
      x s = .error e s' ∨ ∃ a t, x s = .ok a t ∧ f a t = .error e s' := by
  simp only [Bind.bind, EStateM.bind]
  cases x s <;> simp [and_assoc]

theorem finallyDo_eq_ok {x : EStateM ε σ α} {f : EStateM ε σ PUnit} {s t : σ} {a : α} :
    finallyDo x f s = .ok a t ↔ ∃ s', x s = .ok a s' ∧ f s' = .ok ⟨⟩ t := by
  simp only [finallyDo]
  generalize x s = r
  cases r with
  | ok b s' =>
    dsimp only
    generalize hf : f s' = r'
    cases r' with
    | ok u t' => simp [and_assoc, hf]
    | error e t' => simp [and_assoc, hf]
  | error e s' =>
    dsimp only
    generalize f s' = r'
    cases r' <;> simp

/-- A `finally` whose last part works raises where its first part does. -/
theorem finallyDo_eq_error {x : EStateM ε σ α} {f : EStateM ε σ PUnit} {s t : σ} {e : ε}
    (hf : ∀ s, ∃ s', f s = .ok ⟨⟩ s') :
    finallyDo x f s = .error e t ↔ ∃ s', x s = .error e s' ∧ f s' = .ok ⟨⟩ t := by
  simp only [finallyDo]
  generalize x s = r
  cases r with
  | ok a s' =>
    obtain ⟨u, hu⟩ := hf s'
    simp [hu]
  | error e' s' =>
    obtain ⟨u, hu⟩ := hf s'
    simp [hu, and_assoc]

/-- A handler that works raises again where the body does. -/
theorem onRaise_eq_error {x : EStateM ε σ α} {f : EStateM ε σ PUnit} {s t : σ} {e : ε}
    (hf : ∀ s, ∃ s', f s = .ok ⟨⟩ s') :
    onRaise x f s = .error e t ↔ ∃ s', x s = .error e s' ∧ f s' = .ok ⟨⟩ t := by
  simp only [onRaise]
  generalize x s = r
  cases r with
  | ok a s' => simp
  | error e' s' =>
    obtain ⟨u, hu⟩ := hf s'
    simp [hu, and_assoc]

theorem onRaise_eq_ok {x : EStateM ε σ α} {f : EStateM ε σ PUnit} {s t : σ} {a : α} :
    onRaise x f s = .ok a t ↔ x s = .ok a t := by
  simp only [onRaise]
  generalize x s = r
  cases r with
  | ok b s' => exact Iff.rfl
  | error e s' =>
    dsimp only
    generalize f s' = r'
    cases r' <;> simp

/-- From a state with `P`, a computation that returns does so with `Q`. -/
def Returns (P : σ → Prop) (x : EStateM ε σ α) (Q : α → σ → Prop) : Prop :=
  ∀ s, P s → ∀ a s', x s = .ok a s' → Q a s'

theorem Returns.pure {a : α} {Q : α → σ → Prop} (h : ∀ s, P s → Q a s) :
    Returns P (Pure.pure a : EStateM ε σ α) Q := by
  intro s hs b s' hr
  cases hr
  exact h s hs

theorem Returns.throw (e : ε) (Q : α → σ → Prop) :
    Returns P (throw e : EStateM ε σ α) Q := by
  intro s hs a s' hr
  cases hr

theorem Returns.bind {x : EStateM ε σ α} {f : α → EStateM ε σ β} {M : α → σ → Prop}
    {Q : β → σ → Prop} (hx : Returns P x M) (hf : ∀ a, Returns (M a) (f a) Q) :
    Returns P (x >>= f) Q := by
  intro s hs b s' hr
  obtain ⟨a, t, hxs, hfs⟩ := bind_eq_ok.1 hr
  exact hf a t (hx s hs a t hxs) b s' hfs

/-- What the rest of a computation establishes from any state. -/
theorem Returns.of_rest {x : EStateM ε σ α} {f : α → EStateM ε σ β} {Q : β → σ → Prop}
    (hf : ∀ a, Returns (fun _ => True) (f a) Q) : Returns (fun _ => True) (x >>= f) Q :=
  Returns.bind (M := fun _ _ => True) (fun _ _ _ _ _ => trivial) hf

theorem Returns.ite {c : Prop} [Decidable c] {x y : EStateM ε σ α} {Q : α → σ → Prop}
    (hx : c → Returns P x Q) (hy : ¬ c → Returns P y Q) : Returns P (if c then x else y) Q := by
  by_cases h : c
  · rw [if_pos h]
    exact hx h
  · rw [if_neg h]
    exact hy h

theorem Returns.finallyDo {x : EStateM ε σ α} {f : EStateM ε σ PUnit} {Q : α → σ → Prop}
    (hx : Returns P x Q) (hf : ∀ a, Keeps (Q a) f) : Returns P (finallyDo x f) Q := by
  intro s hs a t hr
  obtain ⟨s', hxs, hfs⟩ := finallyDo_eq_ok.1 hr
  exact (hf a).ok (hx s hs a s' hxs) hfs

theorem Returns.mono {x : EStateM ε σ α} {Q R : α → σ → Prop} (h : Returns P x Q)
    (hQ : ∀ a s, Q a s → R a s) : Returns P x R :=
  fun s hs a s' hx => hQ a s' (h s hs a s' hx)

theorem Keeps.returns {x : EStateM ε σ α} (h : Keeps I x) : Returns I x fun _ => I :=
  fun _ hs _ _ hx => h.ok hs hx

/-! ## What has been left where it stopped -/

/-- From a state with `P`, a computation that raises does so with `Q`. -/
def Raises (P : σ → Prop) (x : EStateM ε σ α) (Q : σ → Prop) : Prop :=
  ∀ s, P s → ∀ e s', x s = .error e s' → Q s'

theorem Keeps.raises {x : EStateM ε σ α} (h : Keeps I x) : Raises I x I :=
  fun _ hs _ _ hx => h.error hs hx

theorem Raises.pure (a : α) : Raises P (Pure.pure a : EStateM ε σ α) Q := by
  intro s hs e s' hr
  cases hr

theorem Raises.bind {x : EStateM ε σ α} {f : α → EStateM ε σ β} {M : α → σ → Prop}
    (hx : Raises P x Q) (hret : Returns P x M) (hf : ∀ a, Raises (M a) (f a) Q) :
    Raises P (x >>= f) Q := by
  intro s hs e s' hr
  rcases bind_eq_error.1 hr with hr | ⟨a, t, ha, hr⟩
  · exact hx s hs e s' hr
  · exact hf a t (hret s hs a t ha) e s' hr

/-- A first part that keeps what is left. -/
theorem Raises.keeps_bind {x : EStateM ε σ α} {f : α → EStateM ε σ β} (hx : Keeps I x)
    (hf : ∀ a, Raises I (f a) I) : Raises I (x >>= f) I :=
  Raises.bind hx.raises hx.returns hf

end MpcHunt.Raising
