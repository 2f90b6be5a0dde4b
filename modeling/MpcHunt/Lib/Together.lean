/-
Whether a computation raises: decided by a condition in which its state has no
part (`Decides`), or the same for two computations that run side by side
(`Together`).
-/
import MpcHunt.Lib.Raising

namespace MpcHunt.Raising

universe u
variable {ε σ τ α β α' β' : Type u} {C C' D φ : Prop}

/-! ## One run -/

/-- From a state with `P`, the computation returns just where `C`, and then with `Q`. -/
def Decides (P : σ → Prop) (x : EStateM ε σ α) (C : Prop) (Q : α → σ → Prop) : Prop :=
  ∀ s, P s → (C ∧ ∃ a s', x s = .ok a s' ∧ Q a s') ∨ (¬ C ∧ ∃ e s', x s = .error e s')

section
variable {P : σ → Prop} {Q Q' : α → σ → Prop}

theorem Decides.pure {a : α} (hC : C) (h : ∀ s, P s → Q a s) :
    Decides P (Pure.pure a : EStateM ε σ α) C Q :=
  fun s hs => .inl ⟨hC, a, s, rfl, h s hs⟩

theorem Decides.throw (hC : ¬ C) (e : ε) : Decides P (throw e : EStateM ε σ α) C Q :=
  fun s _ => .inr ⟨hC, e, s, rfl⟩

/-- The condition of the rest is about what both know, not about what the first part returns. -/
theorem Decides.bind {x : EStateM ε σ α} {f : α → EStateM ε σ β} {M : α → σ → Prop}
    {R : β → σ → Prop} (hx : Decides P x C M) (hf : C → ∀ a, Decides (M a) (f a) D R) :
    Decides P (x >>= f) (C ∧ D) R := by
  intro s hs
  rcases hx s hs with ⟨hC, a, s', hr, ha⟩ | ⟨hC, e, s', hr⟩
  · simp only [Bind.bind, EStateM.bind, hr]
    rcases hf hC a s' ha with ⟨hD, hend⟩ | ⟨hD, hend⟩
    · exact .inl ⟨⟨hC, hD⟩, hend⟩
    · exact .inr ⟨fun h => hD h.2, hend⟩
  · simp only [Bind.bind, EStateM.bind, hr]
    exact .inr ⟨fun h => hC h.1, e, s', rfl⟩

theorem Decides.mono {x : EStateM ε σ α} (h : Decides P x C Q) (hC : C ↔ C')
    (hQ : C → ∀ a s, Q a s → Q' a s) : Decides P x C' Q' := by
  intro s hs
  rcases h s hs with ⟨h, a, s', hr, ha⟩ | ⟨h, hr⟩
  · exact .inl ⟨hC.1 h, a, s', hr, hQ h a s' ha⟩
  · exact .inr ⟨fun h' => h (hC.2 h'), hr⟩

/-- What is known of a value besides the state. -/
theorem Decides.of_fact {x : EStateM ε σ α} (h : φ → Decides P x C Q) :
    Decides (fun s => P s ∧ φ) x C Q :=
  fun s hs => h hs.2 s hs.1

/-- A computation that looks at its state and says what is there. -/
theorem Decides.of_eq_ok {x : EStateM ε σ α} {v : α}
    (h : ∀ s a s', x s = .ok a s' ↔ C ∧ a = v ∧ s' = s) :
    Decides P x C fun a s => P s ∧ a = v := by
  intro s hs
  cases hr : x s with
  | ok a s' =>
    obtain ⟨hC, ha, hend⟩ := (h s a s').1 hr
    exact .inl ⟨hC, a, s', rfl, hend ▸ hs, ha⟩
  | error e s' =>
    refine .inr ⟨fun hC => ?_, e, s', rfl⟩
    rw [(h s v s).2 ⟨hC, rfl, rfl⟩] at hr
    cases hr

end

/-! ## Two runs -/

/-- From states related by `P`, both return, related by `Q`, or both raise. -/
def Together (P : σ → τ → Prop) (x : EStateM ε σ α) (y : EStateM ε τ β)
    (Q : α → β → σ → τ → Prop) : Prop :=
  ∀ s t, P s t → (∃ a s' b t', x s = .ok a s' ∧ y t = .ok b t' ∧ Q a b s' t') ∨
    ∃ e s' e' t', x s = .error e s' ∧ y t = .error e' t'

section
variable {P : σ → τ → Prop} {Q Q' : α → β → σ → τ → Prop}

theorem Together.pure {a : α} {b : β} (h : ∀ s t, P s t → Q a b s t) :
    Together P (Pure.pure a : EStateM ε σ α) (Pure.pure b : EStateM ε τ β) Q :=
  fun s t hst => .inl ⟨a, s, b, t, rfl, rfl, h s t hst⟩

theorem Together.bind {x : EStateM ε σ α} {y : EStateM ε τ β} {f : α → EStateM ε σ α'}
    {g : β → EStateM ε τ β'} {M : α → β → σ → τ → Prop} {R : α' → β' → σ → τ → Prop}
    (hx : Together P x y M) (hf : ∀ a b, Together (M a b) (f a) (g b) R) :
    Together P (x >>= f) (y >>= g) R := by
  intro s t hst
  rcases hx s t hst with ⟨a, s', b, t', hs, ht, hab⟩ | ⟨e, s', e', t', hs, ht⟩
  · simp only [Bind.bind, EStateM.bind, hs, ht]
    exact hf a b s' t' hab
  · simp only [Bind.bind, EStateM.bind, hs, ht]
    exact .inr ⟨e, s', e', t', rfl, rfl⟩

theorem Together.mono {x : EStateM ε σ α} {y : EStateM ε τ β} {P' : σ → τ → Prop}
    (h : Together P x y Q) (hP : ∀ s t, P' s t → P s t)
    (hQ : ∀ a b s t, Q a b s t → Q' a b s t) : Together P' x y Q' := by
  intro s t hst
  rcases h s t (hP s t hst) with ⟨a, s', b, t', hs, ht, hab⟩ | herror
  · exact .inl ⟨a, s', b, t', hs, ht, hQ a b s' t' hab⟩
  · exact .inr herror

theorem Together.of_fact {x : EStateM ε σ α} {y : EStateM ε τ β} (h : φ → Together P x y Q) :
    Together (fun s t => P s t ∧ φ) x y Q :=
  fun s t hst => h hst.2 s t hst.1

theorem finallyDo_raises {x : EStateM ε σ α} (f : EStateM ε σ PUnit) {s s' : σ} {e : ε}
    (h : x s = .error e s') : ∃ e' t, finallyDo x f s = .error e' t := by
  simp only [finallyDo, h]
  cases f s' with
  | ok _ t => exact ⟨e, t, rfl⟩
  | error e' t => exact ⟨e', t, rfl⟩

theorem onRaise_raises {x : EStateM ε σ α} (f : EStateM ε σ PUnit) {s s' : σ} {e : ε}
    (h : x s = .error e s') : ∃ e' t, onRaise x f s = .error e' t := by
  simp only [onRaise, h]
  cases f s' with
  | ok _ t => exact ⟨e, t, rfl⟩
  | error e' t => exact ⟨e', t, rfl⟩

/-- The `finally` raises on both sides or on none, and so does what it follows. -/
theorem Together.finallyDo {x : EStateM ε σ α} {y : EStateM ε τ β} {f : EStateM ε σ PUnit}
    {g : EStateM ε τ PUnit} {M : α → β → σ → τ → Prop} (hx : Together P x y M)
    (hf : ∀ a b, Together (M a b) f g fun _ _ => Q a b) :
    Together P (finallyDo x f) (finallyDo y g) Q := by
  intro s t hst
  rcases hx s t hst with ⟨a, s', b, t', hs, ht, hab⟩ | ⟨e, s', e', t', hs, ht⟩
  · rcases hf a b s' t' hab with ⟨_, s'', _, t'', hs', ht', hend⟩ | ⟨e, s'', e', t'', hs', ht'⟩
    · exact .inl ⟨a, s'', b, t'', by simp only [Raising.finallyDo, hs, hs'],
        by simp only [Raising.finallyDo, ht, ht'], hend⟩
    · exact .inr ⟨e, s'', e', t'', by simp only [Raising.finallyDo, hs, hs'],
        by simp only [Raising.finallyDo, ht, ht']⟩
  · obtain ⟨e1, v, hs'⟩ := finallyDo_raises f hs
    obtain ⟨e2, w, ht'⟩ := finallyDo_raises g ht
    exact .inr ⟨e1, v, e2, w, hs', ht'⟩

theorem Together.onRaise {x : EStateM ε σ α} {y : EStateM ε τ β} (f : EStateM ε σ PUnit)
    (g : EStateM ε τ PUnit) (h : Together P x y Q) :
    Together P (onRaise x f) (onRaise y g) Q := by
  intro s t hst
  rcases h s t hst with ⟨a, s', b, t', hs, ht, hab⟩ | ⟨e, s', e', t', hs, ht⟩
  · exact .inl ⟨a, s', b, t', onRaise_eq_ok.2 hs, onRaise_eq_ok.2 ht, hab⟩
  · obtain ⟨e1, v, hs'⟩ := onRaise_raises f hs
    obtain ⟨e2, w, ht'⟩ := onRaise_raises g ht
    exact .inr ⟨e1, v, e2, w, hs', ht'⟩

/-- What each run establishes by itself. -/
theorem Together.returns {x : EStateM ε σ α} {y : EStateM ε τ β} {L : σ → Prop} {K : τ → Prop}
    {L' : α → σ → Prop} {K' : β → τ → Prop} (h : Together P x y Q) (hx : Returns L x L')
    (hy : Returns K y K') (hP : ∀ s t, P s t → L s ∧ K t) :
    Together P x y fun a b s t => L' a s ∧ K' b t ∧ Q a b s t := by
  intro s t hst
  obtain ⟨hL, hK⟩ := hP s t hst
  rcases h s t hst with ⟨a, s', b, t', hs, ht, hab⟩ | herror
  · exact .inl ⟨a, s', b, t', hs, ht, hx s hL a s' hs, hy t hK b t' ht, hab⟩
  · exact .inr herror

/-- Each run decided for itself, by the same condition: what it does keeps the two states in `S`,
whatever the other is. -/
theorem Together.of_decides {x : EStateM ε σ α} {y : EStateM ε τ β} {S : σ → τ → Prop}
    {L : σ → Prop} {K : τ → Prop} {L' : α → σ → Prop} {K' : β → τ → Prop}
    (hx : ∀ t, Decides (fun s => L s ∧ S s t) x C fun a s => L' a s ∧ S s t)
    (hy : ∀ s, Decides (fun t => K t ∧ S s t) y C' fun b t => K' b t ∧ S s t) (hC : C ↔ C') :
    Together (fun s t => L s ∧ K t ∧ S s t) x y fun a b s t => L' a s ∧ K' b t ∧ S s t := by
  rintro s t ⟨hL, hK, hS⟩
  rcases hx t s ⟨hL, hS⟩ with ⟨h, a, s', hs, hL', hS'⟩ | ⟨h, e, s', hs⟩
  · rcases hy s' t ⟨hK, hS'⟩ with ⟨-, b, t', ht, hK', hS''⟩ | ⟨h', -⟩
    · exact .inl ⟨a, s', b, t', hs, ht, hL', hK', hS''⟩
    · exact absurd (hC.1 h) h'
  · rcases hy s t ⟨hK, hS⟩ with ⟨h', -⟩ | ⟨-, e', t', ht⟩
    · exact absurd (hC.2 h') h
    · exact .inr ⟨e, s', e', t', hs, ht⟩

end

end MpcHunt.Raising
