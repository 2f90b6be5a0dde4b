/-
Pre- and postconditions on the state of a stateful computation, also of one
that may stop with an error: its state is then the one it stopped in.
-/
import Mathlib.Logic.Basic
import Mathlib.Control.Basic

namespace MpcHunt.Triples

universe u
variable {σ ε α β : Type u} {P Q R : σ → Prop}

/-- From a state with `P` the computation ends in one with `Q`. -/
def Leads (P Q : σ → Prop) (x : StateM σ α) : Prop := ∀ s, P s → Q (x s).2

/-- The computation keeps `P`. -/
abbrev Keeps (P : σ → Prop) (x : StateM σ α) : Prop := Leads P P x

theorem Leads.pure (h : ∀ s, P s → Q s) (a : α) : Leads P Q (Pure.pure a : StateM σ α) :=
  fun s hs => h s hs

theorem Leads.bind {x : StateM σ α} {f : α → StateM σ β} (hx : Leads P Q x)
    (hf : ∀ a, Leads Q R (f a)) : Leads P R (x >>= f) := by
  intro s hs
  have hmid : Q (x s).2 := hx s hs
  exact hf (x s).1 (x s).2 hmid

theorem Leads.map {x : StateM σ α} {f : α → β} (hx : Leads P Q x) : Leads P Q (f <$> x) := by
  intro s hs
  exact hx s hs

theorem Leads.ite {c : Prop} [Decidable c] {x y : StateM σ α} (hx : c → Leads P Q x)
    (hy : ¬ c → Leads P Q y) : Leads P Q (if c then x else y) := by
  by_cases h : c
  · rw [if_pos h]
    exact hx h
  · rw [if_neg h]
    exact hy h

theorem Keeps.pure (a : α) : Keeps P (Pure.pure a : StateM σ α) := Leads.pure (fun _ hs => hs) a

theorem Keeps.get : Keeps P (MonadState.get : StateM σ σ) := fun _ hs => hs

theorem Keeps.modify {f : σ → σ} (h : ∀ s, P s → P (f s)) : Keeps P (modify f : StateM σ PUnit) :=
  fun s hs => h s hs

/-! ## Computations that may stop -/

/-- As `Keeps`, of a computation that may stop. -/
def KeepsE (P : σ → Prop) (x : ExceptT ε (StateM σ) α) : Prop := ∀ s, P s → P (x s).2

theorem KeepsE.pure (a : α) : KeepsE P (Pure.pure a : ExceptT ε (StateM σ) α) := fun _ hs => hs

theorem KeepsE.throw (e : ε) : KeepsE P (throw e : ExceptT ε (StateM σ) α) := fun _ hs => hs

theorem KeepsE.get : KeepsE P (MonadState.get : ExceptT ε (StateM σ) σ) := fun _ hs => hs

/-- A bind goes on where its first part ended, or stops there. -/
theorem bindE_run (x : ExceptT ε (StateM σ) α) (f : α → ExceptT ε (StateM σ) β) (s : σ) :
    (x >>= f) s = match x s with
      | (.ok a, s') => f a s'
      | (.error e, s') => (.error e, s') := by
  show (match (x s).1 with
    | .ok a => f a
    | .error e => Pure.pure (Except.error e) : StateM σ (Except ε β)) (x s).2 = _
  cases x s with
  | mk r s' =>
    cases r with
    | ok a => rfl
    | error e => rfl

theorem getE_bind (f : σ → ExceptT ε (StateM σ) β) (s : σ) :
    ((get : ExceptT ε (StateM σ) σ) >>= f) s = f s s := rfl

theorem KeepsE.bind {x : ExceptT ε (StateM σ) α} {f : α → ExceptT ε (StateM σ) β}
    (hx : KeepsE P x) (hf : ∀ a, KeepsE P (f a)) : KeepsE P (x >>= f) := by
  intro s hs
  have hmid : P (x s).2 := hx s hs
  rw [bindE_run]
  cases h : x s with
  | mk r s' =>
    rw [h] at hmid
    cases r with
    | ok a => exact hf a s' hmid
    | error e => exact hmid

theorem KeepsE.ite {c : Prop} [Decidable c] {x y : ExceptT ε (StateM σ) α} (hx : c → KeepsE P x)
    (hy : ¬ c → KeepsE P y) : KeepsE P (if c then x else y) := by
  by_cases h : c
  · rw [if_pos h]
    exact hx h
  · rw [if_neg h]
    exact hy h

/-- From a state with `P`, a computation that returns does so with `Q`. -/
def Returns (P : σ → Prop) (x : ExceptT ε (StateM σ) α) (Q : α → σ → Prop) : Prop :=
  ∀ s, P s → ∀ a s', x s = (.ok a, s') → Q a s'

/-- A computation that did not stop did not stop on the way. -/
theorem bindE_ok {x : ExceptT ε (StateM σ) α} {f : α → ExceptT ε (StateM σ) β} {s s' : σ} {b : β}
    (h : (x >>= f) s = (.ok b, s')) : ∃ a t, x s = (.ok a, t) ∧ f a t = (.ok b, s') := by
  rw [bindE_run] at h
  cases hx : x s with
  | mk r t =>
    rw [hx] at h
    cases r with
    | ok a => exact ⟨a, t, rfl, h⟩
    | error e => cases h

theorem Returns.pure {a : α} {Q : α → σ → Prop} (h : ∀ s, P s → Q a s) :
    Returns P (Pure.pure a : ExceptT ε (StateM σ) α) Q := by
  intro s hs b s' hr
  cases hr
  exact h s hs

theorem Returns.mono {I : σ → Prop} {x : ExceptT ε (StateM σ) α} {Q : α → σ → Prop}
    (h : Returns I x Q) (hP : ∀ s, P s → I s) : Returns P x Q :=
  fun s hs => h s (hP s hs)

theorem Returns.throw (e : ε) (Q : α → σ → Prop) :
    Returns P (throw e : ExceptT ε (StateM σ) α) Q := by
  intro s hs a s' hr
  cases hr

theorem Returns.bind {x : ExceptT ε (StateM σ) α} {f : α → ExceptT ε (StateM σ) β}
    {M : α → σ → Prop} {Q : β → σ → Prop} (hx : Returns P x M)
    (hf : ∀ a, Returns (M a) (f a) Q) : Returns P (x >>= f) Q := by
  intro s hs b s' hr
  obtain ⟨a, t, hxs, hfs⟩ := bindE_ok hr
  exact hf a t (hx s hs a t hxs) b s' hfs

theorem Returns.ite {c : Prop} [Decidable c] {x y : ExceptT ε (StateM σ) α} {Q : α → σ → Prop}
    (hx : c → Returns P x Q) (hy : ¬ c → Returns P y Q) : Returns P (if c then x else y) Q := by
  by_cases h : c
  · rw [if_pos h]
    exact hx h
  · rw [if_neg h]
    exact hy h

theorem KeepsE.returns {x : ExceptT ε (StateM σ) α} (h : KeepsE P x) :
    Returns P x fun _ => P := by
  intro s hs a s' hr
  have hend := h s hs
  rw [hr] at hend
  exact hend

end MpcHunt.Triples
