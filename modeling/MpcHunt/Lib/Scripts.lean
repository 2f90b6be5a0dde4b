/-
Programs that may stop with an error, as a shell script under `set -e` does:
what such a program has established where it goes through to its end. Of one
that stops nothing is said but that every step it took was allowed.
-/
import MpcHunt.Lib.Processes

namespace MpcHunt.Processes

variable {C : Type} {R : C → Type} {α β W P : Type} {ε : Type}

section
variable (exec : P → W → (c : C) → R c → W → Prop) (D : Discipline W P) (p : P)

/-- Where the script goes through from `Pre`, it ends in `Post`. -/
def Does (Pre : W → Prop) (x : ExceptT ε (Prog C R) α) (Post : α → W → Prop) : Prop :=
  Triple exec D p Pre x.run fun r w => ∀ a, r = .ok a → Post a w

end

variable {exec : P → W → (c : C) → R c → W → Prop} {D : Discipline W P} {p : P}
  {Pre Pre' : W → Prop}

theorem Does.bind {Mid : α → W → Prop} {Post : β → W → Prop} {x : ExceptT ε (Prog C R) α}
    {f : α → ExceptT ε (Prog C R) β} (hx : Does exec D p Pre x Mid)
    (hf : ∀ a, Does exec D p (Mid a) (f a) Post) : Does exec D p Pre (x >>= f) Post := by
  refine Triple.bind hx fun r => ?_
  cases r with
  | ok a => exact (hf a).mono (fun w _ hmid => hmid a rfl) fun _ _ _ h => h
  | error e => exact .pure (fun _ _ _ _ h a ha => by cases ha) fun _ _ _ a ha => by cases ha

theorem Does.pure {Post : α → W → Prop} {a : α} (hstable : Stable D p Pre)
    (h : ∀ w, D.Inv w → Pre w → Post a w) :
    Does exec D p Pre (Pure.pure a : ExceptT ε (Prog C R) α) Post :=
  Triple.pure hstable fun w hinv hpre b hb => by
    obtain rfl := Except.ok.inj hb
    exact h w hinv hpre

/-- A step that changes nothing: what it computes, or the end. -/
theorem Does.except {Post : α → W → Prop} {x : Except ε α} (hstable : Stable D p Pre)
    (h : ∀ a w, x = .ok a → D.Inv w → Pre w → Post a w) :
    Does exec D p Pre (ExceptT.mk (Pure.pure x)) Post :=
  Triple.pure hstable fun w hinv hpre a ha => h a w ha hinv hpre

theorem Safe.map {f : α → β} {Q : β → W → Prop} {x : Prog C R α} {w : W}
    (h : Safe exec D p x (fun a => Q (f a)) w) :
    Safe exec D p (x >>= fun a => Prog.ret (f a)) Q w := by
  induction x generalizing w with
  | ret a => exact h
  | call c k ih =>
    intro w' hrely hinv r w'' hexec
    obtain ⟨hinv', hguar, hk⟩ := h w' hrely hinv r w'' hexec
    exact ⟨hinv', hguar, ih r hk⟩

/-- A step of the program below. -/
theorem Does.lift {Post : α → W → Prop} {x : Prog C R α} (h : Triple exec D p Pre x Post) :
    Does exec D p Pre (ExceptT.lift x : ExceptT ε (Prog C R) α) Post := by
  intro w hinv hpre
  refine Safe.map ((h w hinv hpre).mono fun a w' _ hpost b hb => ?_)
  obtain rfl := Except.ok.inj hb
  exact hpost

/-- A check or a computation, and what comes after it where it does not stop. -/
theorem Does.check {Post : β → W → Prop} {x : Except ε α} {f : α → ExceptT ε (Prog C R) β}
    (hstable : Stable D p Pre) (h : ∀ a, x = .ok a → Does exec D p Pre (f a) Post) :
    Does exec D p Pre (ExceptT.mk (Pure.pure x) >>= f) Post := by
  have hx : Does exec D p Pre (ExceptT.mk (Pure.pure x)) fun a w => Pre w ∧ x = .ok a :=
    Does.except hstable fun a w ha _ hpre => ⟨hpre, ha⟩
  exact Does.bind hx fun a => Triple.given (h a)

/-- A question to the world that changes nothing. -/
theorem Does.query {c : C} {Post : R c → W → Prop} (hstable : Stable D p Pre)
    (hpost : ∀ r, Stable D p (Post r))
    (h : ∀ w r w', D.Inv w → exec p w c r w' → w' = w ∧ Post r w) :
    Does exec D p Pre (ExceptT.lift (.perform c) : ExceptT ε (Prog C R) (R c))
      fun r w => Pre w ∧ Post r w := by
  refine Does.lift (.perform hstable (fun r => hstable.and (hpost r)) fun w hinv hpre r w' hexec => ?_)
  obtain ⟨rfl, hr⟩ := h w r w' hinv hexec
  exact ⟨hinv, fun q _ => D.refl q w', hpre, hr⟩

theorem Does.mono {Post Post' : α → W → Prop} {x : ExceptT ε (Prog C R) α}
    (h : Does exec D p Pre x Post) (hpre : ∀ w, D.Inv w → Pre' w → Pre w)
    (hpost : ∀ a w, D.Inv w → Post a w → Post' a w) : Does exec D p Pre' x Post' :=
  Triple.mono h hpre fun _ w hinv hr a ha => hpost a w hinv (hr a ha)

theorem Does.ite {Post : α → W → Prop} {c : Prop} [Decidable c] {x y : ExceptT ε (Prog C R) α}
    (hx : c → Does exec D p Pre x Post) (hy : ¬ c → Does exec D p Pre y Post) :
    Does exec D p Pre (if c then x else y) Post := by
  by_cases hc : c
  · rw [if_pos hc]
    exact hx hc
  · rw [if_neg hc]
    exact hy hc

/-- What does not depend on the world may be taken out of the precondition. -/
theorem Does.given {c : Prop} {Post : α → W → Prop} {x : ExceptT ε (Prog C R) α}
    (h : c → Does exec D p Pre x Post) : Does exec D p (fun w => Pre w ∧ c) x Post :=
  Triple.given h

/-! ## A run of one script -/

section
variable {w w' w'' : W}

theorem Runs.script_bind {x : ExceptT ε (Prog C R) α} {f : α → ExceptT ε (Prog C R) β} {a : α}
    {r : Except ε β} (hx : Runs exec p w x.run (.ok a) w') (hf : Runs exec p w' (f a).run r w'') :
    Runs exec p w (x >>= f).run r w'' :=
  Runs.bind hx hf

theorem Runs.script_check {a : α} {x : Except ε α} {f : α → ExceptT ε (Prog C R) β}
    {r : Except ε β} (hx : x = .ok a) (hf : Runs exec p w (f a).run r w') :
    Runs exec p w (ExceptT.mk (Pure.pure x) >>= f).run r w' := by
  subst hx
  exact hf

theorem Runs.script_query {c : C} {a : R c} (h : exec p w c a w') :
    Runs exec p w (ExceptT.lift (.perform c) : ExceptT ε (Prog C R) (R c)).run (.ok a) w' :=
  .call h .ret

/-! ## What a run of one script has done -/

theorem Runs.of_script_bind {x : ExceptT ε (Prog C R) α} {f : α → ExceptT ε (Prog C R) β}
    {r : Except ε β} (h : Runs exec p w (x >>= f).run r w'') :
    (∃ e, r = .error e ∧ Runs exec p w x.run (.error e) w'') ∨
      ∃ a w', Runs exec p w x.run (.ok a) w' ∧ Runs exec p w' (f a).run r w'' := by
  obtain ⟨status, w', hx, hf⟩ := Runs.of_bind h
  cases status with
  | error e =>
    obtain ⟨rfl, rfl⟩ := Runs.of_pure hf
    exact .inl ⟨e, rfl, hx⟩
  | ok a => exact .inr ⟨a, w', hx, hf⟩

theorem Runs.of_script_check {x : Except ε α} {f : α → ExceptT ε (Prog C R) β} {r : Except ε β}
    (h : Runs exec p w (ExceptT.mk (Pure.pure x) >>= f).run r w') :
    (∃ e, x = .error e ∧ r = .error e ∧ w' = w) ∨
      ∃ a, x = .ok a ∧ Runs exec p w (f a).run r w' := by
  cases x with
  | error e =>
    obtain ⟨rfl, rfl⟩ := Runs.of_pure h
    exact .inl ⟨e, rfl, rfl, rfl⟩
  | ok a => exact .inr ⟨a, rfl, h⟩

theorem Runs.of_script_query {c : C} {f : R c → ExceptT ε (Prog C R) β} {r : Except ε β}
    (h : Runs exec p w ((ExceptT.lift (.perform c) : ExceptT ε (Prog C R) (R c)) >>= f).run r w'') :
    ∃ a w', exec p w c a w' ∧ Runs exec p w' (f a).run r w'' := by
  cases h with
  | call hexec hk => exact ⟨_, _, hexec, hk⟩

end

/-! ## One process alone -/

section
variable {exec : Unit → W → (c : C) → R c → W → Prop} {Inv Inv' Pre : W → Prop}

/-- Nothing else takes a step. -/
def solo (Inv : W → Prop) : Discipline W Unit where
  Inv := Inv
  Rely _ w w' := w' = w
  refl _ _ := rfl
  trans h h' := h'.trans h

theorem Stable.solo (Inv Pre : W → Prop) : Stable (solo Inv) () Pre := by
  intro w w' hrely _ hpre
  obtain rfl : w' = w := hrely
  exact hpre

/-- One command of a process that is alone. -/
theorem Triple.solo {c : C} {Post : R c → W → Prop}
    (h : ∀ w, Inv w → Pre w → ∀ r w', exec () w c r w' → Inv w' ∧ Post r w') :
    Triple exec (solo Inv) () Pre (.perform c) Post := by
  refine .perform (.solo Inv Pre) (fun r => .solo Inv (Post r)) fun w hinv hpre r w' hexec => ?_
  obtain ⟨hinv', hpost⟩ := h w hinv hpre r w' hexec
  exact ⟨hinv', fun q hq => absurd rfl hq, hpost⟩

/-- A question of a process that is alone. -/
theorem Triple.ask {c : C} {Q : R c → W → Prop}
    (h : ∀ w r w', exec () w c r w' → w' = w ∧ Q r w) :
    Triple exec (Processes.solo Inv) () Pre (.perform c) fun r w => Pre w ∧ Q r w := by
  refine .solo fun w hinv hpre r w' hexec => ?_
  obtain ⟨rfl, hq⟩ := h w r w' hexec
  exact ⟨hinv, hpre, hq⟩

theorem Safe.widen (himp : ∀ w, Inv' w → Inv w) {x : Prog C R α} {Q : α → W → Prop} {w : W}
    (hw : Inv' w) (h : Safe exec (solo Inv') () x Q w) :
    Safe exec (solo Inv) () x (fun a w => Inv' w ∧ Q a w) w := by
  induction x generalizing w with
  | ret a =>
    intro w' hrely _
    obtain rfl : w' = w := hrely
    exact ⟨hw, h w' rfl hw⟩
  | call c k ih =>
    intro w' hrely _ r w'' hexec
    obtain rfl : w' = w := hrely
    obtain ⟨hinv', -, hk⟩ := h w' rfl hw r w'' hexec
    exact ⟨himp w'' hinv', fun q hq => absurd rfl hq, ih r hinv' hk⟩

/-- What a part of a program keeps beyond the invariant of the whole. -/
theorem Triple.widen (himp : ∀ w, Inv' w → Inv w) {x : Prog C R α} {Post : α → W → Prop}
    (h : Triple exec (Processes.solo Inv') () Pre x Post) :
    Triple exec (Processes.solo Inv) () (fun w => Inv' w ∧ Pre w) x fun a w => Inv' w ∧ Post a w :=
  fun w _ hw => (h w hw.1 hw.2).widen himp hw.1

end

end MpcHunt.Processes
