/-
Processes over a shared world. A process is a program of commands; the
commands of all processes interleave in any order, and any process may be
killed between two of them. With it, rely-guarantee reasoning: what each
process keeps true whatever the others do, every run keeps true.
-/
import Mathlib

namespace MpcHunt

/-- A program: a result, or a command and what is done on each answer. -/
inductive Prog (C : Type) (R : C → Type) (α : Type) where
  | ret (a : α)
  | call (c : C) (k : R c → Prog C R α)

namespace Prog

variable {C : Type} {R : C → Type} {α β : Type}

protected def bind : Prog C R α → (α → Prog C R β) → Prog C R β
  | ret a, f => f a
  | call c k, f => call c fun r => (k r).bind f

instance : Monad (Prog C R) where
  pure := ret
  bind := Prog.bind

/-- One command. -/
def perform (c : C) : Prog C R (R c) := call c ret

@[simp] theorem ret_bind (a : α) (f : α → Prog C R β) : (ret a >>= f) = f a := rfl

@[simp] theorem call_bind (c : C) (k : R c → Prog C R α) (f : α → Prog C R β) :
    (call c k >>= f) = call c fun r => k r >>= f := rfl

end Prog

namespace Processes

variable {C : Type} {R : C → Type} {α β W P : Type}

/-- The world, and what each process has still to do; none when it has been killed. -/
structure System (C : Type) (R : C → Type) (W P : Type) where
  world : W
  procs : P → Option (Prog C R Unit)

section
variable (exec : P → W → (c : C) → R c → W → Prop)

/-- One command of one process, or the end of one. -/
inductive Step [DecidableEq P] : System C R W P → System C R W P → Prop
  | command {s : System C R W P} {p : P} {c : C} {k : R c → Prog C R Unit} {r : R c} {w : W}
      (hp : s.procs p = some (.call c k)) (h : exec p s.world c r w) :
      Step s ⟨w, Function.update s.procs p (some (k r))⟩
  | kill (s : System C R W P) (p : P) : Step s ⟨s.world, Function.update s.procs p none⟩

/-- The states a run leads to. -/
def Reach [DecidableEq P] : System C R W P → System C R W P → Prop := Relation.ReflTransGen (Step exec)

/-- A program run alone, from one world to another. -/
inductive Runs (p : P) : W → Prog C R α → α → W → Prop
  | ret {w : W} {a : α} : Runs p w (.ret a) a w
  | call {w w' w'' : W} {c : C} {k : R c → Prog C R α} {r : R c} {a : α} (h : exec p w c r w')
      (hk : Runs p w' (k r) a w'') : Runs p w (.call c k) a w''

end

/-! ## Rely and guarantee -/

/-- An invariant of the world, and what each process may rely on while others take steps. -/
structure Discipline (W P : Type) where
  Inv : W → Prop
  Rely : P → W → W → Prop
  refl : ∀ p w, Rely p w w
  trans : ∀ {p w w' w''}, Rely p w w' → Rely p w' w'' → Rely p w w''

section
variable (exec : P → W → (c : C) → R c → W → Prop) (D : Discipline W P) (p : P)

/-- Each command keeps the invariant and what the others rely on, whatever they do between two,
and what follows the last one is so. -/
def Safe : Prog C R α → (α → W → Prop) → W → Prop
  | .ret a, Q, w => ∀ w', D.Rely p w w' → D.Inv w' → Q a w'
  | .call c k, Q, w => ∀ w', D.Rely p w w' → D.Inv w' → ∀ r w'', exec p w' c r w'' →
      D.Inv w'' ∧ (∀ q, q ≠ p → D.Rely q w' w'') ∧ Safe (k r) Q w''

/-- What the steps of the others leave true. -/
def Stable (Pre : W → Prop) : Prop := ∀ w w', D.Rely p w w' → D.Inv w' → Pre w → Pre w'

/-- A program that is safe wherever `Pre` holds, with `Post` at its end. -/
def Triple (Pre : W → Prop) (x : Prog C R α) (Post : α → W → Prop) : Prop :=
  ∀ w, D.Inv w → Pre w → Safe exec D p x Post w

end

variable {exec : P → W → (c : C) → R c → W → Prop} {D : Discipline W P} {p : P}

theorem Safe.stable {x : Prog C R α} {Q : α → W → Prop} {w w' : W} (h : Safe exec D p x Q w)
    (hrely : D.Rely p w w') : Safe exec D p x Q w' := by
  cases x with
  | ret a => exact fun w'' hw'' hinv => h w'' (D.trans hrely hw'') hinv
  | call c k => exact fun w'' hw'' hinv => h w'' (D.trans hrely hw'') hinv

theorem Safe.bind {x : Prog C R α} {f : α → Prog C R β} {Q : β → W → Prop} {w : W} (hw : D.Inv w)
    (h : Safe exec D p x (fun a w => Safe exec D p (f a) Q w) w) :
    Safe exec D p (x >>= f) Q w := by
  induction x generalizing w with
  | ret a => exact h w (D.refl p w) hw
  | call c k ih =>
    intro w' hrely hinv r w'' hexec
    obtain ⟨hinv', hguar, hsafe⟩ := h w' hrely hinv r w'' hexec
    exact ⟨hinv', hguar, ih r hinv' hsafe⟩

theorem Safe.mono {x : Prog C R α} {Q Q' : α → W → Prop} {w : W} (h : Safe exec D p x Q w)
    (hQ : ∀ a w, D.Inv w → Q a w → Q' a w) : Safe exec D p x Q' w := by
  induction x generalizing w with
  | ret a => exact fun w' hrely hinv => hQ a w' hinv (h w' hrely hinv)
  | call c k ih =>
    intro w' hrely hinv r w'' hexec
    obtain ⟨hinv', hguar, hsafe⟩ := h w' hrely hinv r w'' hexec
    exact ⟨hinv', hguar, ih r hsafe⟩

/-- What one step keeps: the invariant, and that every process that is left is safe. -/
theorem Step.keeps [DecidableEq P] {s s' : System C R W P} (hstep : Step exec s s')
    (hinv : D.Inv s.world)
    (hsafe : ∀ p x, s.procs p = some x → Safe exec D p x (fun _ _ => True) s.world) :
    D.Inv s'.world ∧
      ∀ p x, s'.procs p = some x → Safe exec D p x (fun _ _ => True) s'.world := by
  cases hstep with
  | @command p c k r w hp hexec =>
    obtain ⟨hinv', hguar, hk⟩ := hsafe p _ hp _ (D.refl p _) hinv r w hexec
    refine ⟨hinv', fun q x hq => ?_⟩
    dsimp only at hq ⊢
    by_cases hqp : q = p
    · subst hqp
      rw [Function.update_self] at hq
      cases hq
      exact hk
    · rw [Function.update_of_ne hqp] at hq
      exact (hsafe q x hq).stable (hguar q hqp)
  | kill p =>
    refine ⟨hinv, fun q x hq => ?_⟩
    dsimp only at hq ⊢
    by_cases hqp : q = p
    · subst hqp
      rw [Function.update_self] at hq
      cases hq
    · rw [Function.update_of_ne hqp] at hq
      exact hsafe q x hq

/-- Where every process starts safe, every run keeps the invariant, and those left are safe. -/
theorem safe_of_reach [DecidableEq P] {s s' : System C R W P} (hinv : D.Inv s.world)
    (hsafe : ∀ p x, s.procs p = some x → Safe exec D p x (fun _ _ => True) s.world)
    (hreach : Reach exec s s') : D.Inv s'.world ∧
      ∀ p x, s'.procs p = some x → Safe exec D p x (fun _ _ => True) s'.world := by
  induction hreach with
  | refl => exact ⟨hinv, hsafe⟩
  | tail _ hstep ih => exact hstep.keeps ih.1 ih.2

theorem inv_of_reach [DecidableEq P] {s s' : System C R W P} (hinv : D.Inv s.world)
    (hsafe : ∀ p x, s.procs p = some x → Safe exec D p x (fun _ _ => True) s.world)
    (hreach : Reach exec s s') : D.Inv s'.world := (safe_of_reach hinv hsafe hreach).1

/-- A process may have a discipline of its own, from some state of a run on: what that asks beyond
the common one the steps of the others leave true. -/
theorem inv_of_reach_own [DecidableEq P] {D' : Discipline W P} {s s' : System C R W P}
    (hothers : ∀ q, q ≠ p → ∀ w c r w', exec q w c r w' → D'.Inv w → D.Inv w' → D.Rely p w w' →
      D'.Inv w' ∧ D'.Rely p w w')
    (hinv : D.Inv s.world)
    (hsafe : ∀ q x, s.procs q = some x → Safe exec D q x (fun _ _ => True) s.world)
    (hinv' : D'.Inv s.world)
    (hsafe' : ∀ x, s.procs p = some x → Safe exec D' p x (fun _ _ => True) s.world)
    (hreach : Reach exec s s') : D'.Inv s'.world := by
  suffices h : D'.Inv s'.world ∧
      ∀ x, s'.procs p = some x → Safe exec D' p x (fun _ _ => True) s'.world from h.1
  induction hreach with
  | refl => exact ⟨hinv', hsafe'⟩
  | tail hreach hstep ih =>
    obtain ⟨hcommon, hall⟩ := safe_of_reach hinv hsafe hreach
    obtain ⟨hown, hsafe'⟩ := ih
    cases hstep with
    | @command q c k r w hq hexec =>
      by_cases hqp : q = p
      · subst hqp
        obtain ⟨hown', -, hk⟩ := hsafe' _ hq _ (D'.refl q _) hown r w hexec
        refine ⟨hown', fun x hx => ?_⟩
        dsimp only at hx ⊢
        rw [Function.update_self] at hx
        cases hx
        exact hk
      · obtain ⟨hcommon', hguar, -⟩ := hall q _ hq _ (D.refl q _) hcommon r w hexec
        obtain ⟨hown', hrely⟩ := hothers q hqp _ c r w hexec hown hcommon'
          (hguar p (Ne.symm hqp))
        refine ⟨hown', fun x hx => ?_⟩
        dsimp only at hx ⊢
        rw [Function.update_of_ne (Ne.symm hqp)] at hx
        exact (hsafe' x hx).stable hrely
    | kill q =>
      refine ⟨hown, fun x hx => ?_⟩
      dsimp only at hx ⊢
      by_cases hqp : q = p
      · subst hqp
        rw [Function.update_self] at hx
        cases hx
      · rw [Function.update_of_ne (Ne.symm hqp)] at hx
        exact hsafe' x hx

/-- What every command keeps of the world, every run keeps. -/
theorem world_of_reach [DecidableEq P] {Q : W → Prop}
    (hkeeps : ∀ p w c r w', exec p w c r w' → Q w → Q w') {s s' : System C R W P}
    (hreach : Reach exec s s') (h : Q s.world) : Q s'.world := by
  induction hreach with
  | refl => exact h
  | tail _ hstep ih =>
    cases hstep with
    | command _ hexec => exact hkeeps _ _ _ _ _ hexec ih
    | kill => exact ih

/-! ## Rules -/

theorem Stable.and {Pre Pre' : W → Prop} (h : Stable D p Pre) (h' : Stable D p Pre') :
    Stable D p fun w => Pre w ∧ Pre' w :=
  fun w w' hrely hinv hw => ⟨h w w' hrely hinv hw.1, h' w w' hrely hinv hw.2⟩

theorem Stable.exists {Pre : α → W → Prop} (h : ∀ a, Stable D p (Pre a)) :
    Stable D p fun w => ∃ a, Pre a w :=
  fun w w' hrely hinv ⟨a, hw⟩ => ⟨a, h a w w' hrely hinv hw⟩

theorem Stable.given {c : Prop} {Pre : W → Prop} (h : Stable D p Pre) :
    Stable D p fun w => c → Pre w :=
  fun w w' hrely hinv hw hc => h w w' hrely hinv (hw hc)

theorem Stable.const (c : Prop) : Stable D p fun _ : W => c := fun _ _ _ _ h => h

theorem Triple.pure {Pre : W → Prop} {Post : α → W → Prop} {a : α} (hstable : Stable D p Pre)
    (h : ∀ w, D.Inv w → Pre w → Post a w) : Triple exec D p Pre (pure a) Post :=
  fun _ _ hpre w' hrely hinv => h w' hinv (hstable _ w' hrely hinv hpre)

theorem Triple.bind {Pre : W → Prop} {Mid : α → W → Prop} {Post : β → W → Prop}
    {x : Prog C R α} {f : α → Prog C R β} (hx : Triple exec D p Pre x Mid)
    (hf : ∀ a, Triple exec D p (Mid a) (f a) Post) : Triple exec D p Pre (x >>= f) Post :=
  fun w hinv hpre => .bind hinv ((hx w hinv hpre).mono fun a w' hinv' hmid => hf a w' hinv' hmid)

theorem Triple.ite {Pre : W → Prop} {Post : α → W → Prop} {c : Prop} [Decidable c]
    {x y : Prog C R α} (hx : c → Triple exec D p Pre x Post)
    (hy : ¬ c → Triple exec D p Pre y Post) :
    Triple exec D p Pre (if c then x else y) Post := by
  by_cases hc : c
  · rw [if_pos hc]
    exact hx hc
  · rw [if_neg hc]
    exact hy hc

/-- What does not depend on the world may be taken out of the precondition. -/
theorem Triple.given {c : Prop} {Pre : W → Prop} {Post : α → W → Prop} {x : Prog C R α}
    (h : c → Triple exec D p Pre x Post) : Triple exec D p (fun w => Pre w ∧ c) x Post :=
  fun w hinv hw => h hw.2 w hinv hw.1

theorem Triple.exists {Pre : β → W → Prop} {Post : α → W → Prop} {x : Prog C R α}
    (h : ∀ b, Triple exec D p (Pre b) x Post) : Triple exec D p (fun w => ∃ b, Pre b w) x Post :=
  fun w hinv ⟨b, hw⟩ => h b w hinv hw

theorem Triple.mono {Pre Pre' : W → Prop} {Post Post' : α → W → Prop} {x : Prog C R α}
    (h : Triple exec D p Pre x Post) (hpre : ∀ w, D.Inv w → Pre' w → Pre w)
    (hpost : ∀ a w, D.Inv w → Post a w → Post' a w) : Triple exec D p Pre' x Post' :=
  fun w hinv hw => (h w hinv (hpre w hinv hw)).mono hpost

/-- One command: it keeps the invariant and what the others rely on. -/
theorem Triple.perform {Pre : W → Prop} {c : C} {Post : R c → W → Prop} (hstable : Stable D p Pre)
    (hpost : ∀ r, Stable D p (Post r))
    (h : ∀ w, D.Inv w → Pre w → ∀ r w', exec p w c r w' →
      D.Inv w' ∧ (∀ q, q ≠ p → D.Rely q w w') ∧ Post r w') :
    Triple exec D p Pre (.perform c) Post := by
  intro w _ hpre w' hrely hinv r w'' hexec
  obtain ⟨hinv', hguar, hp⟩ := h w' hinv (hstable w w' hrely hinv hpre) r w'' hexec
  exact ⟨hinv', hguar, fun w''' hrely' hinv'' => hpost r w'' w''' hrely' hinv'' hp⟩

/-- A command that changes nothing. -/
theorem Triple.silent {Pre : W → Prop} {c : C} (hstable : Stable D p Pre)
    (h : ∀ w r w', exec p w c r w' → w' = w) :
    Triple exec D p Pre (.perform c) fun _ => Pre := by
  refine .perform hstable (fun _ => hstable) fun w hinv hpre r w' hexec => ?_
  obtain rfl := h w r w' hexec
  exact ⟨hinv, fun q _ => D.refl q w', hpre⟩

/-! ## A run of one process -/

theorem Runs.bind {w w' w'' : W} {x : Prog C R α} {f : α → Prog C R β} {a : α} {b : β}
    (hx : Runs exec p w x a w') (hf : Runs exec p w' (f a) b w'') :
    Runs exec p w (x >>= f) b w'' := by
  induction hx with
  | ret => exact hf
  | call h _ ih => exact .call h (ih hf)

theorem Runs.perform {w w' : W} {c : C} {r : R c} (h : exec p w c r w') :
    Runs exec p w (.perform c) r w' := .call h .ret

/-- A safe program that runs alone keeps the invariant and ends in its postcondition. -/
theorem Triple.runs {Pre : W → Prop} {x : Prog C R α} {Post : α → W → Prop}
    (h : Triple exec D p Pre x Post) {w w' : W} {a : α} (hinv : D.Inv w) (hpre : Pre w)
    (hrun : Runs exec p w x a w') : D.Inv w' ∧ Post a w' := by
  have hsafe := h w hinv hpre
  clear h hpre
  induction hrun with
  | ret => exact ⟨hinv, hsafe _ (D.refl p _) hinv⟩
  | call hexec _ ih =>
    obtain ⟨hinv', -, hk⟩ := hsafe _ (D.refl p _) hinv _ _ hexec
    exact ih hinv' hk

/-- A run of two programs in a row. -/
theorem Runs.of_bind {w w'' : W} {x : Prog C R α} {f : α → Prog C R β} {b : β}
    (h : Runs exec p w (x >>= f) b w'') :
    ∃ a w', Runs exec p w x a w' ∧ Runs exec p w' (f a) b w'' := by
  induction x generalizing w with
  | ret a => exact ⟨a, w, .ret, h⟩
  | call c k ih =>
    cases h with
    | call hexec hk =>
      obtain ⟨a, w', hx, hf⟩ := ih _ hk
      exact ⟨a, w', .call hexec hx, hf⟩

theorem Runs.of_pure {w w' : W} {a b : α} (h : Runs exec p w (pure a) b w') : b = a ∧ w' = w := by
  cases h
  exact ⟨rfl, rfl⟩

theorem Runs.of_perform {w w' : W} {c : C} {r : R c} (h : Runs exec p w (.perform c) r w') :
    exec p w c r w' := by
  cases h with
  | call hexec hk =>
    cases hk
    exact hexec

/-- What one process does alone is a run of the system, in which the others stay where they are. -/
theorem Runs.reach [DecidableEq P] {x : Prog C R Unit} {w w' : W} {a : Unit} (h : Runs exec p w x a w')
    {procs : P → Option (Prog C R Unit)} (hp : procs p = some x) :
    ∃ procs', Reach exec ⟨w, procs⟩ ⟨w', procs'⟩ ∧ ∀ q, q ≠ p → procs' q = procs q := by
  induction h generalizing procs with
  | ret => exact ⟨procs, .refl, fun _ _ => rfl⟩
  | call hexec _ ih =>
    obtain ⟨procs', hreach, hothers⟩ := ih (Function.update_self p _ procs)
    refine ⟨procs', .head (.command hp hexec) hreach, fun q hq => ?_⟩
    rw [hothers q hq, Function.update_of_ne hq]

/-! ## A run that is cut off -/

/-- The first commands of a program, from one world to another. -/
inductive CutOff (exec : P → W → (c : C) → R c → W → Prop) (p : P) : W → Prog C R α → W → Prop
  | here {w : W} {x : Prog C R α} : CutOff exec p w x w
  | call {w w' w'' : W} {c : C} {k : R c → Prog C R α} {r : R c} (h : exec p w c r w')
      (hk : CutOff exec p w' (k r) w'') : CutOff exec p w (.call c k) w''

/-- It is cut off in the first of two programs. -/
theorem CutOff.first {w w' : W} {x : Prog C R α} {f : α → Prog C R β} (h : CutOff exec p w x w') :
    CutOff exec p w (x >>= f) w' := by
  induction h with
  | here => exact .here
  | call h _ ih => exact .call h ih

/-- It is cut off in the second of two programs. -/
theorem CutOff.second {w w' w'' : W} {x : Prog C R α} {f : α → Prog C R β} {a : α}
    (hx : Runs exec p w x a w') (hf : CutOff exec p w' (f a) w'') :
    CutOff exec p w (x >>= f) w'' := by
  induction hx with
  | ret => exact hf
  | call h _ ih => exact .call h (ih hf)

/-- What is left where a process is killed. -/
theorem CutOff.reach [DecidableEq P] {x : Prog C R Unit} {w w' : W} (h : CutOff exec p w x w')
    {procs : P → Option (Prog C R Unit)} (hp : procs p = some x) :
    ∃ procs', Reach exec ⟨w, procs⟩ ⟨w', procs'⟩ := by
  induction h generalizing procs with
  | here => exact ⟨procs, .refl⟩
  | call hexec _ ih =>
    obtain ⟨procs', hreach⟩ := ih (Function.update_self p _ procs)
    exact ⟨procs', .head (.command hp hexec) hreach⟩

end Processes

end MpcHunt
