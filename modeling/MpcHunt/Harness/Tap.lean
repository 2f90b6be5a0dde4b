/-
A library whose calls go on record: the record is a second component of the
library's state, and a computation against the recording library is the one
against the library itself.
-/
import MpcHunt.Harness.Library

namespace MpcHunt.Harness

/-! ## Recording calls -/

/-- A computation outside the harness with another result. -/
def Draws.map {α β : Type} (f : α → β) : Draws α → Draws β
  | .done a => .done (f a)
  | .rand num k => .rand num fun b => (k b).map f

theorem Draws.run_map {α β : Type} (sha512 : Bytes → Vector UInt8 64) (f : α → β) (d : Draws α)
    (r : RandState) : (d.map f).run sha512 r = (f (d.run sha512 r).1, (d.run sha512 r).2) := by
  induction d generalizing r with
  | done a => rfl
  | rand num k ih => exact ih _ _

variable {η ρ α β : Type}

def World.untap (w : World (η × ρ)) : World η := ⟨w.lib.1, w.players, w.keyStores⟩

def World.tap (w : World η) (record : ρ) : World (η × ρ) := ⟨(w.lib, record), w.players, w.keyStores⟩

/-- A call that goes on record. -/
def tapCall (note : Except Thrown α → ρ → ρ) (c : Call η α) : Call (η × ρ) α :=
  fun w => (c w.untap).map fun r => (r.1, r.2.tap (note r.1 w.lib.2))

/-- A new service, which does not. -/
def tapService (make : World η → Draws (World η)) (w : World (η × ρ)) : Draws (World (η × ρ)) :=
  (make w.untap).map fun w' => w'.tap w.lib.2

/-! ## Runs against a recording library -/

def Proc.untap (p : Proc (η × ρ)) : Proc η := ⟨p.world.untap, p.rand⟩

def Proc.tap (p : Proc η) (record : ρ) : Proc (η × ρ) := ⟨p.world.tap record, p.rand⟩

def Proc.record (p : Proc (η × ρ)) : ρ := p.world.lib.2

@[simp] theorem Proc.untap_tap (p : Proc η) (record : ρ) : (p.tap record).untap = p := rfl

theorem Proc.tap_untap (p : Proc (η × ρ)) : p.untap.tap p.record = p := rfl

@[simp] theorem Proc.record_tap (p : Proc η) (record : ρ) : (p.tap record).record = record := rfl

/-- At `p` the first computation is the second one, on record. -/
def UntapsAt (p : Proc (η × ρ)) (x : Run (η × ρ) α) (y : Run η α) : Prop :=
  (x p).1 = (y p.untap).1 ∧ (x p).2.untap = (y p.untap).2

abbrev Untaps (x : Run (η × ρ) α) (y : Run η α) : Prop := ∀ p, UntapsAt p x y

theorem Untaps.pure (a : α) : Untaps (ρ := ρ) (Pure.pure a) (Pure.pure a : Run η α) :=
  fun _ => ⟨rfl, rfl⟩

theorem UntapsAt.bind {p : Proc (η × ρ)} {x : Run (η × ρ) α} {y : Run η α} {f : α → Run (η × ρ) β}
    {g : α → Run η β} (hx : UntapsAt p x y) (hf : ∀ a, Untaps (f a) (g a)) :
    UntapsAt p (x >>= f) (y >>= g) := by
  obtain ⟨hval, hproc⟩ := hx
  have hnext := hf (x p).1 (x p).2
  unfold UntapsAt at hnext
  rw [hproc] at hnext
  show ((f (x p).1) (x p).2).1 = ((g (y p.untap).1) (y p.untap).2).1 ∧
    ((f (x p).1) (x p).2).2.untap = ((g (y p.untap).1) (y p.untap).2).2
  rw [← hval]
  exact hnext

theorem Untaps.bind {x : Run (η × ρ) α} {y : Run η α} {f : α → Run (η × ρ) β} {g : α → Run η β}
    (hx : Untaps x y) (hf : ∀ a, Untaps (f a) (g a)) : Untaps (x >>= f) (y >>= g) :=
  fun p => (hx p).bind hf

/-- Reading the process: what is done with it may not depend on the record. -/
theorem UntapsAt.get {p : Proc (η × ρ)} {f : Proc (η × ρ) → Run (η × ρ) α} {g : Proc η → Run η α}
    (h : UntapsAt p (f p) (g p.untap)) : UntapsAt p (get >>= f) (get >>= g) := h

variable (H : Hashes)

theorem invoke_tapCall (note : Except Thrown α → ρ → ρ) (c : Call η α) (p : Proc (η × ρ)) :
    invoke H (tapCall note c) p = ((invoke H c p.untap).1,
      (invoke H c p.untap).2.tap (note (invoke H c p.untap).1 p.record)) := by
  unfold invoke tapCall
  dsimp only
  rw [Draws.run_map]
  rfl

theorem Untaps.invoke (note : Except Thrown α → ρ → ρ) (c : Call η α) :
    Untaps (invoke H (tapCall note c)) (invoke H c) := by
  intro p
  unfold UntapsAt
  rw [invoke_tapCall]
  exact ⟨rfl, rfl⟩

section
variable {lib : Library η} {lib' : Library (η × ρ)}
  (h : ∀ id, lib'.makeService id = tapService (lib.makeService id))
include h

theorem untaps_makePlayers (ids : List UInt64) :
    Untaps (makePlayers H lib' ids) (makePlayers H lib ids) := by
  induction ids with
  | nil => exact .pure ()
  | cons id ids ih =>
    refine .bind (fun p => ⟨rfl, rfl⟩) fun _ => .bind ?_ fun _ => ih
    intro p
    refine ⟨rfl, ?_⟩
    show Proc.untap ⟨_, _⟩ = Proc.mk _ _
    rw [h, tapService, Draws.run_map]
    rfl

theorem record_makePlayers (ids : List UInt64) (p : Proc (η × ρ)) :
    (makePlayers H lib' ids p).2.record = p.record := by
  induction ids generalizing p with
  | nil => rfl
  | cons id ids ih =>
    refine (ih _).trans ?_
    simp only [h, tapService, Draws.run_map]
    rfl

end

end MpcHunt.Harness
