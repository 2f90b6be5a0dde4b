/-
Reading back what was written, through a cursor with an error flag: what it
means for a read operation to be exact for a writer, and how exactness
composes over fields and over counted records.
-/
import Mathlib

namespace MpcHunt.Cursor

variable {α σ β γ : Type}
variable (rest : σ → List α) (good : σ → Prop)

/-- `op` reads exactly what `write` writes: it returns a written value and moves past it, a
cursor that is good afterwards held the bytes of the value returned, and a cursor that went
bad stays bad. -/
structure Exact (op : σ → β × σ) (write : β → List α) (Fits : β → Prop) : Prop where
  reads : ∀ {r v s}, good r → Fits v → rest r = write v ++ s →
    (op r).1 = v ∧ rest (op r).2 = s ∧ good (op r).2
  wrote : ∀ {r}, good (op r).2 → Fits (op r).1 ∧ rest r = write (op r).1 ++ rest (op r).2
  sticky : ∀ {r}, good (op r).2 → good r

variable {rest good}
variable {op : σ → β × σ} {write : β → List α} {Fits : β → Prop}
variable {op' : σ → γ × σ} {write' : γ → List α} {Fits' : γ → Prop}

/-- One operation after another. -/
def seq (op : σ → β × σ) (op' : σ → γ × σ) (r : σ) : (β × γ) × σ :=
  let b := op r
  let c := op' b.2
  ((b.1, c.1), c.2)

theorem Exact.seq (h : Exact rest good op write Fits) (h' : Exact rest good op' write' Fits') :
    Exact rest good (seq op op') (fun v => write v.1 ++ write' v.2)
      (fun v => Fits v.1 ∧ Fits' v.2) where
  reads := by
    intro r v s hgood hfits hrest
    rw [List.append_assoc] at hrest
    obtain ⟨hv, hr, hg⟩ := h.reads hgood hfits.1 hrest
    obtain ⟨hv', hr', hg'⟩ := h'.reads hg hfits.2 hr
    exact ⟨Prod.ext hv hv', hr', hg'⟩
  wrote := by
    intro r hgood
    obtain ⟨hfits', hr'⟩ := h'.wrote hgood
    obtain ⟨hfits, hr⟩ := h.wrote (h'.sticky hgood)
    refine ⟨⟨hfits, hfits'⟩, ?_⟩
    rw [hr, hr', List.append_assoc]
    rfl
  sticky := fun hgood => h.sticky (h'.sticky hgood)

/-- The value of an operation under another representation. -/
def map (f : β → γ) (op : σ → β × σ) (r : σ) : γ × σ :=
  let b := op r
  (f b.1, b.2)

theorem Exact.map (h : Exact rest good op write Fits) (e : β ≃ γ) :
    Exact rest good (map e op) (fun v => write (e.symm v)) (fun v => Fits (e.symm v)) where
  reads := by
    intro r v s hgood hfits hrest
    obtain ⟨hv, hr, hg⟩ := h.reads hgood hfits hrest
    exact ⟨by simp [Cursor.map, hv], hr, hg⟩
  wrote := by
    intro r hgood
    simpa [Cursor.map] using h.wrote hgood
  sticky := fun hgood => h.sticky hgood

/-! ## Counted records -/

/-- `count` operations in a row, given up at the first bad cursor. -/
inductive Repeats (good : σ → Prop) (op : σ → β × σ) : List β → σ → σ → Prop
  | nil (r : σ) : Repeats good op [] r r
  | cons {r r' : σ} {vs : List β} : good (op r).2 → Repeats good op vs (op r).2 r' →
      Repeats good op ((op r).1 :: vs) r r'

theorem Exact.repeats_wrote (h : Exact rest good op write Fits) {vs : List β} {r r' : σ}
    (hrun : Repeats good op vs r r') (hgood : good r) :
    good r' ∧ (∀ v ∈ vs, Fits v) ∧ rest r = vs.flatMap write ++ rest r' := by
  induction hrun with
  | nil r => exact ⟨hgood, by simp, rfl⟩
  | cons hg _ ih =>
    obtain ⟨hgood', hfits, hrest⟩ := ih hg
    obtain ⟨hv, hr⟩ := h.wrote hg
    refine ⟨hgood', ?_, ?_⟩
    · intro v hmem
      rcases List.mem_cons.1 hmem with rfl | hmem
      · exact hv
      · exact hfits v hmem
    · rw [hr, hrest, List.flatMap_cons, List.append_assoc]

theorem Exact.repeats_reads (h : Exact rest good op write Fits) {vs : List β} {r : σ} {s : List α}
    (hgood : good r) (hfits : ∀ v ∈ vs, Fits v) (hrest : rest r = vs.flatMap write ++ s) :
    ∃ r', Repeats good op vs r r' ∧ rest r' = s ∧ good r' := by
  induction vs generalizing r with
  | nil => exact ⟨r, .nil r, by simpa using hrest, hgood⟩
  | cons v vs ih =>
    rw [List.flatMap_cons, List.append_assoc] at hrest
    obtain ⟨hv, hr, hg⟩ := h.reads hgood (hfits v List.mem_cons_self) hrest
    obtain ⟨r', hrun, hs, hg'⟩ := ih hg (fun w hw => hfits w (List.mem_cons_of_mem _ hw)) hr
    exact ⟨r', hv ▸ .cons hg hrun, hs, hg'⟩

theorem Repeats.deterministic {vs ws : List β} {r r' r'' : σ} (h : Repeats good op vs r r')
    (h' : Repeats good op ws r r'') (hlen : vs.length = ws.length) : vs = ws ∧ r' = r'' := by
  induction h generalizing ws r'' with
  | nil r =>
    cases h' with
    | nil => exact ⟨rfl, rfl⟩
    | cons => simp at hlen
  | cons _ _ ih =>
    cases h' with
    | nil => simp at hlen
    | cons _ hrest =>
      obtain ⟨hvs, hr⟩ := ih hrest (by simpa using hlen)
      exact ⟨by rw [hvs], hr⟩

/-! ## Whole inputs -/

variable {δ ε : Type}

/-- `parse` takes exactly the inputs `write` writes for `Fits` values, up to what `view`
keeps of a value, and refuses a written input that goes on. -/
structure Whole (parse : List α → Except ε δ) (write : β → List α) (Fits : β → Prop)
    (view : β → δ) : Prop where
  reads : ∀ v, Fits v → parse (write v) = .ok (view v)
  wrote : ∀ b d, parse b = .ok d → ∃ v, Fits v ∧ b = write v ∧ d = view v
  trailing : ∀ v s, Fits v → s ≠ [] → ∃ e, parse (write v ++ s) = .error e

variable {parse : List α → Except ε δ} {view : β → δ}

/-- A written input that is cut short is refused. -/
theorem Whole.cut (h : Whole parse write Fits view) {v : β} (hv : Fits v) {b s : List α}
    (hs : s ≠ []) (hb : b ++ s = write v) : ∃ e, parse b = .error e := by
  cases hp : parse b with
  | error e => exact ⟨e, rfl⟩
  | ok d =>
    -- `b` would be written itself, so that the longer input goes on after it
    obtain ⟨w, hw, rfl, -⟩ := h.wrote b d hp
    obtain ⟨e, he⟩ := h.trailing w s hw hs
    rw [hb, h.reads v hv] at he
    cases he

end MpcHunt.Cursor
