/-
Half-open intervals swept by their sorted endpoints: a running count that goes
up at a start and down at an end, ends before starts where they fall together,
never goes below zero, ends at zero and peaks at the largest number of
intervals that hold at one instant.
-/
import Mathlib.Algebra.BigOperators.Group.List.Basic
import Mathlib.Data.List.Induction
import Mathlib.Data.List.Sort
import Mathlib.Data.List.Count
import Mathlib.Order.Lattice
import Mathlib.Algebra.Order.Ring.Int

namespace MpcHunt.Sweep

variable {τ : Type*} [LinearOrder τ]

/-! ## Events -/

/-- The order of the sweep: by time, and ends before starts. -/
def Before (e e' : τ × Int) : Prop := e.1 < e'.1 ∨ e.1 = e'.1 ∧ e.2 ≤ e'.2

instance : DecidableRel (Before (τ := τ)) := fun e e' =>
  inferInstanceAs (Decidable (e.1 < e'.1 ∨ e.1 = e'.1 ∧ e.2 ≤ e'.2))

instance : Std.Total (Before (τ := τ)) where
  total e e' := by
    rcases lt_trichotomy e.1 e'.1 with h | h | h
    · exact .inl (.inl h)
    · rcases Int.le_total e.2 e'.2 with h' | h'
      · exact .inl (.inr ⟨h, h'⟩)
      · exact .inr (.inr ⟨h.symm, h'⟩)
    · exact .inr (.inl h)

instance : IsTrans (τ × Int) Before where
  trans a b c := by
    rintro (h | ⟨h, hd⟩) (h' | ⟨h', hd'⟩)
    · exact .inl (h.trans h')
    · exact .inl (h' ▸ h)
    · exact .inl (h ▸ h')
    · exact .inr ⟨h.trans h', hd.trans hd'⟩

theorem Before.le {e e' : τ × Int} (h : Before e e') : e.1 ≤ e'.1 := by
  rcases h with h | ⟨h, -⟩
  · exact h.le
  · exact h.le

/-- What the deltas of some events add up to. -/
def total (es : List (τ × Int)) : Int := (es.map Prod.snd).sum

/-- The events of intervals. -/
def endpoints (xs : List (τ × τ)) : List (τ × Int) := xs.flatMap fun x => [(x.1, 1), (x.2, -1)]

/-- How many intervals hold at an instant. -/
def active (xs : List (τ × τ)) (t : τ) : Nat := xs.countP fun x => x.1 ≤ t ∧ t < x.2

omit [LinearOrder τ] in
@[simp] theorem total_nil : total ([] : List (τ × Int)) = 0 := rfl

omit [LinearOrder τ] in
@[simp] theorem total_cons (e : τ × Int) (es : List (τ × Int)) : total (e :: es) = e.2 + total es := by
  simp [total]

omit [LinearOrder τ] in
@[simp] theorem total_append (es es' : List (τ × Int)) : total (es ++ es') = total es + total es' := by
  simp [total]

omit [LinearOrder τ] in
theorem total_perm {es es' : List (τ × Int)} (h : es.Perm es') : total es = total es' :=
  (h.map Prod.snd).sum_eq

omit [LinearOrder τ] in
theorem total_nonneg {es : List (τ × Int)} (h : ∀ e ∈ es, 0 ≤ e.2) : 0 ≤ total es := by
  induction es with
  | nil => exact Int.le_refl 0
  | cons e es ih =>
    have he := h e List.mem_cons_self
    have hes := ih fun e' he' => h e' (List.mem_cons_of_mem e he')
    rw [total_cons]
    omega

omit [LinearOrder τ] in
theorem total_nonpos {es : List (τ × Int)} (h : ∀ e ∈ es, e.2 ≤ 0) : total es ≤ 0 := by
  induction es with
  | nil => exact Int.le_refl 0
  | cons e es ih =>
    have he := h e List.mem_cons_self
    have hes := ih fun e' he' => h e' (List.mem_cons_of_mem e he')
    rw [total_cons]
    omega

omit [LinearOrder τ] in
/-- The events of a kind and the others. -/
theorem total_filter_add (p : τ × Int → Bool) (es : List (τ × Int)) :
    total (es.filter p) + total (es.filter fun e => ¬ p e) = total es := by
  induction es with
  | nil => rfl
  | cons e es ih =>
    rw [total_cons, ← ih, List.filter_cons, List.filter_cons]
    cases p e <;> simp <;> omega

omit [LinearOrder τ] in
theorem endpoints_cons (x : τ × τ) (xs : List (τ × τ)) :
    endpoints (x :: xs) = (x.1, 1) :: (x.2, -1) :: endpoints xs := rfl

omit [LinearOrder τ] in
theorem delta_of_mem {xs : List (τ × τ)} {e : τ × Int} (h : e ∈ endpoints xs) :
    e.2 = 1 ∨ e.2 = -1 := by
  obtain ⟨x, -, he⟩ := List.mem_flatMap.1 h
  rcases List.mem_cons.1 he with rfl | he
  · exact .inl rfl
  · rw [List.mem_singleton.1 he]
    exact .inr rfl

omit [LinearOrder τ] in
theorem total_endpoints (xs : List (τ × τ)) : total (endpoints xs) = 0 := by
  induction xs with
  | nil => rfl
  | cons x xs ih =>
    rw [endpoints_cons, total_cons, total_cons, ih]
    rfl

/-- The events up to an instant leave the count of the intervals that hold at it. -/
theorem total_upTo {xs : List (τ × τ)} (h : ∀ x ∈ xs, x.1 < x.2) (t : τ) :
    total ((endpoints xs).filter fun e => e.1 ≤ t) = active xs t := by
  induction xs with
  | nil => rfl
  | cons x xs ih =>
    have hx : x.1 < x.2 := h x List.mem_cons_self
    have hxs := ih fun y hy => h y (List.mem_cons_of_mem x hy)
    rw [endpoints_cons, active, List.countP_cons, ← active]
    by_cases hstart : x.1 ≤ t
    · by_cases hend : x.2 ≤ t
      · simp [hstart, hend, hxs, not_lt.2 hend]
      · simp [hstart, hend, hxs, not_le.1 hend]
        omega
    · have hend : ¬ x.2 ≤ t := fun h => hstart (hx.le.trans h)
      simp [hstart, hend, hxs]

/-- The events before an instant and its ends leave the count of the intervals around it. -/
theorem total_around {xs : List (τ × τ)} (h : ∀ x ∈ xs, x.1 < x.2) (t : τ) :
    0 ≤ total ((endpoints xs).filter fun e => e.1 < t ∨ e.1 = t ∧ e.2 = -1) := by
  induction xs with
  | nil => exact Int.le_refl 0
  | cons x xs ih =>
    have hx : x.1 < x.2 := h x List.mem_cons_self
    have hxs := ih fun y hy => h y (List.mem_cons_of_mem x hy)
    rw [endpoints_cons]
    by_cases hstart : x.1 < t
    · by_cases hend : x.2 < t ∨ x.2 = t
      · rw [List.filter_cons_of_pos (by simp [hstart]), List.filter_cons_of_pos (by simp [hend]),
          total_cons, total_cons]
        omega
      · rw [List.filter_cons_of_pos (by simp [hstart]), List.filter_cons_of_neg (by simpa using hend),
          total_cons]
        omega
    · have hend : ¬ (x.2 < t ∨ x.2 = t) := fun h =>
        hstart (hx.trans_le (h.elim le_of_lt le_of_eq))
      rw [List.filter_cons_of_neg (by simp [hstart]), List.filter_cons_of_neg (by simpa using hend)]
      exact hxs

/-! ## Prefixes of the sorted events -/

section
variable {xs : List (τ × τ)} {es : List (τ × Int)} (hpos : ∀ x ∈ xs, x.1 < x.2)
  (hperm : es.Perm (endpoints xs)) (hsorted : es.Pairwise Before)
include hpos hperm hsorted

/-- The count never goes below zero. -/
theorem total_prefix_nonneg {p : List (τ × Int)} (hp : p <+: es) : 0 ≤ total p := by
  rcases p.eq_nil_or_concat' with rfl | ⟨q, ⟨t, d⟩, rfl⟩
  · exact Int.le_refl 0
  · obtain ⟨r, rfl⟩ := hp
    have hdelta : ∀ e ∈ q ++ [(t, d)] ++ r, e.2 = 1 ∨ e.2 = -1 := fun e he =>
      delta_of_mem (hperm.mem_iff.1 he)
    have haround := total_around hpos t
    rw [← total_perm (hperm.filter _), List.filter_append, total_append] at haround
    obtain ⟨hpre, -, hcross⟩ := List.pairwise_append.1 hsorted
    have hq : ∀ e ∈ q, Before e (t, d) := fun e he =>
      (List.pairwise_append.1 hpre).2.2 e he (t, d) (List.mem_singleton.2 rfl)
    have hr : ∀ e ∈ r, Before (t, d) e := fun e he => hcross (t, d) (by simp) e he
    have hsplit := total_filter_add (fun e : τ × Int => e.1 < t ∨ e.1 = t ∧ e.2 = -1) (q ++ [(t, d)])
    have hother : 0 ≤ total ((q ++ [(t, d)]).filter fun e : τ × Int =>
        ¬ (decide (e.1 < t ∨ e.1 = t ∧ e.2 = -1)) = true) := by
      refine total_nonneg fun e he => ?_
      obtain ⟨he, hnot⟩ := List.mem_filter.1 he
      rcases hdelta e (List.mem_append_left r he) with h1 | h1
      · omega
      · have hle : e.1 ≤ t := by
          rcases List.mem_append.1 he with he | he
          · exact (hq e he).le
          · rw [List.mem_singleton.1 he]
        rcases hle.lt_or_eq with hlt | heq
        · simp [hlt] at hnot
        · simp [heq, h1] at hnot
    have hafter : total (r.filter fun e : τ × Int => e.1 < t ∨ e.1 = t ∧ e.2 = -1) ≤ 0 := by
      refine total_nonpos fun e he => ?_
      obtain ⟨he, hin⟩ := List.mem_filter.1 he
      rcases of_decide_eq_true hin with hlt | ⟨-, h1⟩
      · exact absurd hlt (hr e he).le.not_gt
      · omega
    omega

/-- Nor above the number of intervals that hold at some instant. -/
theorem total_prefix_le {p : List (τ × Int)} (hp : p <+: es) :
    total p ≤ 0 ∨ ∃ t, total p ≤ active xs t := by
  induction p using List.reverseRecOn with
  | nil => exact .inl (Int.le_refl 0)
  | append_singleton q e ih =>
    obtain ⟨t, d⟩ := e
    have hdelta : d = 1 ∨ d = -1 :=
      delta_of_mem (hperm.mem_iff.1 (hp.subset (by simp : (t, d) ∈ q ++ [(t, d)])))
    rcases hdelta with rfl | rfl
    · obtain ⟨r, rfl⟩ := hp
      obtain ⟨hpre, -, hcross⟩ := List.pairwise_append.1 hsorted
      have hupTo := total_upTo hpos t
      rw [← total_perm (hperm.filter _), List.filter_append, total_append] at hupTo
      have hall : (q ++ [(t, (1 : Int))]).filter (fun e : τ × Int => e.1 ≤ t) = q ++ [(t, 1)] := by
        refine List.filter_eq_self.2 fun e he => decide_eq_true ?_
        rcases List.mem_append.1 he with he | he
        · exact ((List.pairwise_append.1 hpre).2.2 e he (t, 1) (List.mem_singleton.2 rfl)).le
        · rw [List.mem_singleton.1 he]
      have hafter : 0 ≤ total (r.filter fun e : τ × Int => e.1 ≤ t) := by
        refine total_nonneg fun e he => ?_
        obtain ⟨he, hle⟩ := List.mem_filter.1 he
        rcases hcross (t, 1) (by simp) e he with hlt | ⟨-, h1⟩
        · exact absurd (of_decide_eq_true hle) hlt.not_ge
        · exact Int.le_trans Int.one_nonneg h1
      rw [hall] at hupTo
      exact .inr ⟨t, by omega⟩
    · have hq : q <+: es := (List.prefix_append q [(t, -1)]).trans hp
      rw [total_append, total_cons, total_nil]
      rcases ih hq with h | ⟨t', h⟩
      · exact .inl (by omega)
      · exact .inr ⟨t', by omega⟩

omit hpos hperm in
theorem filter_upTo_prefix (t : τ) : es.filter (fun e => e.1 ≤ t) <+: es := by
  induction es with
  | nil => exact List.prefix_refl []
  | cons e es ih =>
    obtain ⟨he, hes⟩ := List.pairwise_cons.1 hsorted
    by_cases h : e.1 ≤ t
    · rw [List.filter_cons_of_pos (by simpa using h)]
      exact (List.prefix_cons_inj e).2 (ih hes)
    · have hnone : (e :: es).filter (fun e => e.1 ≤ t) = [] := by
        refine List.filter_eq_nil_iff.2 fun e' he' => ?_
        rw [decide_eq_true_eq]
        rcases List.mem_cons.1 he' with rfl | he'
        · exact h
        · exact fun hle => h ((he e' he').le.trans hle)
      rw [hnone]
      exact List.nil_prefix

/-- Every instant's number of intervals is reached. -/
theorem exists_prefix_active (t : τ) : ∃ p, p <+: es ∧ total p = active xs t := by
  refine ⟨es.filter fun e => e.1 ≤ t, filter_upTo_prefix hsorted t, ?_⟩
  rw [total_perm (hperm.filter _), total_upTo hpos t]

end

/-! ## The sweep -/

/-- One event: the new count, and the largest so far. -/
def step {ε : Type} (negative : ε) (s : Int × Int) (e : τ × Int) : Except ε (Int × Int) :=
  if s.1 + e.2 < 0 then .error negative else .ok (s.1 + e.2, max s.2 (s.1 + e.2))

omit [LinearOrder τ] in
theorem foldlM_step {ε : Type} (negative : ε) (es : List (τ × Int)) (a m : Int)
    (h : ∀ p, p <+: es → 0 ≤ a + total p) :
    ∃ m', es.foldlM (step negative) (a, m) = .ok (a + total es, m') ∧ m ≤ m' ∧
      (∀ p, p <+: es → p ≠ [] → a + total p ≤ m') ∧
      (m' = m ∨ ∃ p, p <+: es ∧ m' = a + total p) := by
  induction es generalizing a m with
  | nil =>
    refine ⟨m, by simp; rfl, Int.le_refl m, fun p hp hne => ?_, .inl rfl⟩
    exact absurd (List.prefix_nil.1 hp) hne
  | cons e es ih =>
    have hfirst : 0 ≤ a + e.2 := by
      have := h [e] (List.prefix_append [e] es)
      simpa using this
    have hrest : ∀ p, p <+: es → 0 ≤ a + e.2 + total p := by
      intro p hp
      have := h (e :: p) ((List.prefix_cons_inj e).2 hp)
      rw [total_cons] at this
      omega
    obtain ⟨m', hfold, hm, hall, hreached⟩ := ih (a + e.2) (max m (a + e.2)) hrest
    refine ⟨m', ?_, (le_max_left _ _).trans hm, fun p hp hne => ?_, ?_⟩
    · have hstep : step negative (a, m) e = .ok (a + e.2, max m (a + e.2)) := if_neg (by simpa using hfirst)
      rw [List.foldlM_cons, hstep, total_cons, ← Int.add_assoc]
      exact hfold
    · obtain ⟨q, rfl, hq⟩ : ∃ q, p = e :: q ∧ q <+: es := by
        cases p with
        | nil => exact absurd rfl hne
        | cons e' q =>
          obtain ⟨rfl, hq⟩ := List.cons_prefix_cons.1 hp
          exact ⟨q, rfl, hq⟩
      rw [total_cons, ← Int.add_assoc]
      by_cases hnil : q = []
      · rw [hnil, total_nil, Int.add_zero]
        exact (le_max_right _ _).trans hm
      · exact hall q hq hnil
    · rcases hreached with heq | ⟨p, hp, heq⟩
      · rcases max_choice m (a + e.2) with hmax | hmax
        · exact .inl (heq.trans hmax)
        · exact .inr ⟨[e], List.prefix_append [e] es, by simp [heq, hmax]⟩
      · refine .inr ⟨e :: p, (List.prefix_cons_inj e).2 hp, ?_⟩
        rw [total_cons, ← Int.add_assoc]
        exact heq

/-- The sweep ends at zero with the largest number of intervals that hold at one instant. -/
theorem foldlM_step_endpoints {ε : Type} (negative : ε) {xs : List (τ × τ)} {es : List (τ × Int)}
    (hpos : ∀ x ∈ xs, x.1 < x.2) (hperm : es.Perm (endpoints xs)) (hsorted : es.Pairwise Before) :
    ∃ m : Int, es.foldlM (step negative) (0, 0) = .ok (0, m) ∧ (∀ t, (active xs t : Int) ≤ m) ∧
      (m = 0 ∨ ∃ t, m = active xs t) := by
  have hnonneg : ∀ p, p <+: es → 0 ≤ 0 + total p := by
    intro p hp
    rw [Int.zero_add]
    exact total_prefix_nonneg hpos hperm hsorted hp
  obtain ⟨m, hfold, hm, hall, hreached⟩ := foldlM_step negative es 0 0 hnonneg
  have hle : ∀ t, (active xs t : Int) ≤ m := by
    intro t
    obtain ⟨p, hp, heq⟩ := exists_prefix_active hpos hperm hsorted t
    by_cases hnil : p = []
    · rw [hnil, total_nil] at heq
      omega
    · have := hall p hp hnil
      omega
  refine ⟨m, ?_, hle, ?_⟩
  · rw [hfold, total_perm hperm, total_endpoints]
    rfl
  · rcases hreached with heq | ⟨p, hp, heq⟩
    · exact .inl heq
    · rcases total_prefix_le hpos hperm hsorted hp with h | ⟨t, h⟩
      · exact .inl (by omega)
      · exact .inr ⟨t, le_antisymm (by omega) (hle t)⟩

end MpcHunt.Sweep
