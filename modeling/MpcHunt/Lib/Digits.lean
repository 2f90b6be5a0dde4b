/-
Decimal numerals as text: the digits of a number without leading zeros, the
number a run of digits stands for, and that each undoes the other. Text is a
list of code points.
-/
import Mathlib

namespace MpcHunt

/-- A text: its code points. -/
abbrev Str := List Nat

/-- The code points of a string constant. -/
def text (s : String) : Str := s.toList.map Char.toNat

theorem text_injective : Function.Injective text := by
  intro s s' h
  exact String.toList_injective (List.map_injective_iff.2 (fun c c' hc => Char.toNat_inj.1 hc) h)

namespace Digits

/-- A decimal digit, as a code point. -/
def isDigit (c : Nat) : Bool := 48 ≤ c && c ≤ 57

/-- The digits of a number, with fuel for as many. -/
def render : Nat → Nat → Str
  | 0, _ => []
  | fuel + 1, n => if n < 10 then [48 + n] else render fuel (n / 10) ++ [48 + n % 10]

/-- The numeral of a number. -/
def decimal (n : Nat) : Str := render (n + 1) n

/-- The number a run of digits stands for. -/
def value (ds : Str) : Nat := ds.foldl (fun acc d => acc * 10 + (d - 48)) 0

/-- A numeral as it is written: digits, no leading zero but for zero itself. -/
def Canonical (ds : Str) : Prop :=
  (∀ d ∈ ds, isDigit d = true) ∧ ds ≠ [] ∧ (ds.head? = some 48 → ds = [48])

instance (ds : Str) : Decidable (Canonical ds) :=
  inferInstanceAs (Decidable (_ ∧ _ ∧ _))

theorem value_append (ds : Str) (d : Nat) : value (ds ++ [d]) = value ds * 10 + (d - 48) := by
  unfold value
  rw [List.foldl_append]
  rfl

theorem isDigit_add {n : Nat} (h : n < 10) : isDigit (48 + n) = true := by
  unfold isDigit
  simp only [Bool.and_eq_true, decide_eq_true_eq]
  omega

theorem render_digits {fuel n : Nat} : ∀ d ∈ render fuel n, isDigit d = true := by
  induction fuel generalizing n with
  | zero =>
    intro d hd
    cases hd
  | succ fuel ih =>
    intro d hd
    unfold render at hd
    by_cases hn : n < 10
    · rw [if_pos hn, List.mem_singleton] at hd
      rw [hd]
      exact isDigit_add hn
    · rw [if_neg hn] at hd
      rcases List.mem_append.1 hd with hd | hd
      · exact ih d hd
      · rw [List.mem_singleton.1 hd]
        exact isDigit_add (Nat.mod_lt n (by decide))

theorem value_render {fuel n : Nat} (h : n < fuel) : value (render fuel n) = n := by
  induction fuel generalizing n with
  | zero => omega
  | succ fuel ih =>
    unfold render
    by_cases hn : n < 10
    · rw [if_pos hn]
      simp [value]
    · have hdiv : n / 10 < fuel := by omega
      rw [if_neg hn, value_append, ih hdiv]
      omega

theorem render_head {fuel n : Nat} (h : n < fuel) :
    ∃ d ds, render fuel n = d :: ds ∧ (d = 48 → n = 0) := by
  induction fuel generalizing n with
  | zero => omega
  | succ fuel ih =>
    unfold render
    by_cases hn : n < 10
    · rw [if_pos hn]
      exact ⟨48 + n, [], rfl, fun h => by omega⟩
    · have hdiv : n / 10 < fuel := by omega
      obtain ⟨d, ds, hr, hd⟩ := ih hdiv
      rw [if_neg hn, hr]
      refine ⟨d, ds ++ [48 + n % 10], rfl, fun h => ?_⟩
      have := hd h
      omega

theorem value_decimal (n : Nat) : value (decimal n) = n := value_render (Nat.lt_succ_self n)

theorem decimal_canonical (n : Nat) : Canonical (decimal n) := by
  obtain ⟨d, ds, hr, hd⟩ := render_head (Nat.lt_succ_self n)
  refine ⟨render_digits, ?_, fun h => ?_⟩
  · unfold decimal
    rw [hr]
    exact List.cons_ne_nil d ds
  · unfold decimal at h
    rw [hr, List.head?_cons, Option.some.injEq] at h
    rw [hd h]
    rfl

/-- A number is what it is written from. -/
theorem render_value {fuel : Nat} {ds : Str} (h : Canonical ds) (hfuel : value ds < fuel) :
    render fuel (value ds) = ds ∧ (ds ≠ [48] → 0 < value ds) := by
  induction ds using List.reverseRecOn generalizing fuel with
  | nil => exact absurd rfl h.2.1
  | append_singleton ds d ih =>
    obtain ⟨hdigits, -, hhead⟩ := h
    have hd := hdigits d (List.mem_append_right _ (List.mem_singleton_self d))
    simp only [isDigit, Bool.and_eq_true, decide_eq_true_eq] at hd
    obtain ⟨fuel, rfl⟩ : ∃ k, fuel = k + 1 := ⟨fuel - 1, by omega⟩
    rw [value_append] at hfuel ⊢
    unfold render
    cases ds with
    | nil =>
      have hvalue : value ([] : Str) * 10 + (d - 48) = d - 48 := by simp [value]
      rw [hvalue, if_pos (by omega), List.nil_append, Nat.add_sub_cancel' hd.1]
      refine ⟨rfl, fun hne => ?_⟩
      have : d ≠ 48 := fun hc => hne (by rw [hc])
      omega
    | cons c cs =>
      -- A number of two digits or more does not start with zero, nor do its first digits.
      have hc : c ≠ 48 := by
        rintro rfl
        simpa using hhead rfl
      have hcanonical : Canonical (c :: cs) :=
        ⟨fun e he => hdigits e (List.mem_append_left _ he), List.cons_ne_nil c cs,
          fun h => absurd (Option.some.inj h) hc⟩
      obtain ⟨-, hpos⟩ := ih hcanonical (Nat.lt_succ_self _)
      have hpos := hpos fun h => hc (List.cons.inj h).1
      rw [if_neg (by omega)]
      refine ⟨?_, fun _ => by omega⟩
      rw [show (value (c :: cs) * 10 + (d - 48)) / 10 = value (c :: cs) by omega,
        (ih hcanonical (by omega)).1, show 48 + (value (c :: cs) * 10 + (d - 48)) % 10 = d by omega]

theorem decimal_value {ds : Str} (h : Canonical ds) : decimal (value ds) = ds :=
  (render_value h (Nat.lt_succ_self _)).1

theorem decimal_inj {m n : Nat} (h : decimal m = decimal n) : m = n := by
  rw [← value_decimal m, h, value_decimal]

end Digits

end MpcHunt
