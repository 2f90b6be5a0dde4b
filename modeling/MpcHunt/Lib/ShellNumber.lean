/-
Integer literals of shell arithmetic, of digits only: base 8 after a leading
zero, numbers of 64 bits that wrap. When the shell's reading of a run of
digits is its decimal value.
-/
import MpcHunt.Lib.Digits

namespace MpcHunt.ShellNumber

open Digits

/-! ## Readings -/

/-- `^[0-9]+$`. -/
def isNumber (s : Str) : Bool := s ≠ [] && s.all isDigit

/-- The number a run of digits stands for in a base. -/
def valueIn (base : Nat) (ds : Str) : Nat := ds.foldl (fun acc d => acc * base + (d - 48)) 0

/-- One digit more; an error where it is too great for the base. -/
def readDigit (base : Nat) (acc : Int64) (d : Nat) : Option Int64 :=
  if d - 48 ≥ base then none else some (acc * .ofInt base + .ofInt (d - 48 : Nat))

/-- What the shell reads. -/
def literal (ds : Str) : Option Int64 :=
  match ds with
  | 48 :: ds => ds.foldlM (readDigit 8) 0
  | ds => ds.foldlM (readDigit 10) 0

/-- A text that the shell reads as another number than its decimal value: one of two digits or
more after a leading zero, all of them octal, or one of 2 ^ 63 or more. -/
def Misread (ds : Str) : Prop :=
  isNumber ds = true ∧ (ds.head? = some 48 ∧ (∀ d ∈ ds, d < 56) ∧ 8 ≤ value ds ∨
    ds.head? ≠ some 48 ∧ 2 ^ 63 ≤ value ds)

instance (ds : Str) : Decidable (Misread ds) := inferInstanceAs (Decidable (_ ∧ (_ ∧ _ ∧ _ ∨ _ ∧ _)))

/-! ## Bases -/

theorem value_eq_valueIn (ds : Str) : value ds = valueIn 10 ds := rfl

theorem valueIn_append (base : Nat) (ds : Str) (d : Nat) :
    valueIn base (ds ++ [d]) = valueIn base ds * base + (d - 48) := by
  unfold valueIn
  rw [List.foldl_append]
  rfl

/-- In base 8 a numeral of two digits or more stands for less. -/
theorem valueIn_octal (ds : Str) (h : ∀ d ∈ ds, d < 56) :
    valueIn 8 ds ≤ value ds ∧ (valueIn 8 ds = value ds ↔ value ds < 8) := by
  rw [value_eq_valueIn]
  induction ds using List.reverseRecOn with
  | nil => exact ⟨Nat.le_refl 0, iff_of_true rfl (by decide)⟩
  | append_singleton ds d ih =>
    obtain ⟨hle, hiff⟩ := ih fun e he => h e (List.mem_append_left _ he)
    have hd : d < 56 := h d (List.mem_append_right _ (List.mem_singleton_self d))
    rw [valueIn_append, valueIn_append]
    omega

theorem foldlM_readDigit {base : Nat} {ds : Str} (h : ∀ d ∈ ds, d - 48 < base) :
    ds.foldlM (readDigit base) 0 = some (.ofInt (valueIn base ds)) := by
  induction ds using List.reverseRecOn with
  | nil => rfl
  | append_singleton ds d ih =>
    have hd : d - 48 < base := h d (List.mem_append_right _ (List.mem_singleton_self d))
    rw [List.foldlM_append, ih fun e he => h e (List.mem_append_left _ he), valueIn_append]
    simp only [List.foldlM_cons, List.foldlM_nil, readDigit, if_neg (not_le.2 hd)]
    simp

/-- A digit that is too great for the base makes the whole an error. -/
theorem foldlM_readDigit_none {base : Nat} {ds : Str} (h : ∃ d ∈ ds, base ≤ d - 48) (acc : Int64) :
    ds.foldlM (readDigit base) acc = none := by
  induction ds generalizing acc with
  | nil =>
    obtain ⟨d, hd, -⟩ := h
    cases hd
  | cons d ds ih =>
    rw [List.foldlM_cons, readDigit]
    by_cases hd : d - 48 ≥ base
    · rw [if_pos hd]
      rfl
    · rw [if_neg hd]
      obtain ⟨e, he, hbase⟩ := h
      rcases List.mem_cons.1 he with rfl | he
      · exact absurd hbase hd
      · exact ih ⟨e, he, hbase⟩ _

/-! ## What is read -/

theorem toInt_ofNat_le (n : Nat) : (Int64.ofInt n).toInt ≤ n := by
  have hn : (0 : Int) ≤ n := Int.natCast_nonneg n
  rw [Int64.toInt_ofInt]
  unfold Int.bmod Int64.size
  dsimp only
  split <;> omega

theorem toInt_ofNat_eq {n : Nat} : (Int64.ofInt n).toInt = n ↔ n < 2 ^ 63 := by
  have hn : (0 : Int) ≤ n := Int.natCast_nonneg n
  rw [Int64.toInt_ofInt]
  unfold Int.bmod Int64.size
  dsimp only
  split <;> omega

theorem isDigit_of_isNumber {ds : Str} (h : isNumber ds = true) : ∀ d ∈ ds, 48 ≤ d ∧ d ≤ 57 := by
  intro d hd
  simp only [isNumber, Bool.and_eq_true, List.all_eq_true] at h
  simpa [isDigit] using h.2 d hd

theorem literal_octal {ds : Str} (h : ∀ d ∈ ds, d < 56) :
    literal (48 :: ds) = some (.ofInt (valueIn 8 ds)) := by
  show ds.foldlM (readDigit 8) 0 = _
  exact foldlM_readDigit fun d hd => by
    have := h d hd
    omega

theorem literal_octal_none {ds : Str} (h : ¬ ∀ d ∈ ds, d < 56) : literal (48 :: ds) = none := by
  show ds.foldlM (readDigit 8) 0 = none
  push Not at h
  obtain ⟨d, hd, hlarge⟩ := h
  exact foldlM_readDigit_none ⟨d, hd, by omega⟩ 0

theorem literal_decimal {ds : Str} (h : isNumber ds = true) (hhead : ds.head? ≠ some 48) :
    literal ds = some (.ofInt (value ds)) := by
  have hfold : literal ds = ds.foldlM (readDigit 10) 0 := by
    unfold literal
    split
    · exact absurd rfl hhead
    · rfl
  rw [hfold]
  refine foldlM_readDigit fun d hd => ?_
  have := isDigit_of_isNumber h d hd
  omega

theorem misread_octal {ds : Str} (h : isNumber (48 :: ds) = true) (hoctal : ∀ d ∈ ds, d < 56) :
    Misread (48 :: ds) ↔ 8 ≤ value ds := by
  have hvalue : value (48 :: ds) = value ds := rfl
  have hall : ∀ d ∈ 48 :: ds, d < 56 := by
    intro d hd
    rcases List.mem_cons.1 hd with rfl | hd
    · decide
    · exact hoctal d hd
  simp only [Misread, h, hvalue, List.head?_cons, ne_eq, not_true_eq_false, false_and, or_false,
    true_and]
  exact and_iff_right hall

theorem misread_decimal {ds : Str} (h : isNumber ds = true) (hhead : ds.head? ≠ some 48) :
    Misread ds ↔ 2 ^ 63 ≤ value ds := by
  simp only [Misread, h, hhead, false_and, false_or, ne_eq, not_false_eq_true, true_and]

/-- What the shell reads is at most the decimal value, and is it just where it does not misread. -/
theorem literal_le {ds : Str} (h : isNumber ds = true) {v : Int64} (hv : literal ds = some v) :
    v.toInt ≤ value ds ∧ (v.toInt = value ds ↔ ¬ Misread ds) := by
  by_cases hhead : ds.head? = some 48
  · obtain ⟨ds, rfl⟩ : ∃ rest, ds = 48 :: rest := by
      cases ds with
      | nil => cases hhead
      | cons c rest => exact ⟨rest, by rw [Option.some.inj hhead]⟩
    by_cases hoctal : ∀ d ∈ ds, d < 56
    · rw [literal_octal hoctal] at hv
      obtain rfl := Option.some.inj hv
      have hvalue : value (48 :: ds) = value ds := rfl
      obtain ⟨hle, hiff⟩ := valueIn_octal ds hoctal
      have hread := toInt_ofNat_le (valueIn 8 ds)
      have hexact := toInt_ofNat_eq (n := valueIn 8 ds)
      rw [misread_octal h hoctal, hvalue]
      omega
    · rw [literal_octal_none hoctal] at hv
      cases hv
  · rw [literal_decimal h hhead] at hv
    obtain rfl := Option.some.inj hv
    rw [misread_decimal h hhead, toInt_ofNat_eq, not_le]
    exact ⟨toInt_ofNat_le _, Iff.rfl⟩

theorem literal_of_misread {ds : Str} (h : Misread ds) : ∃ v, literal ds = some v := by
  obtain ⟨hnumber, ⟨hhead, hoctal, -⟩ | ⟨hhead, -⟩⟩ := h
  · cases ds with
    | nil => cases hhead
    | cons c ds =>
      rw [Option.some.inj hhead]
      exact ⟨_, literal_octal fun d hd => hoctal d (List.mem_cons_of_mem c hd)⟩
  · exact ⟨_, literal_decimal hnumber hhead⟩

end MpcHunt.ShellNumber
