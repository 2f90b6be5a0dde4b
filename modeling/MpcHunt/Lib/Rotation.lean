/-
Two nested rotations driven by one counter: a counter `o` visits slot
`o % p` of an outer ring and, on each visit, the next of the `w` places of
that slot's inner ring (`o / p % w`). The two together have period `p * w`,
so a place is visited exactly once in any `p * w` consecutive counter
values. Also the windows a sorted list is cut into, and the mixed-radix
counter `hi * n + lo`.
-/
import Mathlib.Data.Nat.ModEq
import Mathlib.Data.Nat.Basic
import Mathlib.Data.List.Nodup
import Mathlib.Logic.Equiv.Fin.Basic

namespace MpcHunt.Rotation

/-- The counter values that visit place `k` of outer slot `i`. -/
def Visits (p w i k o : Nat) : Prop := o % p = i ∧ o / p % w = k

/-- Both rotations at once: one residue modulo the product of the periods. -/
theorem visits_iff {p w i k : Nat} (hi : i < p) (o : Nat) :
    Visits p w i k o ↔ o % (p * w) = i + p * k := by
  have hp : 0 < p := Nat.lt_of_le_of_lt (Nat.zero_le i) hi
  have hsplit : o % (p * w) = o % p + p * (o / p % w) := Nat.mod_mul
  constructor
  · rintro ⟨h1, h2⟩
    rw [hsplit, h1, h2]
  · intro h
    rw [hsplit] at h
    have hmod : o % p = i := by
      have h' := congrArg (· % p) h
      simpa [Nat.add_mul_mod_self_left, Nat.mod_eq_of_lt hi] using h'
    refine ⟨hmod, ?_⟩
    rw [hmod] at h
    exact Nat.eq_of_mul_eq_mul_left hp (Nat.add_left_cancel h)

/-- A residue is hit exactly once in a block of consecutive numbers as long as the modulus. -/
theorem existsUnique_mod_eq {m r : Nat} (hr : r < m) (s : Nat) :
    ∃! o, (s ≤ o ∧ o < s + m) ∧ o % m = r := by
  have hm : 0 < m := Nat.lt_of_le_of_lt (Nat.zero_le r) hr
  have hs := Nat.div_add_mod s m
  have hlt := Nat.mod_lt s hm
  by_cases hle : s % m ≤ r
  · refine ⟨m * (s / m) + r, ⟨⟨by omega, by omega⟩, ?_⟩, ?_⟩
    · rw [Nat.mul_add_mod, Nat.mod_eq_of_lt hr]
    · rintro o ⟨⟨h1, h2⟩, h3⟩
      have ho := Nat.div_add_mod o m
      rw [h3] at ho
      have hq : o / m = s / m := by
        apply Nat.le_antisymm
        · refine Nat.le_of_lt_succ (Nat.lt_of_mul_lt_mul_left (a := m) ?_)
          rw [Nat.mul_succ]; omega
        · exact Nat.div_le_div_right h1
      rw [← ho, hq]
  · refine ⟨m * (s / m + 1) + r, ⟨⟨?_, ?_⟩, ?_⟩, ?_⟩
    · rw [Nat.mul_succ]; omega
    · rw [Nat.mul_succ]; omega
    · rw [Nat.mul_add_mod, Nat.mod_eq_of_lt hr]
    · rintro o ⟨⟨h1, h2⟩, h3⟩
      have ho := Nat.div_add_mod o m
      rw [h3] at ho
      have hq : o / m = s / m + 1 := by
        apply Nat.le_antisymm
        · refine Nat.le_of_lt_succ (Nat.lt_of_mul_lt_mul_left (a := m) ?_)
          rw [Nat.mul_succ, Nat.mul_succ]; omega
        · refine Nat.succ_le_of_lt (Nat.lt_of_mul_lt_mul_left (a := m) ?_)
          omega
      rw [← ho, hq]

/-- Every place of every slot is visited exactly once in any `p * w` consecutive values. -/
theorem existsUnique_visits {p w i k : Nat} (hi : i < p) (hk : k < w) (s : Nat) :
    ∃! o, (s ≤ o ∧ o < s + p * w) ∧ Visits p w i k o := by
  have hr : i + p * k < p * w := by
    calc i + p * k < p + p * k := by omega
      _ = p * (k + 1) := by rw [Nat.mul_succ, Nat.add_comm]
      _ ≤ p * w := Nat.mul_le_mul_left p hk
  simpa only [visits_iff hi] using existsUnique_mod_eq hr s

/-- Two values visit the same place of the same slot when the common period divides
their difference. -/
theorem same_visit_iff {p w : Nat} (hp : 0 < p) (o o' : Nat) :
    (o % p = o' % p ∧ o / p % w = o' / p % w) ↔ o ≡ o' [MOD p * w] := by
  have h := visits_iff (w := w) (k := o' / p % w) (Nat.mod_lt o' hp) o
  have h' := (visits_iff (w := w) (k := o' / p % w) (Nat.mod_lt o' hp) o').1 ⟨rfl, rfl⟩
  exact h.trans (by rw [← h']; rfl)

/-! ## Windows of a list -/

section Window
variable {α : Type*}

/-- The `k`-th of the windows of size `c` a list is cut into. -/
def window (c : Nat) (l : List α) (k : Nat) : List α := (l.drop (k * c)).take c

/-- How many windows of size `c` the list makes, the last one possibly short. -/
def windowCount (c : Nat) (l : List α) : Nat := (l.length + c - 1) / c

theorem mem_window_iff {c : Nat} {l : List α} {k : Nat} {a : α} :
    a ∈ window c l k ↔ ∃ j, k * c ≤ j ∧ j < k * c + c ∧ l[j]? = some a := by
  simp only [window, List.mem_iff_getElem?, List.getElem?_take, List.getElem?_drop]
  constructor
  · rintro ⟨n, hn⟩
    split at hn
    · exact ⟨k * c + n, by omega, by omega, hn⟩
    · simp at hn
  · rintro ⟨j, h1, h2, hj⟩
    refine ⟨j - k * c, ?_⟩
    rw [if_pos (by omega), Nat.add_sub_cancel' h1, hj]

/-- A member of a duplicate-free list lies in exactly one of its windows. -/
theorem exists_window {c : Nat} (hc : 0 < c) {l : List α} (hl : l.Nodup) {a : α} (ha : a ∈ l) :
    ∃ k, k < windowCount c l ∧ ∀ k', a ∈ window c l k' ↔ k' = k := by
  obtain ⟨j, hj, rfl⟩ := List.mem_iff_getElem.1 ha
  refine ⟨j / c, ?_, fun k' => ?_⟩
  · rw [windowCount, Nat.div_lt_iff_lt_mul hc]
    have hdm := Nat.div_add_mod (l.length + c - 1) c
    have hlt := Nat.mod_lt (l.length + c - 1) hc
    rw [Nat.mul_comm] at hdm
    omega
  · rw [mem_window_iff]
    constructor
    · rintro ⟨i, h1, h2, hi⟩
      obtain ⟨hi', he⟩ := List.getElem?_eq_some_iff.1 hi
      obtain rfl : i = j := (List.Nodup.getElem_inj_iff hl).1 he
      exact (Nat.div_eq_of_lt_le h1 (by rw [Nat.add_mul, Nat.one_mul]; exact h2)).symm
    · rintro rfl
      refine ⟨j, Nat.div_mul_le_self j c, ?_, List.getElem?_eq_getElem hj⟩
      have hdm := Nat.div_add_mod j c
      have hlt := Nat.mod_lt j hc
      rw [Nat.mul_comm] at hdm
      omega

theorem windowCount_pos {c : Nat} (hc : 0 < c) {l : List α} (hl : l ≠ []) :
    0 < windowCount c l := by
  have := List.length_pos_of_ne_nil hl
  exact Nat.div_pos (by omega) hc

theorem windowCount_nil {c : Nat} (hc : 0 < c) : windowCount c ([] : List α) = 0 := by
  rw [windowCount, List.length_nil, Nat.div_eq_of_lt (by omega)]

end Window

/-! ## The mixed-radix counter -/

/-- `hi * n + lo` with a digit `lo < n` names every number exactly once. -/
theorem existsUnique_digits {n : Nat} (hn : 0 < n) (o : Nat) :
    ∃! d : Nat × Nat, d.2 < n ∧ d.1 * n + d.2 = o := by
  refine ⟨(o / n, o % n), ⟨Nat.mod_lt o hn, by rw [Nat.mul_comm]; exact Nat.div_add_mod o n⟩, ?_⟩
  rintro ⟨a, b⟩ ⟨hb, rfl⟩
  rw [Prod.mk.injEq]
  constructor
  · rw [Nat.mul_comm, Nat.mul_add_div hn, Nat.div_eq_of_lt hb, Nat.add_zero]
  · rw [Nat.mul_comm, Nat.mul_add_mod, Nat.mod_eq_of_lt hb]

end MpcHunt.Rotation
