/-
How long the text of a value is: bounds on numbers, strings and objects, from
bounds on their parts.
-/
import MpcHunt.Lib.Json

namespace MpcHunt.Json

open Digits

theorem length_render_le {fuel n k : Nat} (hk : 0 < k) (h : n < 10 ^ k) :
    (render fuel n).length ≤ k := by
  induction fuel generalizing n k with
  | zero => exact Nat.zero_le k
  | succ fuel ih =>
    unfold render
    by_cases hn : n < 10
    · rw [if_pos hn]
      exact hk
    · rw [if_neg hn, List.length_append, List.length_singleton]
      obtain ⟨k, rfl⟩ := Nat.exists_eq_add_of_lt hk
      rw [Nat.zero_add, pow_succ] at h
      have hk' : 0 < k := by
        rcases Nat.eq_zero_or_pos k with rfl | hk'
        · omega
        · exact hk'
      have := ih hk' (Nat.div_lt_of_lt_mul (Nat.mul_comm _ 10 ▸ h))
      omega

/-- A number of no more than so many digits. -/
theorem length_showInt_le {n : Int} {k : Nat} (hk : 0 < k) (h0 : 0 ≤ n) (h : n < 10 ^ k) :
    (showInt n).length ≤ k := by
  obtain ⟨m, rfl⟩ := Int.eq_ofNat_of_zero_le h0
  rw [showInt, if_neg (by omega)]
  exact length_render_le hk (by exact_mod_cast h)

theorem length_escape_le (c : Nat) : (escape c).length ≤ 12 := by
  unfold escape
  repeat' split
  all_goals simp [escapeCode]

/-- A string takes at most twelve characters for each of its own. -/
theorem length_quote_le (s : Str) : (quote s).length ≤ 12 * s.length + 2 := by
  have hbody : (s.flatMap escape).length ≤ 12 * s.length := by
    induction s with
    | nil => exact Nat.le_refl 0
    | cons c s ih =>
      rw [List.flatMap_cons, List.length_append, List.length_cons]
      have := length_escape_le c
      omega
  unfold quote
  rw [List.length_cons, List.length_append, List.length_singleton]
  omega

/-- An object, from a bound on the name and the value of each member. -/
theorem length_dumps_object_le (k n : Nat) {ms : List (Str × Value)}
    (h : ∀ m ∈ ms, (quote m.1).length ≤ k ∧ (dumps compact m.2).length ≤ n) :
    (dumps compact (.object ms)).length ≤ ms.length * (k + n + 2) + 2 := by
  have hmembers : (dumpsMembers compact ms).length ≤ ms.length * (k + n + 2) := by
    induction ms with
    | nil => exact Nat.zero_le _
    | cons m ms ih =>
      obtain ⟨hm, hms⟩ := List.forall_mem_cons.1 h
      have hrest := ih hms
      obtain ⟨name, v⟩ := m
      cases ms with
      | nil =>
        rw [dumpsMembers]
        simp only [compact, List.length_append, List.length_cons, List.length_nil] at hm ⊢
        omega
      | cons m' ms =>
        rw [dumpsMembers, List.length_cons, Nat.succ_mul]
        simp only [List.length_append, List.length_cons] at hm hrest ⊢
        simp only [compact, List.length_nil] at hm hrest ⊢
        omega
  rw [dumps, List.length_cons, List.length_append, List.length_singleton]
  omega

end MpcHunt.Json
