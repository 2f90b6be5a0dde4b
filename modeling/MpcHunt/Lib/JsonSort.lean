/-
What `sort_keys=True` does to a value: the members of an object stay the same
ones under the same keys, so that looking one up is not changed by it.
-/
import MpcHunt.Lib.JsonText

namespace MpcHunt.Json

open Digits

theorem perm_insertMember (m : Str × Value) (ms : List (Str × Value)) :
    (insertMember m ms).Perm (m :: ms) := by
  induction ms with
  | nil => exact .refl _
  | cons m' ms ih =>
    unfold insertMember
    split
    · exact .refl _
    · exact (ih.cons m').trans (.swap m m' ms)

theorem sortElements_eq_map (xs : List Value) : sortElements xs = xs.map sortKeys := by
  induction xs with
  | nil => rfl
  | cons x xs ih => rw [sortElements, ih, List.map_cons]

theorem perm_sortMembers (ms : List (Str × Value)) :
    (sortMembers ms).Perm (ms.map fun m => (m.1, sortKeys m.2)) := by
  induction ms with
  | nil => exact .refl _
  | cons m ms ih =>
    rw [sortMembers, List.map_cons]
    exact (perm_insertMember _ _).trans (ih.cons _)

theorem keys_sortMembers (ms : List (Str × Value)) :
    (Dict.keys (sortMembers ms)).Perm (Dict.keys ms) := by
  have hperm := (perm_sortMembers ms).map Prod.fst
  rw [List.map_map] at hperm
  exact hperm

/-- What is under a key is sorted where it was. -/
theorem get?_sortMembers {ms : List (Str × Value)} (h : (Dict.keys ms).Nodup) (k : Str) :
    Dict.get? (sortMembers ms) k = (Dict.get? ms k).map sortKeys := by
  have hsorted : (Dict.keys (sortMembers ms)).Nodup := (keys_sortMembers ms).nodup_iff.2 h
  have hmem : ∀ v, (k, v) ∈ sortMembers ms ↔ ∃ u, (k, u) ∈ ms ∧ sortKeys u = v := by
    intro v
    rw [(perm_sortMembers ms).mem_iff, List.mem_map]
    constructor
    · rintro ⟨⟨k', u⟩, hu, heq⟩
      obtain ⟨rfl, rfl⟩ := Prod.mk.inj heq
      exact ⟨u, hu, rfl⟩
    · rintro ⟨u, hu, rfl⟩
      exact ⟨(k, u), hu, rfl⟩
  cases hget : Dict.get? ms k with
  | some u =>
    exact Dict.get?_of_mem hsorted ((hmem _).2 ⟨u, Dict.mem_of_get? hget, rfl⟩)
  | none =>
    rw [Option.map_none, Option.eq_none_iff_forall_ne_some]
    intro v hv
    obtain ⟨u, hu, -⟩ := (hmem v).1 (Dict.mem_of_get? hv)
    rw [Dict.get?_of_mem h hu] at hget
    cases hget

/-! ## Plain values -/

theorem plainMembers_iff {ms : List (Str × Value)} :
    PlainMembers ms ↔ ∀ m ∈ ms, (∀ c ∈ m.1, isScalar c = true) ∧ Plain m.2 := by
  induction ms with
  | nil => simp [PlainMembers]
  | cons m ms ih =>
    obtain ⟨k, v⟩ := m
    rw [PlainMembers, ih, List.forall_mem_cons, and_assoc]

theorem plainElements_iff {xs : List Value} : PlainElements xs ↔ ∀ x ∈ xs, Plain x := by
  induction xs with
  | nil => simp [PlainElements]
  | cons x xs ih => rw [PlainElements, ih, List.forall_mem_cons]

mutual

theorem plain_sortKeys : (v : Value) → Plain v → Plain (sortKeys v)
  | .null, h | .bool _, h | .int _, h | .float _, h | .string _, h => by
    rw [sortKeys]
    · exact h
    all_goals simp
  | .array xs, h => by
    rw [sortKeys, Plain]
    rw [Plain] at h
    exact plain_sortElements xs h
  | .object ms, h => by
    rw [Plain] at h
    rw [sortKeys, Plain]
    exact ⟨plain_sortMembers ms h.1, (keys_sortMembers ms).nodup_iff.2 h.2⟩

theorem plain_sortElements : (xs : List Value) → PlainElements xs → PlainElements (sortElements xs)
  | [], h => h
  | x :: xs, h => by
    rw [PlainElements] at h
    rw [sortElements, PlainElements]
    exact ⟨plain_sortKeys x h.1, plain_sortElements xs h.2⟩

theorem plain_sortMembers : (ms : List (Str × Value)) → PlainMembers ms →
    PlainMembers (sortMembers ms)
  | [], h => h
  | (k, v) :: ms, h => by
    rw [PlainMembers] at h
    have hrest := plainMembers_iff.1 (plain_sortMembers ms h.2.2)
    rw [sortMembers, plainMembers_iff]
    intro m hm
    rcases List.mem_cons.1 ((perm_insertMember _ _).mem_iff.1 hm) with rfl | hm
    · exact ⟨h.1, plain_sortKeys v h.2.1⟩
    · exact hrest m hm

end

end MpcHunt.Json
