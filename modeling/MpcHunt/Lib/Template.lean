/-
Templates: constant text and groups of one or more symbols of a class. A
template is filled with a text a group, and matched against a whole text as an
anchored regular expression is, each group taking as much as it can. Where no
group can run into what follows it, each undoes the other.
-/
import Mathlib

namespace MpcHunt

inductive Piece (α : Type) where
  | lit (s : List α)
  | group (p : α → Bool)

namespace Template

variable {α β : Type}

/-- The template with its groups filled. -/
def fill : List (Piece α) → List (List α) → List α
  | .lit s :: ps, cs => s ++ fill ps cs
  | .group _ :: ps, c :: cs => c ++ fill ps cs
  | _, _ => []

/-- One text for each group, of one or more symbols of its class. -/
def Fits : List (Piece α) → List (List α) → Prop
  | [], cs => cs = []
  | .lit _ :: ps, cs => Fits ps cs
  | .group p :: ps, c :: cs => (c ≠ [] ∧ ∀ a ∈ c, p a = true) ∧ Fits ps cs
  | .group _ :: _, [] => False

/-- The first success from `n` down to 1. -/
def longest (f : Nat → Option β) : Nat → Option β
  | 0 => none
  | n + 1 =>
    match f (n + 1) with
    | some b => some b
    | none => longest f n

/-- What each group takes of a text that matches as a whole. -/
def capture [DecidableEq α] : List (Piece α) → List α → Option (List (List α))
  | [], s => if s = [] then some [] else none
  | .lit l :: ps, s => if l.isPrefixOf s then capture ps (s.drop l.length) else none
  | .group p :: ps, s =>
    longest (fun n => (capture ps (s.drop n)).map (s.take n :: ·)) (s.takeWhile p).length

/-- What follows a group of the class `p`: nothing, or a symbol that is not of it. -/
def Stops (p : α → Bool) : List (Piece α) → Prop
  | [] => True
  | .lit (a :: _) :: _ => p a = false
  | _ => False

/-- No group can run into what follows it. -/
def Separated : List (Piece α) → Prop
  | [] => True
  | .lit _ :: ps => Separated ps
  | .group p :: ps => Stops p ps ∧ Separated ps

theorem of_longest {f : Nat → Option β} {n : Nat} {b : β} (h : longest f n = some b) :
    ∃ k, 1 ≤ k ∧ k ≤ n ∧ f k = some b := by
  induction n with
  | zero => cases h
  | succ n ih =>
    unfold longest at h
    cases hf : f (n + 1) with
    | some b' =>
      rw [hf] at h
      exact ⟨n + 1, by omega, by omega, hf.trans h⟩
    | none =>
      rw [hf] at h
      obtain ⟨k, hk, hkn, hfk⟩ := ih h
      exact ⟨k, hk, by omega, hfk⟩

theorem longest_eq {f : Nat → Option β} {n : Nat} {b : β} (hn : 1 ≤ n) (h : f n = some b) :
    longest f n = some b := by
  cases n with
  | zero => omega
  | succ n => simp only [longest, h]

theorem takeWhile_fill {p : α → Bool} {ps : List (Piece α)} (h : Stops p ps) (cs : List (List α)) :
    (fill ps cs).takeWhile p = [] := by
  unfold Stops at h
  split at h
  · rfl
  · rw [fill, List.cons_append, List.takeWhile_cons_of_neg (by simp [h])]
  · exact h.elim

section
variable [DecidableEq α] {ps : List (Piece α)}

/-- A match is the template filled with what its groups took. -/
theorem fill_of_capture {s : List α} {cs : List (List α)} (h : capture ps s = some cs) :
    Fits ps cs ∧ fill ps cs = s := by
  induction ps generalizing s cs with
  | nil =>
    unfold capture at h
    by_cases hs : s = []
    · rw [if_pos hs] at h
      cases h
      exact ⟨rfl, hs.symm⟩
    · rw [if_neg hs] at h
      cases h
  | cons q ps ih =>
    cases q with
    | lit l =>
      unfold capture at h
      by_cases hl : l.isPrefixOf s = true
      · rw [if_pos hl] at h
        obtain ⟨hfits, hfill⟩ := ih h
        obtain ⟨r, rfl⟩ := List.isPrefixOf_iff_prefix.1 hl
        rw [List.drop_left] at hfill
        refine ⟨hfits, ?_⟩
        unfold fill
        rw [hfill]
      · rw [if_neg hl] at h
        cases h
    | group p =>
      unfold capture at h
      obtain ⟨n, hn, hlen, h⟩ := of_longest h
      obtain ⟨rest, hrest, rfl⟩ := Option.map_eq_some_iff.1 h
      obtain ⟨hfits, hfill⟩ := ih hrest
      refine ⟨⟨⟨?_, ?_⟩, hfits⟩, ?_⟩
      · have hs : n ≤ s.length := hlen.trans (List.takeWhile_prefix p).length_le
        intro hnil
        have := congrArg List.length hnil
        rw [List.length_take, List.length_nil] at this
        omega
      · intro a ha
        have hsub : s.take n <+: s.takeWhile p := by
          rw [List.prefix_iff_eq_take.1 (List.takeWhile_prefix (l := s) p)]
          exact List.take_prefix_take_left hlen
        exact List.mem_takeWhile_imp (hsub.subset ha)
      · unfold fill
        rw [hfill, List.take_append_drop]

/-- A filled template matches, with the same texts. -/
theorem capture_fill {cs : List (List α)} (hsep : Separated ps) (h : Fits ps cs) :
    capture ps (fill ps cs) = some cs := by
  induction ps generalizing cs with
  | nil =>
    obtain rfl : cs = [] := h
    rfl
  | cons q ps ih =>
    cases q with
    | lit l =>
      have hpre : l.isPrefixOf (l ++ fill ps cs) = true :=
        List.isPrefixOf_iff_prefix.2 (List.prefix_append l _)
      unfold fill capture
      rw [if_pos hpre, List.drop_left]
      exact ih hsep h
    | group p =>
      cases cs with
      | nil => cases h
      | cons c cs =>
        obtain ⟨⟨hne, hc⟩, hfits⟩ := h
        obtain ⟨hnext, hsep⟩ := hsep
        have hrun : (c ++ fill ps cs).takeWhile p = c := by
          rw [List.takeWhile_append_of_pos hc, takeWhile_fill hnext, List.append_nil]
        unfold fill capture
        rw [hrun]
        refine longest_eq (List.length_pos_iff.2 hne) ?_
        rw [List.drop_left, List.take_left, ih hsep hfits]
        rfl

/-- A separated template says what it was filled with. -/
theorem fill_inj {cs cs' : List (List α)} (hsep : Separated ps) (h : Fits ps cs)
    (h' : Fits ps cs') (heq : fill ps cs = fill ps cs') : cs = cs' := by
  have hcs := capture_fill hsep h
  rw [heq, capture_fill hsep h'] at hcs
  exact (Option.some.inj hcs).symm

end

end Template

end MpcHunt
