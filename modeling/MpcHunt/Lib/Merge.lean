/-
Merging entries into a dictionary one by one, where an entry that is there
already must be the same: what the result holds and where it comes from.
-/
import MpcHunt.Lib.Checks
import MpcHunt.Lib.Dict

namespace MpcHunt.Merge

open Checks

variable {κ ν α σ : Type}

/-- `d'` is `d` with the entries `xs`: it has what `d` had and, under its key, a value for each
entry, and nothing else. -/
structure Merged (key : α → κ) (val : α → ν → Prop) (d : Dict κ ν) (xs : List α) (d' : Dict κ ν) :
    Prop where
  kept : ∀ p ∈ d, p ∈ d'
  added : ∀ a ∈ xs, ∃ v, (key a, v) ∈ d' ∧ val a v
  origin : ∀ p ∈ d', p ∈ d ∨ ∃ a ∈ xs, key a = p.1 ∧ val a p.2

variable {key : α → κ} {val : α → ν → Prop}

theorem Merged.nil (d : Dict κ ν) : Merged key val d [] d where
  kept _ h := h
  added _ h := nomatch h
  origin _ h := .inl h

theorem Merged.cons {d d' d'' : Dict κ ν} {a : α} {xs : List α} (h : Merged key val d [a] d')
    (h' : Merged key val d' xs d'') : Merged key val d (a :: xs) d'' where
  kept p hp := h'.kept p (h.kept p hp)
  added := by
    intro b hb
    rcases List.mem_cons.1 hb with rfl | hb
    · obtain ⟨v, hv, hval⟩ := h.added b List.mem_cons_self
      exact ⟨v, h'.kept _ hv, hval⟩
    · exact h'.added b hb
  origin := by
    intro p hp
    rcases h'.origin p hp with hp | ⟨b, hb, hkey, hval⟩
    · rcases h.origin p hp with hp | ⟨b, hb, hkey, hval⟩
      · exact .inl hp
      · rw [List.mem_singleton.1 hb] at hkey hval
        exact .inr ⟨a, List.mem_cons_self, hkey, hval⟩
    · exact .inr ⟨b, List.mem_cons_of_mem a hb, hkey, hval⟩

/-- An entry that is there already. -/
theorem Merged.present {d : Dict κ ν} {a : α} {v : ν} (hmem : (key a, v) ∈ d) (hval : val a v) :
    Merged key val d [a] d where
  kept _ h := h
  added b hb := by
    rw [List.mem_singleton.1 hb]
    exact ⟨v, hmem, hval⟩
  origin _ h := .inl h

/-- A new entry. -/
theorem Merged.fresh {d : Dict κ ν} {a : α} {v : ν} (hval : val a v) :
    Merged key val d [a] (d ++ [(key a, v)]) where
  kept _ h := List.mem_append_left _ h
  added b hb := by
    rw [List.mem_singleton.1 hb]
    exact ⟨v, List.mem_append_right _ (List.mem_singleton.2 rfl), hval⟩
  origin p hp := by
    rcases List.mem_append.1 hp with hp | hp
    · exact .inl hp
    · rw [List.mem_singleton.1 hp]
      exact .inr ⟨a, List.mem_singleton.2 rfl, rfl, hval⟩

/-- A loop each turn of which merges one entry merges them all. -/
theorem foldlM_merged (view : σ → Dict κ ν) (Inv : σ → Prop) {step : σ → α → Except String σ}
    (hstep : ∀ {s a s'}, Inv s → step s a = .ok s' →
      Inv s' ∧ Merged key val (view s) [a] (view s'))
    {xs : List α} {s s' : σ} (hs : Inv s) (h : xs.foldlM step s = .ok s') :
    Merged key val (view s) xs (view s') := by
  induction xs generalizing s with
  | nil =>
    obtain rfl : s = s' := Except.ok.inj h
    exact .nil _
  | cons a xs ih =>
    rw [List.foldlM_cons] at h
    obtain ⟨mid, hmid, hrest⟩ := bind_eq_ok.1 h
    obtain ⟨hinv, hone⟩ := hstep hs hmid
    exact hone.cons (ih hinv hrest)

end MpcHunt.Merge
