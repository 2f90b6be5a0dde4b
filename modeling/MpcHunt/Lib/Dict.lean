/-
Insertion-ordered dictionaries as association lists (a Python `dict`): an
assignment to a present key keeps its position, a new key goes last. With
them, ascending sorting (`sorted`) of what a dictionary holds.
-/
import Mathlib.Data.List.Basic
import Mathlib.Data.List.Nodup
import Mathlib.Data.List.Sort

namespace MpcHunt

/-- An insertion-ordered dictionary. -/
abbrev Dict (κ ν : Type*) := List (κ × ν)

namespace Dict
variable {κ ν : Type*} [DecidableEq κ]

/-- `d.get(k)`. -/
def get? (d : Dict κ ν) (k : κ) : Option ν := (d.find? (·.1 = k)).map (·.2)

/-- `k in d`. -/
def has (d : Dict κ ν) (k : κ) : Bool := d.any (·.1 = k)

/-- `d[k] = v`. -/
def set : Dict κ ν → κ → ν → Dict κ ν
  | [], k, v => [(k, v)]
  | (k', v') :: d, k, v => if k' = k then (k', v) :: d else (k', v') :: set d k v

/-- The keys, in order. -/
def keys (d : Dict κ ν) : List κ := d.map (·.1)

@[simp] theorem get?_nil (k : κ) : get? ([] : Dict κ ν) k = none := rfl

theorem get?_cons (k k' : κ) (v : ν) (d : Dict κ ν) :
    get? ((k', v) :: d) k = if k' = k then some v else get? d k := by
  by_cases h : k' = k <;> simp [get?, h]

theorem get?_set_self (d : Dict κ ν) (k : κ) (v : ν) : (d.set k v).get? k = some v := by
  induction d with
  | nil => simp [set, get?_cons]
  | cons p d ih =>
    obtain ⟨k', v'⟩ := p
    simp only [set]
    split
    · next h => simp [get?_cons, h]
    · next h => rw [get?_cons, if_neg h, ih]

theorem get?_set_other (d : Dict κ ν) {k k' : κ} (h : k' ≠ k) (v : ν) :
    (d.set k v).get? k' = d.get? k' := by
  induction d with
  | nil => simp [set, get?_cons, h.symm]
  | cons p d ih =>
    obtain ⟨a, w⟩ := p
    simp only [set]
    split
    · next ha =>
      subst ha
      rw [get?_cons, get?_cons, if_neg h.symm, if_neg h.symm]
    · rw [get?_cons, get?_cons, ih]

theorem get?_set (d : Dict κ ν) (k k' : κ) (v : ν) :
    (d.set k v).get? k' = if k' = k then some v else d.get? k' := by
  split
  · next h => rw [h, get?_set_self]
  · next h => exact get?_set_other d h v

theorem mem_keys_iff (d : Dict κ ν) (k : κ) : k ∈ d.keys ↔ ∃ v, d.get? k = some v := by
  induction d with
  | nil => simp [keys]
  | cons p d ih =>
    obtain ⟨k', v'⟩ := p
    rw [keys, List.map_cons, List.mem_cons, ← keys, ih, get?_cons]
    by_cases h : k' = k
    · simp [h]
    · simp [h, Ne.symm h]

theorem has_iff (d : Dict κ ν) (k : κ) : d.has k = true ↔ k ∈ d.keys := by
  simp only [has, keys, List.any_eq_true, decide_eq_true_eq, List.mem_map]

theorem mem_keys_set (d : Dict κ ν) (k k' : κ) (v : ν) :
    k' ∈ (d.set k v).keys ↔ k' = k ∨ k' ∈ d.keys := by
  rw [mem_keys_iff, mem_keys_iff, get?_set]
  by_cases h : k' = k <;> simp [h]

theorem set_of_not_mem {d : Dict κ ν} {k : κ} (h : k ∉ d.keys) (v : ν) :
    d.set k v = d ++ [(k, v)] := by
  induction d with
  | nil => rfl
  | cons p d ih =>
    simp only [keys, List.map_cons, List.mem_cons, not_or] at h
    rw [set, if_neg (Ne.symm h.1), ih h.2]
    rfl

theorem keys_set_of_mem {d : Dict κ ν} {k : κ} (h : k ∈ d.keys) (v : ν) :
    (d.set k v).keys = d.keys := by
  induction d with
  | nil => cases h
  | cons p d ih =>
    obtain ⟨k', v'⟩ := p
    by_cases hk : k' = k
    · rw [set, if_pos hk]
      rfl
    · have hmem : k ∈ keys d := by
        rcases List.mem_cons.1 h with h | h
        · exact absurd h.symm hk
        · exact h
      rw [set, if_neg hk, keys, List.map_cons, ← keys, ih hmem]
      rfl

theorem nodup_keys_set {d : Dict κ ν} (hd : d.keys.Nodup) (k : κ) (v : ν) :
    (d.set k v).keys.Nodup := by
  induction d with
  | nil => simp [set, keys]
  | cons p d ih =>
    obtain ⟨k', v'⟩ := p
    rw [keys, List.map_cons, List.nodup_cons] at hd
    simp only [set]
    split
    · next h => rw [keys, List.map_cons, List.nodup_cons]; exact hd
    · next h =>
      rw [keys, List.map_cons, List.nodup_cons]
      refine ⟨fun hm => ?_, ih hd.2⟩
      rcases (mem_keys_set d k k' v).1 hm with he | hm
      · exact h he
      · exact hd.1 hm

theorem get?_of_mem {d : Dict κ ν} (hd : d.keys.Nodup) {k : κ} {v : ν} (h : (k, v) ∈ d) :
    d.get? k = some v := by
  induction d with
  | nil => simp at h
  | cons p d ih =>
    obtain ⟨k', v'⟩ := p
    rw [keys, List.map_cons, List.nodup_cons] at hd
    rw [get?_cons]
    rcases List.mem_cons.1 h with he | h
    · cases he; simp
    · rw [if_neg, ih hd.2 h]
      rintro rfl
      exact hd.1 (List.mem_map_of_mem (f := (·.1)) h)

theorem mem_of_get? {d : Dict κ ν} {k : κ} {v : ν} (h : d.get? k = some v) : (k, v) ∈ d := by
  simp only [get?, Option.map_eq_some_iff] at h
  obtain ⟨⟨k', v'⟩, hf, rfl⟩ := h
  have hk := List.find?_some hf
  simp only [decide_eq_true_eq] at hk
  subst hk
  exact List.mem_of_find?_eq_some hf

omit [DecidableEq κ] in
theorem keys_append (d e : Dict κ ν) : keys (d ++ e) = d.keys ++ e.keys := List.map_append

omit [DecidableEq κ] in
/-- Dictionaries with the same keys have the same image when their entries do key by key. -/
theorem map_eq_map_iff {δ : Type*} {d e : Dict κ ν} (hkeys : d.keys = e.keys) (hd : d.keys.Nodup)
    (f : ν → δ) :
    d.map (fun p => (p.1, f p.2)) = e.map (fun p => (p.1, f p.2)) ↔
      ∀ k a b, (k, a) ∈ d → (k, b) ∈ e → f a = f b := by
  induction d generalizing e with
  | nil =>
    obtain rfl : e = [] := by simpa [keys] using hkeys.symm
    simp
  | cons p d ih =>
    obtain ⟨k, a⟩ := p
    cases e with
    | nil => simp [keys] at hkeys
    | cons q e =>
      obtain ⟨k', b⟩ := q
      simp only [keys, List.map_cons, List.cons.injEq] at hkeys
      obtain ⟨rfl, hkeys⟩ := hkeys
      rw [keys, List.map_cons, List.nodup_cons] at hd
      have hfresh : ∀ c, (k, c) ∉ e := fun c hc =>
        hd.1 (hkeys ▸ List.mem_map.2 ⟨(k, c), hc, rfl⟩)
      have hfresh' : ∀ c, (k, c) ∉ d := fun c hc => hd.1 (List.mem_map.2 ⟨(k, c), hc, rfl⟩)
      rw [List.map_cons, List.map_cons, List.cons.injEq, ih hkeys hd.2, Prod.mk.injEq]
      constructor
      · rintro ⟨⟨-, hab⟩, hrest⟩ j x y hx hy
        rcases List.mem_cons.1 hx with hx | hx
        · cases hx
          rcases List.mem_cons.1 hy with hy | hy
          · cases hy
            exact hab
          · exact absurd hy (hfresh y)
        · rcases List.mem_cons.1 hy with hy | hy
          · cases hy
            exact absurd hx (hfresh' x)
          · exact hrest j x y hx hy
      · intro h
        exact ⟨⟨rfl, h k a b List.mem_cons_self List.mem_cons_self⟩,
          fun j x y hx hy => h j x y (List.mem_cons_of_mem _ hx) (List.mem_cons_of_mem _ hy)⟩

end Dict

/-! ## Sorting -/

section Sorted
variable {α : Type*} [LinearOrder α]

/-- `sorted(xs)`. -/
def sorted (xs : List α) : List α := xs.insertionSort (· ≤ ·)

@[simp] theorem mem_sorted {xs : List α} {a : α} : a ∈ sorted xs ↔ a ∈ xs :=
  (List.perm_insertionSort (· ≤ ·) xs).mem_iff

@[simp] theorem nodup_sorted {xs : List α} : (sorted xs).Nodup ↔ xs.Nodup :=
  (List.perm_insertionSort (· ≤ ·) xs).nodup_iff

@[simp] theorem length_sorted (xs : List α) : (sorted xs).length = xs.length :=
  (List.perm_insertionSort (· ≤ ·) xs).length_eq

/-- Duplicate-free lists with the same members sort to the same list. -/
theorem sorted_congr {xs ys : List α} (hx : xs.Nodup) (hy : ys.Nodup) (h : ∀ a, a ∈ xs ↔ a ∈ ys) :
    sorted xs = sorted ys := by
  have hperm : xs.Perm ys := (List.perm_ext_iff_of_nodup hx hy).2 h
  have hs : (sorted xs).Perm (sorted ys) :=
    (List.perm_insertionSort _ xs).trans (hperm.trans (List.perm_insertionSort _ ys).symm)
  exact hs.eq_of_pairwise' (List.pairwise_insertionSort _ xs) (List.pairwise_insertionSort _ ys)

end Sorted

end MpcHunt
