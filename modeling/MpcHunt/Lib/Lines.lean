/-
Splitting text into lines, each with the end it had: `splitlines` of Python,
for any set of line boundaries that has the line feed and the carriage
return. Lines that are not empty, put together with their ends, split back.
-/
import MpcHunt.Lib.Digits

namespace MpcHunt.Lines

/-- The boundaries of `str.splitlines`. -/
def strBreak (c : Nat) : Bool :=
  c ∈ [0x0A, 0x0B, 0x0C, 0x0D, 0x1C, 0x1D, 0x1E, 0x85, 0x2028, 0x2029]

/-- The boundaries of `bytes.splitlines`. -/
def bytesBreak (c : Nat) : Bool := c ∈ [0x0A, 0x0D]

/-- The lines of a text, each with its end; the last one may have none. -/
def lines (brk : Nat → Bool) : Str → List (Str × Str)
  | [] => []
  | 13 :: 10 :: s => ([], [13, 10]) :: lines brk s
  | c :: s =>
    if brk c then ([], [c]) :: lines brk s
    else
      match lines brk s with
      | [] => [([c], [])]
      | (l, e) :: rest => (c :: l, e) :: rest

/-- `splitlines()`. -/
def splitlines (brk : Nat → Bool) (s : Str) : List Str := (lines brk s).map Prod.fst

/-- `partition`: what is before the first separator, the separator, what is after it. -/
def partition (sep : Nat) : Str → Str × Str × Str
  | [] => ([], [], [])
  | c :: s =>
    if c = sep then ([], [sep], s)
    else
      let (before, found, after) := partition sep s
      (c :: before, found, after)

/-- Lines with their ends, put together. -/
def weave (ps : List (Str × Str)) : Str := ps.flatMap fun p => p.1 ++ p.2

/-- The end of a line. -/
def IsEnd (brk : Nat → Bool) (e : Str) : Prop := e = [13, 10] ∨ ∃ c, brk c = true ∧ e = [c]

/-- Lines that are not empty, all but the last with an end. -/
def Ended (brk : Nat → Bool) : List (Str × Str) → Prop
  | [] => True
  | (l, e) :: rest =>
    (l ≠ [] ∧ ∀ c ∈ l, brk c = false) ∧ (IsEnd brk e ∨ e = [] ∧ rest = []) ∧ Ended brk rest

theorem partition_eq {sep : Nat} {s before after : Str} :
    partition sep s = (before, [sep], after) ↔ s = before ++ sep :: after ∧ sep ∉ before := by
  induction s generalizing before with
  | nil => simp [partition]
  | cons c s ih =>
    unfold partition
    by_cases hc : c = sep
    · rw [if_pos hc, hc]
      cases before with
      | nil => simp
      | cons b before => simp +contextual [eq_comm]
    · rw [if_neg hc]
      cases before with
      | nil => simp [hc]
      | cons b before =>
        have htail := @ih before
        simp only [Prod.ext_iff] at htail ⊢
        simp only [List.cons.injEq, List.cons_append, List.mem_cons, not_or, and_assoc, htail]
        constructor
        · intro ⟨hb, hs, hmem⟩
          exact ⟨hb, hs, fun h => hc (hb.trans h.symm), hmem⟩
        · intro ⟨hb, hs, _, hmem⟩
          exact ⟨hb, hs, hmem⟩

variable {brk : Nat → Bool}

theorem lines_cons {c : Nat} {s : Str} (h : c = 13 → ∀ s', s ≠ 10 :: s') (hc : brk c = true) :
    lines brk (c :: s) = ([], [c]) :: lines brk s := by
  rw [lines, if_pos hc]
  intro s' h13 hs
  exact h h13 s' hs

/-- A symbol that is no boundary goes to the front of the line after it. -/
def toFront (c : Nat) : List (Str × Str) → List (Str × Str)
  | [] => [([c], [])]
  | (l, e) :: rest => (c :: l, e) :: rest

theorem lines_cons_inner {c : Nat} (h13 : brk 13 = true) (hc : brk c = false) (s : Str) :
    lines brk (c :: s) = toFront c (lines brk s) := by
  have hne : c ≠ 13 := by
    rintro rfl
    rw [h13] at hc
    cases hc
  rw [lines, if_neg (by rw [hc]; decide)]
  · cases lines brk s with
    | nil => rfl
    | cons p rest => rfl
  · intro s' h _
    exact hne h

theorem weave_lines (s : Str) : weave (lines brk s) = s := by
  fun_induction lines brk s with
  | case1 => rfl
  | case2 s ih => simpa [weave] using ih
  | case3 c s _ hc ih => simpa [weave] using ih
  | case4 c s _ hc hs ih =>
    rw [hs] at ih
    simpa [weave] using ih
  | case5 c s _ hc l e rest hs ih =>
    rw [hs] at ih
    simpa [weave] using ih

/-! ## Lines put together -/

theorem lines_end {e : Str} (he : IsEnd brk e) {s : Str}
    (hs : ∀ s', s ≠ 10 :: s') : lines brk (e ++ s) = ([], e) :: lines brk s := by
  rcases he with rfl | ⟨c, hc, rfl⟩
  · rfl
  · exact lines_cons (fun _ => hs) hc

theorem lines_line (h13 : brk 13 = true) {l e : Str} (hl : ∀ c ∈ l, brk c = false) {s : Str}
    {rest : List (Str × Str)} (hs : lines brk s = ([], e) :: rest) :
    lines brk (l ++ s) = (l, e) :: rest := by
  induction l with
  | nil => exact hs
  | cons c l ih =>
    rw [List.cons_append, lines_cons_inner h13 (hl c List.mem_cons_self),
      ih fun d hd => hl d (List.mem_cons_of_mem c hd)]
    rfl

theorem lines_last (h13 : brk 13 = true) {l : Str} (hne : l ≠ []) (hl : ∀ c ∈ l, brk c = false) :
    lines brk l = [(l, [])] := by
  induction l with
  | nil => exact absurd rfl hne
  | cons c l ih =>
    rw [lines_cons_inner h13 (hl c List.mem_cons_self)]
    cases l with
    | nil => rfl
    | cons d l =>
      rw [ih (List.cons_ne_nil d l) fun x hx => hl x (List.mem_cons_of_mem c hx)]
      rfl

/-- What is put together does not start with a line feed, so no end is taken for half of one. -/
theorem weave_head (h10 : brk 10 = true) {ps : List (Str × Str)} (h : Ended brk ps) (s : Str) :
    weave ps ≠ 10 :: s := by
  cases ps with
  | nil => simp [weave]
  | cons p rest =>
    obtain ⟨l, e⟩ := p
    obtain ⟨⟨hne, hl⟩, -, -⟩ := h
    cases l with
    | nil => exact absurd rfl hne
    | cons c l =>
      intro heq
      have hc : c = 10 := by simpa [weave] using congrArg List.head? heq
      have := hl c List.mem_cons_self
      rw [hc, h10] at this
      cases this

theorem lines_weave (h10 : brk 10 = true) (h13 : brk 13 = true) {ps : List (Str × Str)}
    (h : Ended brk ps) : lines brk (weave ps) = ps := by
  induction ps with
  | nil => rfl
  | cons p rest ih =>
    obtain ⟨l, e⟩ := p
    obtain ⟨⟨hne, hl⟩, hend, hrest⟩ := h
    have hw : weave ((l, e) :: rest) = l ++ (e ++ weave rest) := by simp [weave]
    rw [hw]
    rcases hend with hend | ⟨rfl, rfl⟩
    · refine lines_line h13 hl ?_
      rw [lines_end hend (weave_head h10 hrest), ih hrest]
    · simpa [weave] using lines_last h13 hne hl

/-- Lines are as `Ended` says if the first one always is. -/
theorem ended_of_first {ps : List (Str × Str)}
    (first : ∀ {p rest}, ps = p :: rest → (∀ c ∈ p.1, brk c = false) ∧
      (IsEnd brk p.2 ∨ p.2 = [] ∧ rest = []) ∧ ((∀ q ∈ rest, q.1 ≠ []) → Ended brk rest))
    (hne : ∀ p ∈ ps, p.1 ≠ []) : Ended brk ps := by
  cases ps with
  | nil => trivial
  | cons p rest =>
    obtain ⟨hl, he, hrest⟩ := first rfl
    exact ⟨⟨hne p List.mem_cons_self, hl⟩, he,
      hrest fun q hq => hne q (List.mem_cons_of_mem p hq)⟩

/-- The first line holds no boundary and ends at one or at the end of the text; after it come
lines of the same kind. -/
theorem lines_first {s : Str} {p : Str × Str} {rest : List (Str × Str)}
    (h : lines brk s = p :: rest) :
    (∀ c ∈ p.1, brk c = false) ∧ (IsEnd brk p.2 ∨ p.2 = [] ∧ rest = []) ∧
      ((∀ q ∈ rest, q.1 ≠ []) → Ended brk rest) := by
  fun_induction lines brk s generalizing p rest with
  | case1 => cases h
  | case2 s ih =>
    obtain ⟨rfl, rfl⟩ := List.cons.inj h
    exact ⟨by simp, .inl (.inl rfl), ended_of_first ih⟩
  | case3 c s _ hc ih =>
    obtain ⟨rfl, rfl⟩ := List.cons.inj h
    exact ⟨by simp, .inl (.inr ⟨c, hc, rfl⟩), ended_of_first ih⟩
  | case4 c s _ hc hs ih =>
    obtain ⟨rfl, rfl⟩ := List.cons.inj h
    exact ⟨by simpa using hc, .inr ⟨rfl, rfl⟩, fun _ => trivial⟩
  | case5 c s _ hc l e tail hs ih =>
    obtain ⟨rfl, rfl⟩ := List.cons.inj h
    obtain ⟨hl, he, htail⟩ := ih hs
    refine ⟨?_, he, htail⟩
    intro d hd
    rcases List.mem_cons.1 hd with rfl | hd
    · exact Bool.eq_false_of_not_eq_true hc
    · exact hl d hd

/-- The lines of a text that has no empty ones. -/
theorem ended_lines {s : Str} (h : ∀ p ∈ lines brk s, p.1 ≠ []) : Ended brk (lines brk s) :=
  ended_of_first lines_first h

end MpcHunt.Lines
