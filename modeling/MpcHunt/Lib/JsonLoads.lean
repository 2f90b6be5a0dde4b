/-
`json.loads`: it reads back what `json.dumps` writes, a reader with weaker
hooks reads what a stricter one reads, and universal newlines change nothing
of what is read.
-/
import MpcHunt.Lib.JsonText
import MpcHunt.Lib.Encoding

namespace MpcHunt.Json

open Digits

/-! ## The machine over the tokens of a value -/

/-- Hooks that leave objects alone whose names are different. -/
def Hooks.Faithful (hooks : Hooks) : Prop :=
  ∀ ms : List (Str × Value), (ms.map Prod.fst).Nodup → hooks.object ms = some (.object ms)

theorem keys_mapValues {β : Type} (m : Dict Str β) (f : β → Value) :
    Dict.keys (m.map fun p => (p.1, f p.2)) = m.keys := by
  unfold Dict.keys
  rw [List.map_map]
  rfl

theorem set_fresh (d : List (Str × Value)) {k : Str} (h : k ∉ d.map Prod.fst) (v : Value) :
    Dict.set d k v = d ++ [(k, v)] := by
  induction d with
  | nil => rfl
  | cons p d ih =>
    simp only [List.map_cons, List.mem_cons, not_or] at h
    rw [Dict.set, if_neg (Ne.symm h.1), ih h.2]
    rfl

theorem foldl_set_nodup (d ms : List (Str × Value)) (h : ((d ++ ms).map Prod.fst).Nodup) :
    ms.foldl (fun d p => Dict.set d p.1 p.2) d = d ++ ms := by
  induction ms generalizing d with
  | nil => rw [List.append_nil]; rfl
  | cons p ms ih =>
    have hfresh : p.1 ∉ d.map Prod.fst := by
      intro hmem
      rw [List.map_append, List.map_cons] at h
      exact (List.nodup_append.1 h).2.2 p.1 hmem p.1 List.mem_cons_self rfl
    rw [List.foldl_cons, set_fresh d hfresh, ih, List.append_assoc]
    · rfl
    · rw [List.append_assoc]
      exact h

theorem dictOf_nodup {ms : List (Str × Value)} (h : (ms.map Prod.fst).Nodup) : dictOf ms = ms :=
  foldl_set_nodup [] ms h

theorem default_faithful : Hooks.default.Faithful := by
  intro ms h
  show some (Value.object (dictOf ms)) = _
  rw [dictOf_nodup h]

/-- Modes in which a value may start. -/
def Starts (stack : List Frame) (mode : Mode) : Prop :=
  mode = .value ∨ (mode = .element ∧ ∃ xs below, stack = .array xs :: below)

section
variable {hooks : Hooks}

theorem step_start {stack : List Frame} {mode : Mode} (hm : Starts stack mode) {t : Token}
    (ht : t ≠ .rbracket) : step hooks (stack, mode) t = stepValue hooks stack t := by
  rcases hm with rfl | ⟨rfl, xs, below, rfl⟩
  · rfl
  · show stepElement hooks _ t = _
    cases t with
    | rbracket => exact absurd rfl ht
    | _ => rfl

mutual

/-- From where a value may start, the tokens of one lead to after it. -/
theorem machine_tokens (hh : hooks.Faithful) : (v : Value) → Plain v → (stack : List Frame) →
    (mode : Mode) → Starts stack mode →
    (tokens v).foldlM (step hooks) (stack, mode) = some (stack, .after v)
  | .null, _, stack, mode, hm => by
    rw [tokens, List.foldlM_cons, step_start hm (by decide)]
    rfl
  | .bool b, _, stack, mode, hm => by
    rw [tokens, List.foldlM_cons, step_start hm (by simp)]
    rfl
  | .int n, _, stack, mode, hm => by
    rw [tokens, List.foldlM_cons, step_start hm (by simp)]
    rfl
  | .float _, h, _, _, _ => by
    rw [Plain] at h
    exact h.elim
  | .string s, _, stack, mode, hm => by
    rw [tokens, List.foldlM_cons, step_start hm (by simp)]
    rfl
  | .array [], h, stack, mode, hm => by
    rw [tokens, List.foldlM_cons, step_start hm (by simp)]
    rfl
  | .array (x :: xs), h, stack, mode, hm => by
    rw [Plain] at h
    rw [tokens, List.foldlM_cons, step_start hm (by simp)]
    show (tokensElements (x :: xs) ++ [Token.rbracket]).foldlM (step hooks)
      (.array [] :: stack, .element) = _
    rw [machine_elements hh (x :: xs) h (List.cons_ne_nil x xs) [] stack .element
      (.inr ⟨rfl, [], stack, rfl⟩)]
    rfl
  | .object [], h, stack, mode, hm => by
    rw [tokens, List.foldlM_cons, step_start hm (by simp)]
    show (step hooks (.object [] :: stack, .keyOrEnd) .rbrace).bind some = _
    rw [Option.bind_fun_some]
    show (hooks.object []).map _ = _
    rw [hh [] List.nodup_nil]
    rfl
  | .object ((k, v) :: ms), h, stack, mode, hm => by
    rw [Plain] at h
    rw [tokens, List.foldlM_cons, step_start hm (by simp)]
    show (tokensMembers ((k, v) :: ms) ++ [Token.rbrace]).foldlM (step hooks)
      (.object [] :: stack, .keyOrEnd) = _
    rw [machine_members hh ((k, v) :: ms) h.1 (List.cons_ne_nil _ ms) [] stack .keyOrEnd (.inr rfl),
      List.nil_append, hh _ h.2]
    rfl

theorem machine_elements (hh : hooks.Faithful) : (xs : List Value) → PlainElements xs →
    xs ≠ [] → (before : List Value) → (stack : List Frame) → (mode : Mode) →
    Starts (.array before :: stack) mode →
    (tokensElements xs ++ [Token.rbracket]).foldlM (step hooks) (.array before :: stack, mode) =
      some (stack, .after (.array (before ++ xs)))
  | [], _, hne, _, _, _, _ => absurd rfl hne
  | [x], h, _, before, stack, mode, hm => by
    rw [PlainElements] at h
    rw [tokensElements, List.foldlM_append, machine_tokens hh x h.1 _ mode hm]
    rfl
  | x :: y :: xs, h, _, before, stack, mode, hm => by
    rw [PlainElements] at h
    rw [tokensElements, List.append_assoc, List.foldlM_append, machine_tokens hh x h.1 _ mode hm,
      List.cons_append]
    show (tokensElements (y :: xs) ++ [Token.rbracket]).foldlM (step hooks)
      (.array (before ++ [x]) :: stack, .value) = _
    rw [machine_elements hh (y :: xs) h.2 (List.cons_ne_nil y xs) (before ++ [x]) stack .value
      (.inl rfl), List.append_assoc]
    rfl

theorem machine_members (hh : hooks.Faithful) : (ms : List (Str × Value)) → PlainMembers ms →
    ms ≠ [] → (before : List (Str × Value)) → (stack : List Frame) → (mode : Mode) →
    mode = .key ∨ mode = .keyOrEnd →
    (tokensMembers ms ++ [Token.rbrace]).foldlM (step hooks) (.object before :: stack, mode) =
      (hooks.object (before ++ ms)).map fun o => (stack, .after o)
  | [], _, hne, _, _, _, _ => absurd rfl hne
  | [(k, v)], h, _, before, stack, mode, hm => by
    rw [PlainMembers] at h
    have hkey : step hooks (.object before :: stack, mode) (.string k) =
        some (.member before k :: stack, .colon) := by
      rcases hm with rfl | rfl
      · rfl
      · rfl
    have hcolon : step hooks (.member before k :: stack, .colon) .colon =
        some (.member before k :: stack, .value) := rfl
    rw [tokensMembers, List.cons_append, List.foldlM_cons, hkey, Option.bind_eq_bind,
      Option.bind_some, List.cons_append, List.foldlM_cons, hcolon, Option.bind_eq_bind,
      Option.bind_some, List.foldlM_append, machine_tokens hh v h.2.1 _ .value (.inl rfl)]
    show (step hooks (.member before k :: stack, .after v) .rbrace).bind some = _
    rw [Option.bind_fun_some]
    rfl
  | (k, v) :: m :: ms, h, _, before, stack, mode, hm => by
    rw [PlainMembers] at h
    have hkey : step hooks (.object before :: stack, mode) (.string k) =
        some (.member before k :: stack, .colon) := by
      rcases hm with rfl | rfl
      · rfl
      · rfl
    have hcolon : step hooks (.member before k :: stack, .colon) .colon =
        some (.member before k :: stack, .value) := rfl
    rw [tokensMembers, List.append_assoc, List.cons_append, List.foldlM_cons, hkey,
      Option.bind_eq_bind, Option.bind_some, List.cons_append, List.foldlM_cons, hcolon,
      Option.bind_eq_bind, Option.bind_some, List.foldlM_append,
      machine_tokens hh v h.2.1 _ .value (.inl rfl), List.cons_append]
    show (tokensMembers (m :: ms) ++ [Token.rbrace]).foldlM (step hooks)
      (.object (before ++ [(k, v)]) :: stack, .key) = _
    rw [machine_members hh (m :: ms) h.2.2 (List.cons_ne_nil m ms) (before ++ [(k, v)]) stack .key
      (.inl rfl), List.append_assoc]
    rfl

end

/-! ## The text of a value is ASCII -/

section
open Encoding

theorem hexDigit_lt {n : Nat} (h : n < 16) : hexDigit n < 128 := by
  unfold hexDigit
  split <;> omega

theorem isAscii_escapeCode (n : Nat) : IsAscii (escapeCode n) := by
  have hdigit : ∀ k, hexDigit (k % 16) < 128 := fun k => hexDigit_lt (Nat.mod_lt k (by omega))
  unfold IsAscii escapeCode
  simp [hdigit]

theorem isAscii_append {s t : Str} (hs : IsAscii s) (ht : IsAscii t) : IsAscii (s ++ t) :=
  fun c hc => (List.mem_append.1 hc).elim (hs c) (ht c)

theorem isAscii_cons {c : Nat} {s : Str} (hc : c < 128) (hs : IsAscii s) : IsAscii (c :: s) :=
  List.forall_mem_cons.2 ⟨hc, hs⟩

theorem isAscii_nil : IsAscii [] := nofun

theorem isAscii_escape (c : Nat) : IsAscii (escape c) := by
  have hplain : ∀ a b, a < 128 → b < 128 → IsAscii [a, b] := fun a b ha hb =>
    isAscii_cons ha (isAscii_cons hb isAscii_nil)
  unfold escape
  split
  · exact hplain _ _ (by decide) (by decide)
  split
  · exact hplain _ _ (by decide) (by decide)
  split
  · exact hplain _ _ (by decide) (by decide)
  split
  · exact hplain _ _ (by decide) (by decide)
  split
  · exact hplain _ _ (by decide) (by decide)
  split
  · exact hplain _ _ (by decide) (by decide)
  split
  · exact hplain _ _ (by decide) (by decide)
  split
  · next h => exact isAscii_cons (by omega) isAscii_nil
  split
  · exact isAscii_escapeCode c
  · exact isAscii_append (isAscii_escapeCode _) (isAscii_escapeCode _)

theorem isAscii_quote (s : Str) : IsAscii (quote s) := by
  have hbody : IsAscii (s.flatMap escape) := by
    intro c hc
    obtain ⟨d, -, hd⟩ := List.mem_flatMap.1 hc
    exact isAscii_escape d c hd
  exact isAscii_cons (by decide) (isAscii_append hbody (isAscii_cons (by decide) isAscii_nil))

theorem isAscii_showInt (n : Int) : IsAscii (showInt n) := by
  have hdigits : ∀ m, IsAscii (decimal m) := by
    intro m c hc
    have hdigit := (decimal_canonical m).1 c hc
    unfold isDigit at hdigit
    simp only [Bool.and_eq_true, decide_eq_true_eq] at hdigit
    omega
  unfold showInt
  split
  · exact isAscii_cons (by decide) (hdigits _)
  · exact hdigits _

section
variable {sep : Separators}

mutual

theorem isAscii_dumps (hsep : IsAscii sep.space) : (v : Value) → Plain v → IsAscii (dumps sep v)
  | .null, _ => by
    rw [dumps]
    simp [IsAscii, text]
  | .bool true, _ => by
    rw [dumps]
    simp [IsAscii, text]
  | .bool false, _ => by
    rw [dumps]
    simp [IsAscii, text]
  | .int n, _ => by
    rw [dumps]
    exact isAscii_showInt n
  | .float _, h => by
    rw [Plain] at h
    exact h.elim
  | .string s, _ => by
    rw [dumps]
    exact isAscii_quote s
  | .array xs, h => by
    rw [Plain] at h
    rw [dumps]
    exact isAscii_cons (by decide)
      (isAscii_append (isAscii_dumpsElements hsep xs h) (isAscii_cons (by decide) isAscii_nil))
  | .object ms, h => by
    rw [Plain] at h
    rw [dumps]
    exact isAscii_cons (by decide)
      (isAscii_append (isAscii_dumpsMembers hsep ms h.1) (isAscii_cons (by decide) isAscii_nil))

theorem isAscii_dumpsElements (hsep : IsAscii sep.space) : (xs : List Value) → PlainElements xs →
    IsAscii (dumpsElements sep xs)
  | [], _ => by
    rw [dumpsElements]
    exact isAscii_nil
  | [x], h => by
    rw [PlainElements] at h
    rw [dumpsElements]
    exact isAscii_dumps hsep x h.1
  | x :: y :: xs, h => by
    rw [PlainElements] at h
    rw [dumpsElements]
    exact isAscii_append (isAscii_dumps hsep x h.1) (isAscii_cons (by decide)
      (isAscii_append hsep (isAscii_dumpsElements hsep (y :: xs) h.2)))

theorem isAscii_dumpsMembers (hsep : IsAscii sep.space) : (ms : List (Str × Value)) → PlainMembers ms →
    IsAscii (dumpsMembers sep ms)
  | [], _ => by
    rw [dumpsMembers]
    exact isAscii_nil
  | [(k, v)], h => by
    rw [PlainMembers] at h
    rw [dumpsMembers]
    exact isAscii_append (isAscii_quote k)
      (isAscii_cons (by decide) (isAscii_append hsep (isAscii_dumps hsep v h.2.1)))
  | (k, v) :: m :: ms, h => by
    rw [PlainMembers] at h
    have hfirst := isAscii_append (isAscii_quote k)
      (isAscii_cons (by decide : 58 < 128) (isAscii_append hsep (isAscii_dumps hsep v h.2.1)))
    rw [dumpsMembers]
    exact isAscii_append hfirst
      (isAscii_cons (by decide) (isAscii_append hsep (isAscii_dumpsMembers hsep (m :: ms) h.2.2)))

end

end

end

/-- `json.loads` undoes `json.dumps`, with whitespace after it. -/
theorem loads_dumps (hh : hooks.Faithful) {sep : Separators}
    (hsep : ∀ c ∈ sep.space, isSpace c = true) {v : Value} (hv : Plain v) {tail : Str}
    (htail : ∀ c ∈ tail, isSpace c = true) : loads hooks (dumps sep v ++ tail) = some v := by
  have hends : Ends tail := by
    intro c hc
    have hspace := htail c (List.mem_of_mem_head? hc)
    unfold isSpace at hspace
    simp only [Bool.or_eq_true, beq_iff_eq] at hspace
    rcases hspace with ((rfl | rfl) | rfl) | rfl
    · decide
    · decide
    · decide
    · decide
  have htokens : lex (dumps sep v ++ tail) = some (tokens v) := by
    have hnil : lex tail = some [] := by
      have := lex_spaces htail []
      rwa [List.append_nil] at this
    rw [lex_dumps hsep v hv tail hends, hnil, Option.map_some, List.append_nil]
  unfold loads
  rw [htokens]
  dsimp only
  rw [machine_tokens hh v hv [] .value (.inl rfl)]

/-- Text written for two values tells them apart. -/
theorem dumps_inj {sep : Separators} (hsep : ∀ c ∈ sep.space, isSpace c = true) {v w : Value}
    (hv : Plain v) (hw : Plain w) (h : dumps sep v = dumps sep w) : v = w := by
  have hread : ∀ u, Plain u → loads .default (dumps sep u ++ []) = some u := fun u hu =>
    loads_dumps default_faithful hsep hu fun c hc => absurd hc List.not_mem_nil
  have hvw := hread v hv
  rw [h, hread w hw] at hvw
  exact (Option.some.inj hvw).symm

/-! ## Stricter and weaker hooks -/

/-- What the first hooks read, the second read as well. -/
structure Hooks.Le (strict weak : Hooks) : Prop where
  object : ∀ ms v, strict.object ms = some v → weak.object ms = some v
  constant : ∀ c v, strict.constant c = some v → weak.constant c = some v

end

section
variable {strict weak : Hooks} (hle : strict.Le weak)
include hle

theorem scalar_le {t : Token} {v : Value} (h : scalar strict t = some v) :
    scalar weak t = some v := by
  cases t with
  | constant c => exact hle.constant c v h
  | _ => exact h

theorem stepValue_le {stack : List Frame} {t : Token} {state : List Frame × Mode}
    (h : stepValue strict stack t = some state) : stepValue weak stack t = some state := by
  by_cases ht : t = .lbrace ∨ t = .lbracket
  · rcases ht with rfl | rfl
    · exact h
    · exact h
  · have hscalar : ∀ hooks, stepValue hooks stack t =
        (scalar hooks t).map fun v => (stack, Mode.after v) := by
      intro hooks
      cases t with
      | lbrace => exact absurd (.inl rfl) ht
      | lbracket => exact absurd (.inr rfl) ht
      | _ => rfl
    rw [hscalar] at h ⊢
    obtain ⟨v, hv, rfl⟩ := Option.map_eq_some_iff.1 h
    rw [scalar_le hle hv]
    rfl

theorem object_le {ms : List (Str × Value)} {below : List Frame} {state : List Frame × Mode}
    (h : ((strict.object ms).map fun v => (below, Mode.after v)) = some state) :
    ((weak.object ms).map fun v => (below, Mode.after v)) = some state := by
  obtain ⟨v, hv, rfl⟩ := Option.map_eq_some_iff.1 h
  rw [hle.object ms v hv]
  rfl

theorem step_le {state state' : List Frame × Mode} {t : Token}
    (h : step strict state t = some state') : step weak state t = some state' := by
  obtain ⟨stack, mode⟩ := state
  cases mode with
  | value => exact stepValue_le hle h
  | key => exact h
  | colon => exact h
  | element =>
    change stepElement strict stack t = some state' at h
    show stepElement weak stack t = some state'
    by_cases hend : (∃ xs below, stack = .array xs :: below) ∧ t = .rbracket
    · obtain ⟨⟨xs, below, rfl⟩, rfl⟩ := hend
      exact h
    · have hvalue : ∀ hooks, stepElement hooks stack t = stepValue hooks stack t := by
        intro hooks
        unfold stepElement
        split
        · exact absurd ⟨⟨_, _, rfl⟩, rfl⟩ hend
        · rfl
      rw [hvalue] at h ⊢
      exact stepValue_le hle h
  | keyOrEnd =>
    change stepKeyOrEnd strict stack t = some state' at h
    show stepKeyOrEnd weak stack t = some state'
    unfold stepKeyOrEnd at h ⊢
    split at h
    · exact object_le hle h
    · exact h
  | after v =>
    change stepAfter strict v stack t = some state' at h
    show stepAfter weak v stack t = some state'
    unfold stepAfter at h ⊢
    split at h
    · exact h
    · exact h
    · exact h
    · exact object_le hle h
    · cases h

theorem loads_le {s : Str} {v : Value} (h : loads strict s = some v) : loads weak s = some v := by
  have hfold : ∀ (ts : List Token) (state end_ : List Frame × Mode),
      ts.foldlM (step strict) state = some end_ → ts.foldlM (step weak) state = some end_ := by
    intro ts
    induction ts with
    | nil => exact fun state end_ h => h
    | cons t ts ih =>
      intro state end_ h
      rw [List.foldlM_cons, Option.bind_eq_bind] at h
      obtain ⟨mid, hmid, hrest⟩ := Option.bind_eq_some_iff.1 h
      rw [List.foldlM_cons, step_le hle hmid]
      exact ih mid end_ hrest
  unfold loads at h ⊢
  cases hlex : lex s with
  | none =>
    rw [hlex] at h
    cases h
  | some ts =>
    rw [hlex] at h
    dsimp only at h ⊢
    cases hm : ts.foldlM (step strict) ([], .value) with
    | none =>
      rw [hm] at h
      cases h
    | some end_ =>
      rw [hfold ts _ _ hm]
      rw [hm] at h
      exact h

end

/-! ## The ends of lines -/

section
open Encoding

/-- The first character of a text, after its line ends are made universal. -/
theorem newlines_head (c : Nat) (s : Str) :
    ∃ c' s', universalNewlines (c :: s) = c' :: s' ∧
      ((c ≠ 13 ∧ c' = c ∧ s' = universalNewlines s) ∨ (c = 13 ∧ c' = 10)) := by
  by_cases hc : c = 13
  · obtain ⟨s', hs', -⟩ := universalNewlines_return s
    subst hc
    exact ⟨10, _, hs', .inr ⟨rfl, rfl⟩⟩
  · exact ⟨c, _, universalNewlines_cons hc s, .inl ⟨hc, rfl, rfl⟩⟩

theorem newlines_spanDigits (s : Str) :
    spanDigits (universalNewlines s) = ((spanDigits s).1, universalNewlines (spanDigits s).2) := by
  induction s with
  | nil => rfl
  | cons c s ih =>
    obtain ⟨c', s', hun, ⟨hc, rfl, rfl⟩ | ⟨rfl, rfl⟩⟩ := newlines_head c s
    · rw [hun]
      simp only [spanDigits]
      split_ifs
      · rw [ih]
      · rw [hun]
    · rw [hun]
      exact Prod.ext rfl hun.symm

theorem newlines_scanFraction (s : Str) : scanFraction (universalNewlines s) =
    ((scanFraction s).1, universalNewlines (scanFraction s).2) := by
  cases s with
  | nil => rfl
  | cons c s =>
    obtain ⟨c', s', hun, ⟨hc, rfl, rfl⟩ | ⟨rfl, rfl⟩⟩ := newlines_head c s
    · rw [hun]
      simp only [scanFraction, newlines_spanDigits]
      split_ifs
      · rfl
      · rw [hun]
    · rw [hun]
      simp [scanFraction, hun]

theorem newlines_scanSign (s : Str) : scanSign (universalNewlines s) =
    ((scanSign s).1, universalNewlines (scanSign s).2) := by
  cases s with
  | nil => rfl
  | cons c s =>
    obtain ⟨c', s', hun, ⟨hc, rfl, rfl⟩ | ⟨rfl, rfl⟩⟩ := newlines_head c s
    · rw [hun]
      simp only [scanSign]
      split_ifs
      · rfl
      · rw [hun]
    · rw [hun]
      simp [scanSign, hun]

theorem newlines_scanExponent (s : Str) : scanExponent (universalNewlines s) =
    ((scanExponent s).1, universalNewlines (scanExponent s).2) := by
  cases s with
  | nil => rfl
  | cons c s =>
    obtain ⟨c', s', hun, ⟨hc, rfl, rfl⟩ | ⟨rfl, rfl⟩⟩ := newlines_head c s
    · rw [hun]
      simp only [scanExponent, newlines_scanSign, newlines_spanDigits]
      split_ifs
      · rfl
      · rw [hun]
    · rw [hun]
      simp [scanExponent, hun]

theorem newlines_scanNumber {negative : Bool} {s : Str} {r : Token × Str}
    (h : scanNumber negative s = some r) :
    scanNumber negative (universalNewlines s) = some (r.1, universalNewlines r.2) := by
  have hint : ∀ p, scanInteger s = some p →
      scanInteger (universalNewlines s) = some (p.1, universalNewlines p.2) := by
    intro p hp
    cases s with
    | nil => cases hp
    | cons c s =>
      have hc : c ≠ 13 := by
        rintro rfl
        cases hp
      rw [universalNewlines_cons hc]
      simp only [scanInteger] at hp ⊢
      split_ifs at hp ⊢
      · cases hp
        rfl
      · cases hp
        rw [newlines_spanDigits]
  unfold scanNumber at h ⊢
  cases hi : scanInteger s with
  | none =>
    rw [hi] at h
    cases h
  | some p =>
    rw [hi] at h
    rw [hint p hi]
    dsimp only at h ⊢
    rw [newlines_scanFraction]
    dsimp only
    rw [newlines_scanExponent]
    dsimp only
    split_ifs at h ⊢ <;> cases h <;> rfl

theorem hexValue_ne_return {c n : Nat} (h : hexValue c = some n) : c ≠ 13 := by
  rintro rfl
  cases h

/-- Four hexadecimal digits are no line end. -/
theorem hex4_ne_return {a b c d n : Nat} (h : hex4 a b c d = some n) : 13 ∉ [a, b, c, d] := by
  unfold hex4 at h
  simp only [Option.bind_eq_bind, Option.bind_eq_some_iff] at h
  obtain ⟨_, ha, _, hb, _, hc, _, hd, -⟩ := h
  simp only [List.mem_cons, List.not_mem_nil, or_false, not_or]
  exact ⟨(hexValue_ne_return ha).symm, (hexValue_ne_return hb).symm, (hexValue_ne_return hc).symm,
    (hexValue_ne_return hd).symm⟩

theorem simpleEscape_ne_return {e n : Nat} (h : simpleEscape e = some n) : e ≠ 13 := by
  rintro rfl
  cases h

/-- A string that is read holds no line end. -/
theorem newlines_scanPieces (s : Str) : ∀ r, scanPieces s = some r →
    scanPieces (universalNewlines s) = some (r.1, universalNewlines r.2) := by
  fun_induction scanPieces s with
  | case1 =>
    intro r h
    cases h
  | case2 s =>
    intro r h
    cases h
    rw [universalNewlines_cons (by decide)]
    rfl
  | case3 =>
    intro r h
    cases h
  | case4 a b c d s n hn ih =>
    intro r h
    obtain ⟨p, hp, rfl⟩ := Option.map_eq_some_iff.1 h
    have hdigits : universalNewlines ([a, b, c, d] ++ s) = [a, b, c, d] ++ universalNewlines s :=
      universalNewlines_append (hex4_ne_return hn) s
    simp only [List.cons_append, List.nil_append] at hdigits
    rw [universalNewlines_cons (by decide), universalNewlines_cons (by decide), hdigits, scanPieces,
      hn]
    dsimp only
    rw [ih p hp]
    rfl
  | case5 =>
    intro r h
    cases h
  | case6 e s hu n hn ih =>
    intro r h
    obtain ⟨p, hp, rfl⟩ := Option.map_eq_some_iff.1 h
    have hne : e ≠ 117 := by
      rintro rfl
      cases hn
    rw [universalNewlines_cons (by decide), universalNewlines_cons (simpleEscape_ne_return hn),
      scanPieces, hn]
    · dsimp only
      rw [ih p hp]
      rfl
    · intro a b c d t he
      exact absurd he hne
  | case7 =>
    intro r h
    cases h
  | case8 =>
    intro r h
    cases h
  | case9 c s hquote _ _ hspace hback ih =>
    intro r h
    obtain ⟨p, hp, rfl⟩ := Option.map_eq_some_iff.1 h
    rw [universalNewlines_cons (by omega), scanPieces_plain (by omega) (fun h => hquote h) hback,
      ih p hp]
    rfl

theorem newlines_scanToken {c : Nat} {s : Str} {r : Token × Str} (h : scanToken c s = some r) :
    scanToken c (universalNewlines s) = some (r.1, universalNewlines r.2) := by
  have hdrop : ∀ {w rest : Str}, 13 ∉ w → dropWord w s = some rest →
      dropWord w (universalNewlines s) = some (universalNewlines rest) := by
    intro w rest hw hd
    unfold dropWord at hd ⊢
    split_ifs at hd with hprefix
    obtain ⟨t, rfl⟩ := List.isPrefixOf_iff_prefix.1 hprefix
    rw [List.drop_left] at hd
    cases hd
    rw [universalNewlines_append hw, if_pos (List.isPrefixOf_iff_prefix.2 (List.prefix_append w _)),
      List.drop_left]
  unfold scanToken at h ⊢
  cases hp : punctuation c with
  | some t =>
    rw [hp] at h
    cases h
    rfl
  | none =>
    rw [hp] at h
    cases hw : wordOf c with
    | some p =>
      rw [hw] at h
      obtain ⟨rest, hrest, rfl⟩ := Option.map_eq_some_iff.1 h
      have hno : 13 ∉ p.1 := by
        unfold wordOf at hw
        split_ifs at hw
        all_goals
          cases hw
          decide
      dsimp only
      rw [hdrop hno hrest]
      rfl
    | none =>
      rw [hw] at h
      dsimp only at h ⊢
      by_cases hquote : c = 34
      · rw [if_pos hquote] at h ⊢
        obtain ⟨p, hpieces, rfl⟩ := Option.map_eq_some_iff.1 h
        rw [newlines_scanPieces s p hpieces]
        rfl
      · rw [if_neg hquote] at h ⊢
        by_cases hminus : c = 45
        · rw [if_pos hminus] at h ⊢
          cases hd : dropWord (text "Infinity") s with
          | some rest =>
            rw [hd] at h
            cases h
            rw [hdrop (by decide) hd]
          | none =>
            rw [hd] at h
            have hnone : dropWord (text "Infinity") (universalNewlines s) = none := by
              cases s with
              | nil => cases h
              | cons d s =>
                have hdigit : d ≠ 73 ∧ d ≠ 13 := by
                  refine ⟨?_, ?_⟩
                  all_goals
                    rintro rfl
                    cases h
                have hI : text "Infinity" = 73 :: text "nfinity" := by decide
                unfold dropWord
                rw [universalNewlines_cons hdigit.2, hI, List.isPrefixOf,
                  beq_eq_false_iff_ne.2 (Ne.symm hdigit.1), Bool.false_and,
                  if_neg Bool.false_ne_true]
            rw [hnone]
            exact newlines_scanNumber h
        · rw [if_neg hminus] at h ⊢
          have hc : c ≠ 13 := by
            rintro rfl
            cases h
          rw [← universalNewlines_cons hc]
          exact newlines_scanNumber h

/-- The tokens of a text do not depend on how its lines end. -/
theorem newlines_lex {s : Str} {ts : List Token} (h : lex s = some ts) :
    lex (universalNewlines s) = some ts := by
  induction hn : s.length using Nat.strong_induction_on generalizing s ts with
  | _ n ih =>
    cases s with
    | nil => exact h
    | cons c s =>
      subst hn
      by_cases hc : c = 13
      · subst hc
        rw [lex_space (by decide)] at h
        obtain ⟨s', hs', rfl | rfl⟩ := universalNewlines_return s
        · rw [hs', lex_space (by decide)]
          exact ih s'.length (Nat.lt_succ_self _) h rfl
        · rw [lex_space (by decide)] at h
          rw [hs', lex_space (by decide)]
          exact ih s'.length (by simp) h rfl
      · rw [universalNewlines_cons hc]
        cases hspace : isSpace c with
        | true =>
          rw [lex_space hspace] at h ⊢
          exact ih s.length (Nat.lt_succ_self _) h rfl
        | false =>
          rw [lex_cons hspace] at h ⊢
          obtain ⟨r, hr, hrest⟩ := Option.bind_eq_some_iff.1 h
          obtain ⟨us, hus, rfl⟩ := Option.map_eq_some_iff.1 hrest
          have hlen : r.2.length < (c :: s).length := Nat.lt_succ_of_le (scanToken_length hr)
          rw [newlines_scanToken hr, Option.bind_some, ih r.2.length hlen hus rfl]
          rfl

theorem newlines_loads {hooks : Hooks} {s : Str} {v : Value} (h : loads hooks s = some v) :
    loads hooks (universalNewlines s) = some v := by
  unfold loads at h ⊢
  cases hlex : lex s with
  | none =>
    rw [hlex] at h
    cases h
  | some ts =>
    rw [hlex] at h
    rw [newlines_lex hlex]
    exact h

end

end MpcHunt.Json
