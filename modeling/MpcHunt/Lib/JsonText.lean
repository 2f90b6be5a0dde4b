/-
Reading JSON text: the lexer needs no more fuel than its text is long, it
reads back what `dumps` writes token by token, and it does not see how lines
end.
-/
import MpcHunt.Lib.Json

namespace MpcHunt.Json

open Digits

/-! ## What a token leaves -/

theorem spanDigits_length (s : Str) : (spanDigits s).2.length ≤ s.length := by
  induction s with
  | nil => exact Nat.le_refl _
  | cons c s ih =>
    unfold spanDigits
    by_cases hc : isDigit c = true
    · rw [if_pos hc]
      exact Nat.le_succ_of_le ih
    · rw [if_neg hc]

theorem scanFraction_length (s : Str) : (scanFraction s).2.length ≤ s.length := by
  cases s with
  | nil => exact Nat.le_refl _
  | cons c s =>
    have hspan := spanDigits_length s
    simp only [scanFraction]
    split_ifs
    · exact Nat.le_succ_of_le hspan
    · exact Nat.le_refl _

theorem scanSign_length (s : Str) : (scanSign s).2.length ≤ s.length := by
  cases s with
  | nil => exact Nat.le_refl _
  | cons c s =>
    simp only [scanSign]
    split_ifs
    · exact Nat.le_succ _
    · exact Nat.le_refl _

theorem scanExponent_length (s : Str) : (scanExponent s).2.length ≤ s.length := by
  cases s with
  | nil => exact Nat.le_refl _
  | cons c s =>
    have hsign := scanSign_length s
    have hspan := spanDigits_length (scanSign s).2
    simp only [scanExponent]
    split_ifs
    · exact Nat.le_succ_of_le (Nat.le_trans hspan hsign)
    · exact Nat.le_refl _

theorem scanInteger_length {s : Str} {r : Str × Str} (h : scanInteger s = some r) :
    r.2.length < s.length := by
  cases s with
  | nil => cases h
  | cons c s =>
    have hspan := spanDigits_length s
    simp only [scanInteger] at h
    split_ifs at h
    · cases h
      simp
    · cases h
      simp only [List.length_cons]
      omega

theorem scanNumber_length {negative : Bool} {s : Str} {r : Token × Str}
    (h : scanNumber negative s = some r) : r.2.length < s.length := by
  unfold scanNumber at h
  cases hi : scanInteger s with
  | none =>
    rw [hi] at h
    cases h
  | some p =>
    obtain ⟨ds, rest⟩ := p
    rw [hi] at h
    have hint := scanInteger_length hi
    have hfrac := scanFraction_length rest
    have hexp := scanExponent_length (scanFraction rest).2
    have hrest : r.2 = (scanExponent (scanFraction rest).2).2 := by
      dsimp only at h
      split_ifs at h <;> cases h <;> rfl
    dsimp only at hint
    rw [hrest]
    omega

theorem scanPieces_length (s : Str) : ∀ r, scanPieces s = some r → r.2.length < s.length := by
  fun_induction scanPieces s with
  | case1 =>
    intro r h
    cases h
  | case2 s =>
    intro r h
    cases h
    simp
  | case3 =>
    intro r h
    cases h
  | case4 a b c d s n hn ih =>
    intro r h
    obtain ⟨p, hp, rfl⟩ := Option.map_eq_some_iff.1 h
    have := ih p hp
    simp only [List.length_cons]
    omega
  | case5 =>
    intro r h
    cases h
  | case6 e s _ n hn ih =>
    intro r h
    obtain ⟨p, hp, rfl⟩ := Option.map_eq_some_iff.1 h
    have := ih p hp
    simp only [List.length_cons]
    omega
  | case7 =>
    intro r h
    cases h
  | case8 =>
    intro r h
    cases h
  | case9 c s _ _ _ h1 h2 ih =>
    intro r h
    obtain ⟨p, hp, rfl⟩ := Option.map_eq_some_iff.1 h
    have := ih p hp
    simp only [List.length_cons]
    omega

theorem dropWord_length {word s rest : Str} (h : dropWord word s = some rest) :
    rest.length ≤ s.length := by
  unfold dropWord at h
  split_ifs at h
  cases h
  rw [List.length_drop]
  exact Nat.sub_le _ _

/-- A token leaves no more than came after its first character. -/
theorem scanToken_length {c : Nat} {s : Str} {r : Token × Str} (h : scanToken c s = some r) :
    r.2.length ≤ s.length := by
  unfold scanToken at h
  cases hp : punctuation c with
  | some t =>
    rw [hp] at h
    cases h
    exact Nat.le_refl _
  | none =>
    cases hw : wordOf c with
    | some w =>
      rw [hp, hw] at h
      obtain ⟨x, hx, rfl⟩ := Option.map_eq_some_iff.1 h
      exact dropWord_length hx
    | none =>
      rw [hp, hw] at h
      dsimp only at h
      split_ifs at h
      · obtain ⟨p, hp, rfl⟩ := Option.map_eq_some_iff.1 h
        exact Nat.le_of_lt (scanPieces_length s p hp)
      · cases hd : dropWord (text "Infinity") s with
        | some x =>
          rw [hd] at h
          cases h
          exact dropWord_length hd
        | none =>
          rw [hd] at h
          exact Nat.le_of_lt (scanNumber_length h)
      · exact Nat.le_of_lt_succ (scanNumber_length h)

/-! ## The lexer, without its fuel -/

theorem lexFuel_eq {n : Nat} {s : Str} (h : s.length ≤ n) : lexFuel n s = lex s := by
  unfold lex
  induction n using Nat.strong_induction_on generalizing s with
  | _ n ih =>
    cases s with
    | nil => cases n <;> rfl
    | cons c s =>
      cases n with
      | zero => cases h
      | succ n =>
        have hs : s.length ≤ n := Nat.le_of_succ_le_succ h
        show lexFuel (n + 1) (c :: s) = lexFuel (s.length + 1) (c :: s)
        unfold lexFuel
        by_cases hc : isSpace c = true
        · rw [if_pos hc, if_pos hc]
          exact ih n (Nat.lt_succ_self n) hs
        · rw [if_neg hc, if_neg hc]
          cases ht : scanToken c s with
          | none => rfl
          | some r =>
            obtain ⟨t, rest⟩ := r
            have hrest : rest.length ≤ s.length := scanToken_length ht
            dsimp only
            rw [ih n (Nat.lt_succ_self n) (Nat.le_trans hrest hs)]
            rcases Nat.lt_or_ge s.length (n + 1) with hlt | hge
            · rw [ih s.length hlt hrest]
            · omega

@[simp] theorem lex_nil : lex [] = some [] := rfl

theorem lex_space {c : Nat} {s : Str} (h : isSpace c = true) : lex (c :: s) = lex s := by
  show lexFuel (s.length + 1) (c :: s) = lex s
  unfold lexFuel
  rw [if_pos h, lexFuel_eq (Nat.le_refl _)]

theorem lex_cons {c : Nat} {s : Str} (h : isSpace c = false) :
    lex (c :: s) = (scanToken c s).bind fun r => (lex r.2).map (r.1 :: ·) := by
  show lexFuel (s.length + 1) (c :: s) = _
  unfold lexFuel
  rw [if_neg (by rw [h]; exact Bool.false_ne_true)]
  cases ht : scanToken c s with
  | none => rfl
  | some r =>
    dsimp only
    rw [lexFuel_eq (scanToken_length ht)]
    rfl

theorem lex_token {c : Nat} {s rest : Str} {t : Token} (h : isSpace c = false)
    (ht : scanToken c s = some (t, rest)) : lex (c :: s) = (lex rest).map (t :: ·) := by
  rw [lex_cons h, ht]
  rfl

/-! ## What is written is read back -/

/-- A Unicode scalar value. -/
def isScalar (c : Nat) : Bool := c < 0xD800 || (0xDFFF < c && c < 0x110000)

/-- The pieces of a character as it is written. -/
def piecesOf (c : Nat) : List Piece :=
  if c = 34 ∨ c = 92 ∨ c = 10 ∨ c = 13 ∨ c = 9 ∨ c = 12 ∨ c = 8 ∨ (32 ≤ c ∧ c ≤ 126) then [(false, c)]
  else if c < 0x10000 then [(true, c)]
  else [(true, 0xD800 + (c - 0x10000) / 0x400 % 0x400), (true, 0xDC00 + (c - 0x10000) % 0x400)]

theorem hexValue_hexDigit {n : Nat} (h : n < 16) : hexValue (hexDigit n) = some n := by
  unfold hexValue hexDigit
  split_ifs
  all_goals first
    | omega
    | (congr 1; omega)

/-- A code written in four digits is read as it was. -/
theorem scanPieces_code {n : Nat} (h : n < 0x10000) (s : Str) :
    scanPieces (escapeCode n ++ s) = (scanPieces s).map fun r => ((true, n) :: r.1, r.2) := by
  have hhex : hex4 (hexDigit (n / 4096 % 16)) (hexDigit (n / 256 % 16)) (hexDigit (n / 16 % 16))
      (hexDigit (n % 16)) = some n := by
    unfold hex4
    rw [hexValue_hexDigit (by omega), hexValue_hexDigit (by omega), hexValue_hexDigit (by omega),
      hexValue_hexDigit (by omega)]
    show some _ = some n
    congr 1
    omega
  simp only [escapeCode, List.cons_append, List.nil_append]
  rw [scanPieces, hhex]

theorem scanPieces_plain {c : Nat} (h : 32 ≤ c) (hquote : c ≠ 34) (hback : c ≠ 92) (s : Str) :
    scanPieces (c :: s) = (scanPieces s).map fun r => ((false, c) :: r.1, r.2) := by
  rw [scanPieces.eq_def]
  split
  · rename_i heq
    cases heq
  · rename_i heq
    exact absurd (List.cons.inj heq).1 hquote
  · rename_i heq
    exact absurd (List.cons.inj heq).1 hback
  · rename_i heq
    exact absurd (List.cons.inj heq).1 hback
  · rename_i heq
    obtain ⟨rfl, rfl⟩ := List.cons.inj heq
    rw [if_neg (by omega), if_neg hback]

theorem scanPieces_escape {c : Nat} (hc : c < 0x110000) (s : Str) :
    scanPieces (escape c ++ s) = (scanPieces s).map fun r => (piecesOf c ++ r.1, r.2) := by
  unfold escape
  split_ifs
  iterate 7
    · subst_vars
      rfl
  · have hpieces : piecesOf c = [(false, c)] := by
      unfold piecesOf
      rw [if_pos (by omega)]
    rw [hpieces]
    exact scanPieces_plain (by omega) (by omega) (by omega) s
  · have hpieces : piecesOf c = [(true, c)] := by
      unfold piecesOf
      rw [if_neg (by omega), if_pos (by omega)]
    rw [hpieces]
    exact scanPieces_code (by omega) s
  · have hpieces : piecesOf c = [(true, 0xD800 + (c - 0x10000) / 0x400 % 0x400),
        (true, 0xDC00 + (c - 0x10000) % 0x400)] := by
      unfold piecesOf
      rw [if_neg (by omega), if_neg (by omega)]
    rw [hpieces]
    dsimp only
    rw [List.append_assoc, scanPieces_code (by omega), scanPieces_code (by omega), Option.map_map]
    rfl

/-- A character comes back from its pieces, whatever follows. -/
theorem joinPieces_piecesOf {c : Nat} (hc : isScalar c = true) (ps : List Piece) :
    joinPieces (piecesOf c ++ ps) = c :: joinPieces ps := by
  unfold isScalar at hc
  simp only [Bool.or_eq_true, Bool.and_eq_true, decide_eq_true_eq] at hc
  unfold piecesOf
  split_ifs with hplain hbmp
  · rw [List.singleton_append, joinPieces]
    simp
  · have hhigh : isHigh c = false := by
      unfold isHigh
      simp only [Bool.and_eq_false_iff, decide_eq_false_iff_not]
      omega
    cases ps with
    | nil => rfl
    | cons p ps =>
      obtain ⟨escaped, lo⟩ := p
      cases escaped with
      | false => rfl
      | true =>
        show (if isHigh c && isLow lo then _ else _) = _
        rw [hhigh]
        rfl
  · have hhigh : isHigh (0xD800 + (c - 0x10000) / 0x400 % 0x400) = true := by
      unfold isHigh
      simp only [Bool.and_eq_true, decide_eq_true_eq]
      omega
    have hlow : isLow (0xDC00 + (c - 0x10000) % 0x400) = true := by
      unfold isLow
      simp only [Bool.and_eq_true, decide_eq_true_eq]
      omega
    simp only [List.cons_append, List.nil_append]
    rw [joinPieces, hhigh, hlow, Bool.and_self, if_pos rfl]
    exact congrArg (· :: joinPieces ps) (by omega)

theorem scanPieces_quote {s : Str} (hs : ∀ c ∈ s, isScalar c = true) (rest : Str) :
    ∃ ps, scanPieces (s.flatMap escape ++ 34 :: rest) = some (ps, rest) ∧ joinPieces ps = s := by
  induction s with
  | nil => exact ⟨[], rfl, rfl⟩
  | cons c s ih =>
    obtain ⟨ps, hps, hjoin⟩ := ih fun d hd => hs d (List.mem_cons_of_mem c hd)
    have hc := hs c List.mem_cons_self
    have hlt : c < 0x110000 := by
      unfold isScalar at hc
      simp only [Bool.or_eq_true, Bool.and_eq_true, decide_eq_true_eq] at hc
      omega
    refine ⟨piecesOf c ++ ps, ?_, ?_⟩
    · rw [List.flatMap_cons, List.append_assoc, scanPieces_escape hlt, hps]
      rfl
    · rw [joinPieces_piecesOf hc, hjoin]

/-- A quoted string is one token. -/
theorem lex_quote {s : Str} (hs : ∀ c ∈ s, isScalar c = true) (rest : Str) :
    lex (quote s ++ rest) = (lex rest).map (.string s :: ·) := by
  obtain ⟨ps, hps, hjoin⟩ := scanPieces_quote hs rest
  have hassoc : quote s ++ rest = 34 :: (s.flatMap escape ++ 34 :: rest) := by
    simp [quote, List.append_assoc]
  rw [hassoc]
  refine lex_token (by decide) ?_
  show (scanPieces _).map _ = _
  rw [hps]
  simp only [Option.map_some, hjoin]

/-- What may follow a number: nothing that would go on with it. -/
def Ends (rest : Str) : Prop :=
  ∀ c, rest.head? = some c → isDigit c = false ∧ c ≠ 46 ∧ c ≠ 101 ∧ c ≠ 69

theorem ends_cons {c : Nat} (hd : isDigit c = false) (h1 : c ≠ 46) (h2 : c ≠ 101) (h3 : c ≠ 69)
    (s : Str) : Ends (c :: s) := by
  intro d hd'
  rw [List.head?_cons, Option.some.injEq] at hd'
  subst hd'
  exact ⟨hd, h1, h2, h3⟩

theorem spanDigits_append {ds rest : Str} (hds : ∀ d ∈ ds, isDigit d = true) (hr : Ends rest) :
    spanDigits (ds ++ rest) = (ds, rest) := by
  induction ds with
  | nil =>
    cases rest with
    | nil => rfl
    | cons c rest =>
      have hc := (hr c rfl).1
      simp only [List.nil_append, spanDigits, hc, Bool.false_eq_true, if_false]
  | cons d ds ih =>
    have hd := hds d List.mem_cons_self
    simp only [List.cons_append, spanDigits, hd, if_true,
      ih fun x hx => hds x (List.mem_cons_of_mem d hx)]

theorem scanInteger_canonical {ds rest : Str} (h : Canonical ds) (hr : Ends rest) :
    scanInteger (ds ++ rest) = some (ds, rest) := by
  obtain ⟨hdigits, hne, hzero⟩ := h
  cases ds with
  | nil => exact absurd rfl hne
  | cons d ds =>
    simp only [List.cons_append, scanInteger]
    by_cases hd : d = 48
    · subst hd
      have hds : ds = [] := (List.cons.inj (hzero rfl)).2
      rw [if_pos rfl, hds]
      rfl
    · rw [if_neg hd, if_pos (hdigits d List.mem_cons_self),
        spanDigits_append (fun x hx => hdigits x (List.mem_cons_of_mem d hx)) hr]

theorem scanFraction_ends {rest : Str} (hr : Ends rest) : scanFraction rest = ([], rest) := by
  cases rest with
  | nil => rfl
  | cons c rest =>
    simp only [scanFraction]
    exact if_neg fun h => (hr c rfl).2.1 h.1

theorem scanExponent_ends {rest : Str} (hr : Ends rest) : scanExponent rest = ([], rest) := by
  cases rest with
  | nil => rfl
  | cons c rest =>
    simp only [scanExponent]
    exact if_neg fun h => h.1.elim (hr c rfl).2.2.1 (hr c rfl).2.2.2

theorem scanNumber_decimal (negative : Bool) (n : Nat) {rest : Str} (hr : Ends rest) :
    scanNumber negative (decimal n ++ rest) =
      some (.int (if negative then -(n : Int) else n), rest) := by
  unfold scanNumber
  rw [scanInteger_canonical (decimal_canonical n) hr]
  dsimp only
  rw [scanFraction_ends hr, scanExponent_ends hr, value_decimal]
  rfl

/-- A digit starts a number. -/
theorem scanToken_digit {d : Nat} (hd : isDigit d = true) (s : Str) :
    scanToken d s = scanNumber false (d :: s) := by
  unfold isDigit at hd
  simp only [Bool.and_eq_true, decide_eq_true_eq] at hd
  have hp : punctuation d = none := by
    unfold punctuation
    split_ifs
    all_goals first
      | omega
      | rfl
  have hw : wordOf d = none := by
    unfold wordOf
    split_ifs
    all_goals first
      | omega
      | rfl
  unfold scanToken
  rw [hp, hw]
  dsimp only
  rw [if_neg (by omega), if_neg (by omega)]

theorem isSpace_digit {d : Nat} (hd : isDigit d = true) : isSpace d = false := by
  unfold isDigit at hd
  simp only [Bool.and_eq_true, decide_eq_true_eq] at hd
  unfold isSpace
  simp only [Bool.or_eq_false_iff, beq_eq_false_iff_ne]
  omega

/-- A written integer is one token. -/
theorem lex_showInt (n : Int) {rest : Str} (hr : Ends rest) :
    lex (showInt n ++ rest) = (lex rest).map (.int n :: ·) := by
  have hnumber := fun negative => scanNumber_decimal negative n.natAbs hr
  have hcanonical := decimal_canonical n.natAbs
  cases hdec : decimal n.natAbs with
  | nil => exact absurd hdec hcanonical.2.1
  | cons d ds =>
    have hd : isDigit d = true := hcanonical.1 d (hdec ▸ List.mem_cons_self)
    rw [hdec, List.cons_append] at hnumber
    unfold showInt
    rw [hdec]
    by_cases hn : n < 0
    · have hword : dropWord (text "Infinity") (d :: (ds ++ rest)) = none := by
        unfold isDigit at hd
        simp only [Bool.and_eq_true, decide_eq_true_eq] at hd
        have hI : text "Infinity" = 73 :: text "nfinity" := by decide
        unfold dropWord
        rw [hI, List.isPrefixOf, beq_eq_false_iff_ne.2 (by omega), Bool.false_and,
          if_neg Bool.false_ne_true]
      have hneg : -(n.natAbs : Int) = n := by omega
      have hminus : scanToken 45 (d :: (ds ++ rest)) = some (.int n, rest) := by
        have hp : punctuation 45 = none := rfl
        have hw : wordOf 45 = none := rfl
        unfold scanToken
        rw [hp, hw]
        dsimp only
        rw [if_neg (by decide), if_pos rfl, hword]
        dsimp only
        rw [hnumber true, if_pos rfl, hneg]
      rw [if_pos hn, List.cons_append, List.cons_append]
      exact lex_token (by decide) hminus
    · have hpos : (n.natAbs : Int) = n := by omega
      rw [if_neg hn, List.cons_append]
      refine lex_token (isSpace_digit hd) ?_
      rw [scanToken_digit hd, hnumber false, if_neg Bool.false_ne_true, hpos]

/-! ## Values -/

mutual

/-- The tokens of a value. -/
def tokens : Value → List Token
  | .null => [.null]
  | .bool b => [.bool b]
  | .int n => [.int n]
  | .float l => [.float l]
  | .string s => [.string s]
  | .array xs => .lbracket :: (tokensElements xs ++ [.rbracket])
  | .object ms => .lbrace :: (tokensMembers ms ++ [.rbrace])

def tokensElements : List Value → List Token
  | [] => []
  | [x] => tokens x
  | x :: y :: xs => tokens x ++ .comma :: tokensElements (y :: xs)

def tokensMembers : List (Str × Value) → List Token
  | [] => []
  | [(k, v)] => .string k :: .colon :: tokens v
  | (k, v) :: m :: ms => .string k :: .colon :: tokens v ++ .comma :: tokensMembers (m :: ms)

end

mutual

/-- A value that JSON text can hold as it is: no floats, strings of scalar values, no
member name twice. -/
def Plain : Value → Prop
  | .float _ => False
  | .string s => ∀ c ∈ s, isScalar c = true
  | .array xs => PlainElements xs
  | .object ms => PlainMembers ms ∧ (ms.map Prod.fst).Nodup
  | _ => True

def PlainElements : List Value → Prop
  | [] => True
  | x :: xs => Plain x ∧ PlainElements xs

def PlainMembers : List (Str × Value) → Prop
  | [] => True
  | (k, v) :: ms => (∀ c ∈ k, isScalar c = true) ∧ Plain v ∧ PlainMembers ms

end

theorem lex_spaces {sp : Str} (hsp : ∀ c ∈ sp, isSpace c = true) (s : Str) :
    lex (sp ++ s) = lex s := by
  induction sp with
  | nil => rfl
  | cons c sp ih =>
    rw [List.cons_append, lex_space (hsp c List.mem_cons_self)]
    exact ih fun d hd => hsp d (List.mem_cons_of_mem c hd)

theorem lex_punctuation {c : Nat} {t : Token} (hs : isSpace c = false) (hp : punctuation c = some t)
    (s : Str) : lex (c :: s) = (lex s).map (t :: ·) := by
  refine lex_token hs ?_
  unfold scanToken
  rw [hp]

theorem lex_word {c : Nat} {w : Str} {t : Token} (hs : isSpace c = false)
    (hp : punctuation c = none) (hw : wordOf c = some (w, t)) (s : Str) :
    lex (c :: w ++ s) = (lex s).map (t :: ·) := by
  have hdrop : dropWord w (w ++ s) = some s := by
    unfold dropWord
    rw [if_pos (List.isPrefixOf_iff_prefix.2 (List.prefix_append w s)), List.drop_left]
  rw [List.cons_append]
  refine lex_token hs ?_
  unfold scanToken
  rw [hp, hw]
  dsimp only
  rw [hdrop]
  rfl

section
variable {sep : Separators}

mutual

/-- What is written of a value is its tokens. -/
theorem lex_dumps (hsep : ∀ c ∈ sep.space, isSpace c = true) :
    (v : Value) → Plain v → (rest : Str) → Ends rest →
    lex (dumps sep v ++ rest) = (lex rest).map (tokens v ++ ·)
  | .null, _, rest, _ => by
    rw [dumps, tokens]
    exact lex_word (by decide) rfl rfl rest
  | .bool true, _, rest, _ => by
    rw [dumps, tokens]
    exact lex_word (by decide) rfl rfl rest
  | .bool false, _, rest, _ => by
    rw [dumps, tokens]
    exact lex_word (by decide) rfl rfl rest
  | .int n, _, rest, hr => by
    rw [dumps, tokens]
    exact lex_showInt n hr
  | .float _, h, _, _ => by
    rw [Plain] at h
    exact h.elim
  | .string s, h, rest, _ => by
    rw [Plain] at h
    rw [dumps, tokens]
    exact lex_quote h rest
  | .array xs, h, rest, _ => by
    rw [Plain] at h
    have hends : Ends (93 :: rest) := ends_cons (by decide) (by decide) (by decide) (by decide) rest
    rw [dumps, tokens, List.cons_append, lex_punctuation (by decide) rfl, List.append_assoc,
      List.singleton_append, lex_dumpsElements hsep xs h _ hends, lex_punctuation (by decide) rfl]
    simp [Option.map_map, Function.comp_def]
  | .object ms, h, rest, _ => by
    rw [Plain] at h
    have hends : Ends (125 :: rest) := ends_cons (by decide) (by decide) (by decide) (by decide) rest
    rw [dumps, tokens, List.cons_append, lex_punctuation (by decide) rfl, List.append_assoc,
      List.singleton_append, lex_dumpsMembers hsep ms h.1 _ hends, lex_punctuation (by decide) rfl]
    simp [Option.map_map, Function.comp_def]

theorem lex_dumpsElements (hsep : ∀ c ∈ sep.space, isSpace c = true) :
    (xs : List Value) → PlainElements xs → (rest : Str) → Ends rest →
    lex (dumpsElements sep xs ++ rest) = (lex rest).map (tokensElements xs ++ ·)
  | [], _, rest, _ => by
    rw [dumpsElements, tokensElements]
    simp
  | [x], h, rest, hr => by
    rw [PlainElements] at h
    rw [dumpsElements, tokensElements]
    exact lex_dumps hsep x h.1 rest hr
  | x :: y :: xs, h, rest, hr => by
    rw [PlainElements] at h
    have hends : ∀ s, Ends (44 :: s) :=
      ends_cons (by decide) (by decide) (by decide) (by decide)
    rw [dumpsElements, tokensElements, List.append_assoc, List.cons_append, List.append_assoc,
      lex_dumps hsep x h.1 _ (hends _), lex_punctuation (by decide) rfl, lex_spaces hsep,
      lex_dumpsElements hsep (y :: xs) h.2 rest hr]
    simp [Option.map_map, Function.comp_def]

theorem lex_dumpsMembers (hsep : ∀ c ∈ sep.space, isSpace c = true) :
    (ms : List (Str × Value)) → PlainMembers ms → (rest : Str) →
    Ends rest → lex (dumpsMembers sep ms ++ rest) = (lex rest).map (tokensMembers ms ++ ·)
  | [], _, rest, _ => by
    rw [dumpsMembers, tokensMembers]
    simp
  | [(k, v)], h, rest, hr => by
    rw [PlainMembers] at h
    rw [dumpsMembers, tokensMembers, List.append_assoc, lex_quote h.1, List.cons_append,
      lex_punctuation (by decide) rfl, List.append_assoc, lex_spaces hsep,
      lex_dumps hsep v h.2.1 rest hr]
    simp [Option.map_map, Function.comp_def]
  | (k, v) :: m :: ms, h, rest, hr => by
    rw [PlainMembers] at h
    have hends : ∀ s, Ends (44 :: s) :=
      ends_cons (by decide) (by decide) (by decide) (by decide)
    rw [dumpsMembers, tokensMembers, List.append_assoc, List.append_assoc, lex_quote h.1,
      List.cons_append, lex_punctuation (by decide) rfl, List.append_assoc, lex_spaces hsep,
      List.cons_append, List.append_assoc, lex_dumps hsep v h.2.1 _ (hends _),
      lex_punctuation (by decide) rfl, lex_spaces hsep, lex_dumpsMembers hsep (m :: ms) h.2.2 rest hr]
    simp [Option.map_map, Function.comp_def]

end

end

end MpcHunt.Json
