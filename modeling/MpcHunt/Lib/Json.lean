/-
JSON as Python reads and writes it: `json.loads` as a lexer and a machine
over the tokens, `json.dumps` with ASCII output. The machine takes a hook for
what an object's members make, as `object_pairs_hook` is one.

`JSONDecoder` accepts what RFC 8259 does, and the constants `NaN`, `Infinity`
and `-Infinity`.
-/
import MpcHunt.Lib.Digits
import MpcHunt.Lib.Dict

namespace MpcHunt.Json

open Digits

/-! ## Values -/

/-- A value. A `float` keeps its literal; an object its members in order, as a Python
`dict` has them. -/
inductive Value where
  | null
  | bool (b : Bool)
  | int (n : Int)
  | float (literal : Str)
  | string (s : Str)
  | array (xs : List Value)
  | object (members : List (Str × Value))

/-! ## Tokens -/

inductive Token where
  | lbrace | rbrace | lbracket | rbracket | colon | comma
  | null
  | bool (b : Bool)
  | int (n : Int)
  | float (literal : Str)
  | constant (name : Str)
  | string (s : Str)
deriving DecidableEq

/-- The space, the tabulator, the line feed and the carriage return. -/
def isSpace (c : Nat) : Bool := c == 32 || c == 9 || c == 10 || c == 13

/-- The value of a hexadecimal digit. -/
def hexValue (c : Nat) : Option Nat :=
  if 48 ≤ c ∧ c ≤ 57 then some (c - 48)
  else if 97 ≤ c ∧ c ≤ 102 then some (c - 87)
  else if 65 ≤ c ∧ c ≤ 70 then some (c - 55)
  else none

/-- Four hexadecimal digits. -/
def hex4 (a b c d : Nat) : Option Nat := do
  let a ← hexValue a
  let b ← hexValue b
  let c ← hexValue c
  let d ← hexValue d
  pure (((a * 16 + b) * 16 + c) * 16 + d)

/-- What a two-character escape stands for. -/
def simpleEscape (c : Nat) : Option Nat :=
  if c = 34 ∨ c = 92 ∨ c = 47 then some c
  else if c = 98 then some 8
  else if c = 102 then some 12
  else if c = 110 then some 10
  else if c = 114 then some 13
  else if c = 116 then some 9
  else none

/-- A character of a string: whether it is written `\uXXXX`, and its code. -/
abbrev Piece := Bool × Nat

/-- A string after its opening quote: its pieces, and what follows the closing quote. -/
def scanPieces : Str → Option (List Piece × Str)
  | [] => none
  | 34 :: s => some ([], s)
  | 92 :: 117 :: a :: b :: c :: d :: s =>
    match hex4 a b c d with
    | none => none
    | some n => (scanPieces s).map fun r => ((true, n) :: r.1, r.2)
  | 92 :: e :: s =>
    match simpleEscape e with
    | none => none
    | some n => (scanPieces s).map fun r => ((false, n) :: r.1, r.2)
  | c :: s =>
    if c < 32 then none
    else if c = 92 then none
    else (scanPieces s).map fun r => ((false, c) :: r.1, r.2)

def isHigh (n : Nat) : Bool := 0xD800 ≤ n && n ≤ 0xDBFF

def isLow (n : Nat) : Bool := 0xDC00 ≤ n && n ≤ 0xDFFF

/-- Two halves of a character written one after the other make it. -/
def joinPieces : List Piece → Str
  | (true, hi) :: (true, lo) :: ps =>
    if isHigh hi && isLow lo then
      (0x10000 + (hi - 0xD800) * 0x400 + (lo - 0xDC00)) :: joinPieces ps
    else hi :: joinPieces ((true, lo) :: ps)
  | p :: ps => p.2 :: joinPieces ps
  | [] => []

/-- The digits at the front, and the rest. -/
def spanDigits : Str → Str × Str
  | [] => ([], [])
  | c :: s => if isDigit c then let r := spanDigits s; (c :: r.1, r.2) else ([], c :: s)

/-- The fraction of a number, when there is one. -/
def scanFraction : Str → Str × Str
  | [] => ([], [])
  | c :: s =>
    let r := spanDigits s
    if c = 46 ∧ r.1 ≠ [] then (c :: r.1, r.2) else ([], c :: s)

def scanSign : Str → Str × Str
  | [] => ([], [])
  | c :: s => if c = 43 ∨ c = 45 then ([c], s) else ([], c :: s)

/-- The exponent of a number, when there is one. -/
def scanExponent : Str → Str × Str
  | [] => ([], [])
  | c :: s =>
    let sign := scanSign s
    let r := spanDigits sign.2
    if (c = 101 ∨ c = 69) ∧ r.1 ≠ [] then (c :: sign.1 ++ r.1, r.2) else ([], c :: s)

/-- A number without its sign: one zero, or digits that start otherwise. -/
def scanInteger : Str → Option (Str × Str)
  | [] => none
  | c :: s =>
    if c = 48 then some ([48], s)
    else if isDigit c then let r := spanDigits s; some (c :: r.1, r.2)
    else none

def scanNumber (negative : Bool) (s : Str) : Option (Token × Str) :=
  match scanInteger s with
  | none => none
  | some (ds, rest) =>
    let (fraction, rest) := scanFraction rest
    let (exponent, rest) := scanExponent rest
    if fraction = [] ∧ exponent = [] then
      some (.int (if negative then -(value ds : Int) else value ds), rest)
    else some (.float ((if negative then [45] else []) ++ ds ++ fraction ++ exponent), rest)

/-- What follows a word, when it is there. -/
def dropWord (word s : Str) : Option Str :=
  if word.isPrefixOf s then some (s.drop word.length) else none

/-- The token of one character. -/
def punctuation (c : Nat) : Option Token :=
  if c = 123 then some .lbrace
  else if c = 125 then some .rbrace
  else if c = 91 then some .lbracket
  else if c = 93 then some .rbracket
  else if c = 58 then some .colon
  else if c = 44 then some .comma
  else none

/-- The word that starts with a character: the rest of it, and its token. -/
def wordOf (c : Nat) : Option (Str × Token) :=
  if c = 110 then some (text "ull", .null)
  else if c = 116 then some (text "rue", .bool true)
  else if c = 102 then some (text "alse", .bool false)
  else if c = 78 then some (text "aN", .constant (text "NaN"))
  else if c = 73 then some (text "nfinity", .constant (text "Infinity"))
  else none

/-- The token that starts with `c`, and the rest. -/
def scanToken (c : Nat) (s : Str) : Option (Token × Str) :=
  match punctuation c with
  | some t => some (t, s)
  | none =>
    match wordOf c with
    | some (word, t) => (dropWord word s).map fun r => (t, r)
    | none =>
      if c = 34 then (scanPieces s).map fun r => (.string (joinPieces r.1), r.2)
      else if c = 45 then
        match dropWord (text "Infinity") s with
        | some r => some (.constant (text "-Infinity"), r)
        | none => scanNumber true s
      else scanNumber false (c :: s)

/-- The tokens of a text, with fuel for as many characters. -/
def lexFuel : Nat → Str → Option (List Token)
  | _, [] => some []
  | 0, _ :: _ => none
  | fuel + 1, c :: s =>
    if isSpace c then lexFuel fuel s
    else
      match scanToken c s with
      | none => none
      | some (t, rest) => (lexFuel fuel rest).map (t :: ·)

/-- The tokens of a text. -/
def lex (s : Str) : Option (List Token) := lexFuel s.length s

/-! ## The machine over the tokens -/

/-- What a reader makes of the members of an object and of a constant. -/
structure Hooks where
  object : List (Str × Value) → Option Value
  constant : Str → Option Value

/-- The dictionary of some members: a later one of the same name replaces the value. -/
def dictOf (members : List (Str × Value)) : List (Str × Value) :=
  members.foldl (fun d p => Dict.set d p.1 p.2) []

/-- `json.loads` with no hooks. -/
def Hooks.default : Hooks := ⟨fun members => some (.object (dictOf members)), fun c => some (.float c)⟩

/-- A container that is still open. -/
inductive Frame where
  | array (xs : List Value)
  | object (members : List (Str × Value))
  | member (members : List (Str × Value)) (key : Str)

/-- What may come next: a value, an element or the end of an array, a key or the end of an
object, a key, a colon, or what follows a value. -/
inductive Mode where
  | value | element | keyOrEnd | key | colon
  | after (v : Value)

/-- The value of a token that is one. -/
def scalar (hooks : Hooks) : Token → Option Value
  | .null => some .null
  | .bool b => some (.bool b)
  | .int n => some (.int n)
  | .float l => some (.float l)
  | .constant c => hooks.constant c
  | .string s => some (.string s)
  | _ => none

/-- A token where a value may start. -/
def stepValue (hooks : Hooks) (stack : List Frame) (t : Token) : Option (List Frame × Mode) :=
  match t with
  | .lbrace => some (.object [] :: stack, .keyOrEnd)
  | .lbracket => some (.array [] :: stack, .element)
  | t => (scalar hooks t).map fun v => (stack, .after v)

/-- After the opening bracket of an array. -/
def stepElement (hooks : Hooks) (stack : List Frame) (t : Token) : Option (List Frame × Mode) :=
  match stack, t with
  | .array xs :: below, .rbracket => some (below, .after (.array xs))
  | stack, t => stepValue hooks stack t

/-- Where a member must start. -/
def stepKey (stack : List Frame) (t : Token) : Option (List Frame × Mode) :=
  match stack, t with
  | .object ms :: below, .string k => some (.member ms k :: below, .colon)
  | _, _ => none

/-- After the opening brace of an object. -/
def stepKeyOrEnd (hooks : Hooks) (stack : List Frame) (t : Token) : Option (List Frame × Mode) :=
  match stack, t with
  | .object ms :: below, .rbrace => (hooks.object ms).map fun v => (below, .after v)
  | stack, t => stepKey stack t

def stepColon (stack : List Frame) (t : Token) : Option (List Frame × Mode) :=
  match t with
  | .colon => some (stack, .value)
  | _ => none

/-- After a value. -/
def stepAfter (hooks : Hooks) (v : Value) (stack : List Frame) (t : Token) :
    Option (List Frame × Mode) :=
  match stack, t with
  | .array xs :: below, .comma => some (.array (xs ++ [v]) :: below, .value)
  | .array xs :: below, .rbracket => some (below, .after (.array (xs ++ [v])))
  | .member ms k :: below, .comma => some (.object (ms ++ [(k, v)]) :: below, .key)
  | .member ms k :: below, .rbrace =>
    (hooks.object (ms ++ [(k, v)])).map fun o => (below, .after o)
  | _, _ => none

def step (hooks : Hooks) (state : List Frame × Mode) (t : Token) : Option (List Frame × Mode) :=
  match state.2 with
  | .value => stepValue hooks state.1 t
  | .element => stepElement hooks state.1 t
  | .keyOrEnd => stepKeyOrEnd hooks state.1 t
  | .key => stepKey state.1 t
  | .colon => stepColon state.1 t
  | .after v => stepAfter hooks v state.1 t

/-- `json.loads`. -/
def loads (hooks : Hooks) (s : Str) : Option Value :=
  match lex s with
  | none => none
  | some ts =>
    match ts.foldlM (step hooks) ([], .value) with
    | some ([], .after v) => some v
    | _ => none

/-! ## Printing -/

/-- A hexadecimal digit, in lower case. -/
def hexDigit (n : Nat) : Nat := if n < 10 then 48 + n else 87 + n

def escapeCode (n : Nat) : Str :=
  [92, 117, hexDigit (n / 4096 % 16), hexDigit (n / 256 % 16), hexDigit (n / 16 % 16),
    hexDigit (n % 16)]

/-- A character of a string, with `ensure_ascii`. -/
def escape (c : Nat) : Str :=
  if c = 34 then [92, 34]
  else if c = 92 then [92, 92]
  else if c = 10 then [92, 110]
  else if c = 13 then [92, 114]
  else if c = 9 then [92, 116]
  else if c = 12 then [92, 102]
  else if c = 8 then [92, 98]
  else if 32 ≤ c ∧ c ≤ 126 then [c]
  else if c < 0x10000 then escapeCode c
  else
    let v := c - 0x10000
    escapeCode (0xD800 + v / 0x400 % 0x400) ++ escapeCode (0xDC00 + v % 0x400)

def quote (s : Str) : Str := 34 :: (s.flatMap escape ++ [34])

def showInt (n : Int) : Str := if n < 0 then 45 :: decimal n.natAbs else decimal n.natAbs

/-- The separators of `json.dumps`: a comma and a colon, each with a space after it or not. -/
structure Separators where
  space : Str

/-- `separators=(",", ":")`. -/
def compact : Separators := ⟨[]⟩

/-- `separators=(", ", ": ")`, what `json.dumps` takes by itself. -/
def spaced : Separators := ⟨[32]⟩

section
variable (sep : Separators)

mutual

/-- A value as `json.dumps` writes it, its members in the order they have. -/
def dumps : Value → Str
  | .null => text "null"
  | .bool true => text "true"
  | .bool false => text "false"
  | .int n => showInt n
  | .float l => l
  | .string s => quote s
  | .array xs => 91 :: (dumpsElements xs ++ [93])
  | .object ms => 123 :: (dumpsMembers ms ++ [125])

def dumpsElements : List Value → Str
  | [] => []
  | [x] => dumps x
  | x :: y :: xs => dumps x ++ 44 :: (sep.space ++ dumpsElements (y :: xs))

def dumpsMembers : List (Str × Value) → Str
  | [] => []
  | [(k, v)] => quote k ++ 58 :: (sep.space ++ dumps v)
  | (k, v) :: m :: ms =>
    quote k ++ 58 :: (sep.space ++ dumps v) ++ 44 :: (sep.space ++ dumpsMembers (m :: ms))

end

end

/-! ## Sorted keys -/

/-- Members in the order of their keys. -/
def insertMember (m : Str × Value) : List (Str × Value) → List (Str × Value)
  | [] => [m]
  | m' :: ms => if m.1 ≤ m'.1 then m :: m' :: ms else m' :: insertMember m ms

mutual

/-- What `sort_keys=True` makes of a value. -/
def sortKeys : Value → Value
  | .array xs => .array (sortElements xs)
  | .object ms => .object (sortMembers ms)
  | v => v

def sortElements : List Value → List Value
  | [] => []
  | x :: xs => sortKeys x :: sortElements xs

def sortMembers : List (Str × Value) → List (Str × Value)
  | [] => []
  | (k, v) :: ms => insertMember (k, sortKeys v) (sortMembers ms)

end

end MpcHunt.Json
