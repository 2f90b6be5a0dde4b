/-
The emitter of the public summary (`emit_summary.py`): the rule of each
field, the forbidden markers, and `validate`, which parses the file and
returns its text as it stands.
-/
import MpcHunt.Lib.Dict
import MpcHunt.Lib.Encoding
import MpcHunt.Lib.Lines
import MpcHunt.Lib.Regex

namespace MpcHunt.Summary

open Encoding Lines

/-! ## The expressions -/

/-- A class of code points: ranges with both ends included. -/
def inRanges (rs : List (Nat × Nat)) (c : Nat) : Bool := rs.any fun r => r.1 ≤ c && c ≤ r.2

def range (rs : List (Nat × Nat)) : Re Nat := .cls (inRanges rs)

def word (s : String) : Re Nat := .lit (text s)

/-- Under `re.IGNORECASE`, in ASCII text. -/
def lower (c : Nat) : Nat := if 65 ≤ c ∧ c ≤ 90 then c + 32 else c

def anyCase (s : String) : Re Nat := .all ((text s).map fun c => .cls fun d => lower d = lower c)

/-- `[0-9]`. -/
def digit : Re Nat := range [(48, 57)]

/-- `[A-Za-z_~][A-Za-z0-9_:~<>]{0,127}`. -/
def frame : Re Nat :=
  .seq (range [(65, 90), (97, 122), (95, 95), (126, 126)])
    (.between (range [(65, 90), (97, 122), (48, 57), (95, 95), (58, 58), (126, 126), (60, 60),
      (62, 62)]) 0 127)

def words (ss : List String) : Re Nat := .oneOf (ss.map word)

def harnessRule : Re Nat :=
  words ["cmp_ecdsa_online", "cmp_ecdsa_online_r4_tn", "cmp_ecdsa_online_dual"]

def shardRule : Re Nat :=
  .oneOf [digit, .seq (word "1") digit, .seq (word "2") (range [(48, 52)])]

def exitCodeRule : Re Nat :=
  .oneOf [word "0", .seq (range [(49, 57)]) (.opt digit), .seq (word "1") (.times digit 2),
    .all [word "2", range [(48, 52)], digit], .seq (word "25") (range [(48, 53)])]

def sanitizerRule : Re Nat :=
  words ["none", "asan", "ubsan", "msan", "oracle", "libfuzzer", "multiple", "tool"]

def summaryRule : Re Nat :=
  words ["no_finding", "memory_safety", "undefined_behavior", "uninitialized_memory",
    "oracle_violation", "timeout", "oom", "slow_unit", "crash_signal", "leak", "multiple_signals",
    "execution_failed", "budget_exhausted", "container_oom"]

def stackRule : Re Nat :=
  .oneOf [word "none", .seq frame (.between (.seq (word ">") frame) 0 7)]

def sha256Rule : Re Nat := .times (range [(48, 57), (97, 102)]) 64

/-- The rule of each field. The `\Z` at the end of each adds nothing to a `fullmatch`. -/
def RULES : Dict Str (Re Nat) := [
  (text "harness", harnessRule), (text "shard", shardRule), (text "exit_code", exitCodeRule),
  (text "sanitizer", sanitizerRule), (text "summary", summaryRule),
  (text "stack_normalized", stackRule), (text "sha256", sha256Rule)]

def ORDER : List Str := RULES.keys

def FORBIDDEN : Re Nat := .oneOf [
  anyCase "Base64:", anyCase "MS:", anyCase "ASCII", anyCase "artifact_prefix",
  anyCase "Test unit written", .seq (anyCase "0x") (.plus (range [(48, 57), (97, 102), (65, 70)])),
  .oneOf [anyCase "/home/", anyCase "/Users/", anyCase "C:\\Users\\"], anyCase "input bytes"]

/-! ## Validation -/

/-- The body of the loop over the lines; 61 is `=`. -/
def field (parsed : Dict Str Str) (line : Str) : Except String (Dict Str Str) :=
  let (key, separator, value) := partition 61 line
  if separator ≠ [61] ∨ parsed.has key then .error "invalid summary field"
  else
    match RULES.get? key with
    | none => .error "invalid summary field"
    | some rule =>
      if !rule.fullmatch value then .error "invalid summary value"
      else .ok (parsed.set key value)

/-- The loop over the lines. -/
def parse (text : Str) : Except String (Dict Str Str) := (splitlines strBreak text).foldlM field []

/-- `validate`, on the bytes of the file. -/
def validate (raw : List UInt8) : Except String Str :=
  if raw.length > 2048 ∨ 0 ∈ raw then .error "invalid summary bytes"
  else
    match decodeAscii raw with
    | none => .error "ordinal not in range(128)"
    | some text =>
      if FORBIDDEN.search text then .error "forbidden marker"
      else if (splitlines strBreak text).length ≠ 7 then .error "summary must contain seven lines"
      else
        match parse text with
        | .error e => .error e
        | .ok parsed => if parsed.keys ≠ ORDER then .error "summary order changed" else .ok text

/-- `main` with one argument: what it prints and its exit code. A file that cannot be read is
`none`. -/
def main (file : Option (List UInt8)) : Str × Nat :=
  match file with
  | none => ([], 1)
  | some raw =>
    match validate raw with
    | .error _ => ([], 1)
    | .ok text => (text, 0)

/-! ## What the expressions match -/

theorem within_range {P : Nat → Prop} {rs : List (Nat × Nat)}
    (h : ∀ r ∈ rs, ∀ c, r.1 ≤ c → c ≤ r.2 → P c) : (range rs).Within P := by
  intro c hc
  obtain ⟨r, hr, hle⟩ := List.any_eq_true.1 hc
  simp only [Bool.and_eq_true, decide_eq_true_eq] at hle
  exact h r hr c hle.1 hle.2

/-- The code points of the keys and of the values: none of them ends a line or a key. -/
def Plain (c : Nat) : Prop := 48 ≤ c ∧ c < 127 ∧ c ≠ 61

instance (c : Nat) : Decidable (Plain c) := inferInstanceAs (Decidable (_ ∧ _ ∧ _))

theorem Plain.not_break {c : Nat} (h : Plain c) : strBreak c = false := by
  obtain ⟨hlo, hhi, -⟩ := h
  simp only [strBreak, decide_eq_false_iff_not, List.mem_cons, List.not_mem_nil, or_false]
  omega

theorem within_word {P : Nat → Prop} {s : String} (h : ∀ c ∈ text s, P c) : (word s).Within P :=
  Re.within_lit.2 h

theorem plain_word {s : String} (h : ∀ c ∈ text s, Plain c) : (word s).Within Plain := within_word h

theorem plain_range {rs : List (Nat × Nat)}
    (h : ∀ r ∈ rs, 48 ≤ r.1 ∧ r.2 < 127 ∧ ¬(r.1 ≤ 61 ∧ 61 ≤ r.2)) : (range rs).Within Plain := by
  refine within_range fun r hr c hlo hhi => ?_
  have := h r hr
  unfold Plain
  omega

theorem plain_digit : digit.Within Plain := plain_range (by decide)

theorem plain_frame : frame.Within Plain := ⟨plain_range (by decide), plain_range (by decide)⟩

theorem plain_words {ss : List String} (h : ∀ s ∈ ss, ∀ c ∈ text s, Plain c) :
    (words ss).Within Plain := by
  refine Re.within_oneOf.2 fun r hr => ?_
  obtain ⟨s, hs, rfl⟩ := List.mem_map.1 hr
  exact plain_word (h s hs)

theorem plain_shard : shardRule.Within Plain :=
  ⟨plain_digit, ⟨plain_word (by decide), plain_digit⟩,
    ⟨plain_word (by decide), plain_range (by decide)⟩, trivial⟩

theorem plain_exitCode : exitCodeRule.Within Plain :=
  ⟨plain_word (by decide), ⟨plain_range (by decide), plain_digit⟩,
    ⟨plain_word (by decide), plain_digit⟩,
    ⟨plain_word (by decide), plain_range (by decide), plain_digit, trivial⟩,
    ⟨plain_word (by decide), plain_range (by decide)⟩, trivial⟩

theorem plain_stack : stackRule.Within Plain :=
  ⟨plain_word (by decide), ⟨plain_frame, ⟨plain_word (by decide), plain_frame⟩⟩, trivial⟩

/-- What obeys a rule has none of the symbols that hold the file together. -/
theorem rules_plain : ∀ rule ∈ RULES, rule.2.Within Plain := by
  have hsha : sha256Rule.Within Plain := plain_range (by decide)
  refine List.forall_mem_cons.2 ⟨plain_words (by decide), ?_⟩
  refine List.forall_mem_cons.2 ⟨plain_shard, ?_⟩
  refine List.forall_mem_cons.2 ⟨plain_exitCode, ?_⟩
  refine List.forall_mem_cons.2 ⟨plain_words (by decide), ?_⟩
  refine List.forall_mem_cons.2 ⟨plain_words (by decide), ?_⟩
  refine List.forall_mem_cons.2 ⟨plain_stack, ?_⟩
  exact List.forall_mem_cons.2 ⟨hsha, by simp⟩

theorem keys_plain : ∀ key ∈ ORDER, ∀ c ∈ key, Plain c := by decide

theorem value_plain {key : Str} {rule : Re Nat} (h : RULES.get? key = some rule) {value : Str}
    (hvalue : value ∈ rule.lang) : ∀ c ∈ value, Plain c :=
  Re.forall_of_within (rules_plain _ (Dict.mem_of_get? h)) hvalue

end MpcHunt.Summary
