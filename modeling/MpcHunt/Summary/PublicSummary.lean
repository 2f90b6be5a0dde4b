/-
The producer of the public summary (`public_summary.py`): the verdict of the
log and of the artifact, the frames of the log, and the seven fields. Bytes
of the log are code points here; the frame allowlist and SHA-256 are
parameters.
-/
import Mathlib.Data.Vector.Basic
import MpcHunt.Lib.Checks
import MpcHunt.Summary.EmitSummary

namespace MpcHunt.Summary

open Encoding Lines Checks

def HARNESSES : List Str :=
  [text "cmp_ecdsa_online", text "cmp_ecdsa_online_r4_tn", text "cmp_ecdsa_online_dual"]

def FIELDS : List Str :=
  [text "harness", text "shard", text "exit_code", text "sanitizer", text "summary",
    text "stack_normalized", text "sha256"]

/-- `needle in haystack`. -/
def contains (needle haystack : Str) : Bool := haystack.tails.any needle.isPrefixOf

/-! ## The private directory -/

/-- What an entry of the directory is. -/
inductive Node where
  | regular (bytes : List UInt8)
  | symlink
  | other

/-- The private directory: its entries in the order of the scan, or `none` where the path is
a symlink or no directory. -/
abbrev Root := Option (List (Str × Node))

/-- `regular_depth_one`, with the contents of the files. -/
def regularDepthOne (root : Root) : Except String (Dict Str (List UInt8)) :=
  match root with
  | none => .error "invalid private directory"
  | some entries =>
    entries.foldlM (fun byName (name, node) =>
      match node with
      | .symlink => .error "symlink rejected"
      | .other => .error "non-regular entry rejected"
      | .regular bytes => .ok (Dict.set byName name bytes)) []

/-! ## The verdict -/

inductive Kind where
  | crash | leak | timeout | oom | slowUnit
  deriving DecidableEq

def Kind.name : Kind → Str
  | .crash => text "crash"
  | .leak => text "leak"
  | .timeout => text "timeout"
  | .oom => text "oom"
  | .slowUnit => text "slow-unit"

def Kind.all : List Kind := [.crash, .leak, .timeout, .oom, .slowUnit]

/-- `ARTIFACT.fullmatch(name)`, with what its group matched: no kind is the start of another. -/
def ARTIFACT (name : Str) : Option Kind :=
  Kind.all.find? fun kind =>
    (Re.seq (.lit (kind.name ++ text "-")) (.times (range [(48, 57), (97, 102)]) 40)).fullmatch name

inductive Sanitizer where
  | none | asan | ubsan | msan | oracle | libfuzzer | multiple | tool
  deriving DecidableEq

def Sanitizer.name : Sanitizer → Str
  | .none => text "none"
  | .asan => text "asan"
  | .ubsan => text "ubsan"
  | .msan => text "msan"
  | .oracle => text "oracle"
  | .libfuzzer => text "libfuzzer"
  | .multiple => text "multiple"
  | .tool => text "tool"

inductive Outcome where
  | noFinding | memorySafety | undefinedBehavior | uninitializedMemory | oracleViolation | timeout
  | oom | slowUnit | crashSignal | leak | multipleSignals | executionFailed | budgetExhausted
  | containerOom
  deriving DecidableEq

def Outcome.name : Outcome → Str
  | .noFinding => text "no_finding"
  | .memorySafety => text "memory_safety"
  | .undefinedBehavior => text "undefined_behavior"
  | .uninitializedMemory => text "uninitialized_memory"
  | .oracleViolation => text "oracle_violation"
  | .timeout => text "timeout"
  | .oom => text "oom"
  | .slowUnit => text "slow_unit"
  | .crashSignal => text "crash_signal"
  | .leak => text "leak"
  | .multipleSignals => text "multiple_signals"
  | .executionFailed => text "execution_failed"
  | .budgetExhausted => text "budget_exhausted"
  | .containerOom => text "container_oom"

/-- The signals in a log, each with the verdict it gives alone. -/
def signals (log : Str) : List (Sanitizer × Outcome) :=
  (if contains (text "AddressSanitizer") log || contains (text "ERROR: ASan") log then
    [(.asan, .memorySafety)] else []) ++
  (if contains (text "UndefinedBehaviorSanitizer") log || contains (text "runtime error:") log then
    [(.ubsan, .undefinedBehavior)] else []) ++
  (if contains (text "MemorySanitizer") log then [(.msan, .uninitializedMemory)] else []) ++
  (if contains (text "FIREBLOCKS_HIGH_SIGNAL") log then [(.oracle, .oracleViolation)] else [])

def classify (log : Str) (artifactKind : Option Kind) : Sanitizer × Outcome :=
  match signals log with
  | [verdict] => verdict
  | _ :: _ :: _ => (.multiple, .multipleSignals)
  | [] =>
    match artifactKind with
    | some .timeout => (.libfuzzer, .timeout)
    | some .oom => (.libfuzzer, .oom)
    | some .slowUnit => (.libfuzzer, .slowUnit)
    | some .leak => (.libfuzzer, .leak)
    | some .crash => (.libfuzzer, .crashSignal)
    | none => (.none, .noFinding)

/-! ## The frames -/

/-- What is left after a fixed piece of text. -/
def skip (piece : String) (s : Str) : Option Str :=
  if (text piece).isPrefixOf s then some (s.drop (text piece).length) else none

/-- What is left after one or more symbols of a class. -/
def skipSome (cls : Nat → Bool) (s : Str) : Option Str :=
  if (s.takeWhile cls).isEmpty then none else some (s.dropWhile cls)

def isHead : Nat → Bool := inRanges [(65, 90), (97, 122), (95, 95), (126, 126)]

def isTail : Nat → Bool :=
  inRanges [(65, 90), (97, 122), (48, 57), (95, 95), (58, 58), (126, 126), (60, 60), (62, 62)]

def isSpace : Nat → Bool := inRanges [(32, 32)]

/-- The frame at the front of a text. Each repetition of `FRAME` stops at a symbol outside its
class, so the longest one is the only one; the name, at the end, is as long as it can be. -/
def FRAME (s : Str) : Option Str := do
  let s ← skip "#" s
  let s ← skipSome (inRanges [(48, 57)]) s
  let s ← skipSome isSpace s
  let s ← skip "0x" s
  let s ← skipSome (inRanges [(48, 57), (97, 102), (65, 70)]) s
  let s ← skipSome isSpace s
  let s ← skip "in" s
  match ← skipSome isSpace s with
  | [] => none
  | c :: s => if isHead c then some (c :: (s.takeWhile isTail).take 127) else none

/-- `FRAME.search(line)`: the leftmost frame. -/
def frameSearch (line : Str) : Option Str := line.tails.findSome? FRAME

/-- A frame as it is published. -/
def shown (allowed : List Str) (frame : Str) : Str :=
  if frame ∈ allowed then frame else text "unknown"

/-- `if frame not in frames: frames.append(frame)`. -/
def addNew (frames : List Str) (frame : Str) : List Str :=
  if frame ∈ frames then frames else frames ++ [frame]

/-- The loop over the lines of the log. -/
def framesLoop (allowed : List Str) : List Str → List Str → List Str
  | [], frames => frames
  | line :: rest, frames =>
    if line.length > 65536 then framesLoop allowed rest frames
    else
      match frameSearch line with
      | none => framesLoop allowed rest frames
      | some frame =>
        let frames := addNew frames (shown allowed frame)
        if frames.length = 8 then frames else framesLoop allowed rest frames

/-- `">".join(frames) if frames else "none"`. -/
def stackValue (frames : List Str) : Str :=
  if frames = [] then text "none" else [62].intercalate frames

def normalizedStack (allowed : List Str) (log : Str) : Except String Str :=
  let value := stackValue (framesLoop allowed (splitlines bytesBreak log) [])
  if value.length > 512 ∨ 47 ∈ value ∨ 92 ∈ value ∨ contains (text "0x") (value.map lower) then
    .error "unsafe normalized stack"
  else .ok value

/-! ## The fields -/

/-- `isdecimal`, of ASCII text: a digit of another script could not be written to the summary. -/
def isDecimal (s : Str) : Bool := !s.isEmpty && s.all Digits.isDigit

/-- What `strip` takes off. -/
def isBlank : Nat → Bool := inRanges [(9, 13), (28, 32)]

def strip (s : Str) : Str := ((s.dropWhile isBlank).reverse.dropWhile isBlank).reverse

/-- `read_text(encoding="ascii").strip()`. -/
def stripText (bytes : List UInt8) : Option Str :=
  (decodeAscii bytes).map fun s => strip (universalNewlines s)

/-- The artifacts of the directory. -/
def artifactsOf (byName : Dict Str (List UInt8)) : Except String (List (List UInt8 × Kind)) :=
  byName.foldlM (fun artifacts (name, bytes) =>
    if name ∈ [text "fuzzer.raw.log", text "exit_code", text "oom_killed", text "harness"] then
      .ok artifacts
    else
      match ARTIFACT name with
      | none => .error "unexpected artifact"
      | some kind =>
        if bytes.length > 32 * 1024 * 1024 then .error "unexpected artifact"
        else .ok (artifacts ++ [(bytes, kind)])) []

/-- The verdict, with what an exit code without an artifact makes of it. -/
def verdict (log : Str) (artifactKind : Option Kind) (code : Nat) : Sanitizer × Outcome :=
  if artifactKind = none ∧ code ≠ 0 then
    if code = 72 then (.tool, .budgetExhausted)
    else if code = 73 then (.tool, .containerOom)
    else (.tool, .executionFailed)
  else classify log artifactKind

def hexDigit (n : Nat) : Nat := if n < 10 then 48 + n else 87 + n

/-- `hexdigest()`. -/
def hexdigest (digest : Vector UInt8 32) : Str :=
  digest.toList.flatMap fun b => [hexDigit (b.toNat / 16), hexDigit (b.toNat % 16)]

/-- The digest of the artifact, or zeros. -/
def digestOf (sha256 : List UInt8 → Vector UInt8 32) (artifacts : List (List UInt8 × Kind)) : Str :=
  match artifacts with
  | [] => List.replicate 64 48
  | (bytes, _) :: _ => hexdigest (sha256 bytes)

section
variable (sha256 : List UInt8 → Vector UInt8 32) (allowed : List Str)

def build (root : Root) (harness shardText : Str) : Except String (Dict Str Str) := do
  refuse (harness ∉ HARNESSES) "unexpected harness"
  refuse (¬ isDecimal shardText ∨ ¬ Digits.value shardText < 25) "invalid shard"
  let byName ← regularDepthOne root
  let logBytes ← need (byName.get? (text "fuzzer.raw.log")) "missing private execution evidence"
  let exitBytes ← need (byName.get? (text "exit_code")) "missing private execution evidence"
  refuse (logBytes.length > 64 * 1024 * 1024) "raw log exceeds limit"
  let exitText ← need (stripText exitBytes) "ordinal not in range(128)"
  refuse (¬ isDecimal exitText ∨ ¬ Digits.value exitText ≤ 255) "invalid exit code"
  let artifacts ← artifactsOf byName
  refuse (artifacts.length > 1) "ambiguous artifact set"
  let log := logBytes.map UInt8.toNat
  let result := verdict log (artifacts.head?.map Prod.snd) (Digits.value exitText)
  let stack ← normalizedStack allowed log
  return FIELDS.zip
    [harness, shardText, exitText, result.1.name, result.2.name, stack, digestOf sha256 artifacts]

/-- What is at the destination path. -/
inductive Destination where
  | free | taken | noParent
  deriving DecidableEq

/-- The text of the summary. -/
def dataOf (values : Dict Str Str) : Str :=
  FIELDS.flatMap fun key => key ++ [61] ++ (values.get? key).getD [] ++ [10]

/-- `main` with four arguments: the bytes written to the destination, or the failure that makes
it return 1. -/
def produce (root : Root) (harness shardText : Str) (destination : Destination) :
    Except String (List UInt8) := do
  let values ← build sha256 allowed root harness shardText
  refuse (destination ≠ .free) "invalid summary destination"
  refuse (¬ (dataOf values).all (· < 128)) "ordinal not in range(128)"
  return encodeAscii (dataOf values)

end

end MpcHunt.Summary
