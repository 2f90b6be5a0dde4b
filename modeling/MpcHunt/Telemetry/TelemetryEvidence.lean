/-
`telemetry_evidence.py`: what it accepts as a telemetry document, as a
telemetry directory, and as the evidence it has written itself. The lists of
cells and verdicts are the recorder's.
-/
import MpcHunt.Lib.Checks
import MpcHunt.Lib.Template
import MpcHunt.Lib.JsonLoads
import MpcHunt.Summary.PublicSummary
import MpcHunt.Telemetry.Counters

namespace MpcHunt.Telemetry

open Digits Json Checks Encoding
open Summary (Root)

/-! ## Constants -/

def documentSchema : Str := text "rt4.telemetry/2"

def evidenceSchema : Str := text "rt4.evidence/1"

def maxJobs : Nat := 8

def maxFileBytes : Nat := 256 * 1024

def maxTotalBytes : Nat := 1024 * 1024

/-- `TELEMETRY_NAME`, but for how the number is written. -/
def telemetryName : List (Piece Nat) :=
  [.lit (text "telemetry-job"), .group isDigit, .lit (text ".json")]

/-- The number in a name, `0|[1-9][0-9]*`. -/
def numbered (pattern : List (Piece Nat)) (name : Str) : Option Nat :=
  match Template.capture pattern name with
  | some [ds] => if Canonical ds then some (value ds) else none
  | _ => none

def isAlphanumeric (c : Nat) : Bool :=
  (65 ≤ c && c ≤ 90) || (97 ≤ c && c ≤ 122) || (48 ≤ c && c ≤ 57)

/-- `VOCABULARY`. -/
def inVocabulary (s : Str) : Bool :=
  match s with
  | [] => false
  | c :: cs => isAlphanumeric c && cs.length ≤ 63 &&
      cs.all fun c => isAlphanumeric c || c = 46 || c = 95 || c = 43 || c = 45

/-- `MAX_COUNTER`. -/
def maxCounter : Int := 2 ^ 40

def maxNanos : Int := 2 ^ 60

/-! ## Fields -/

def expectBounded (value : Value) (field : Str) (ceiling : Int) : Except Str Int :=
  match value with
  | .int n => if n < 0 ∨ n > ceiling then .error (text "value out of range: " ++ field) else .ok n
  | _ => .error (text "non-integer value: " ++ field)

def expectInt (value : Value) (field : Str) : Except Str Int := expectBounded value field maxCounter

def expectNanos (value : Value) (field : Str) : Except Str Int := expectBounded value field maxNanos

def expectVocabulary (value : Value) (field : Str) : Except Str Str :=
  match value with
  | .string s =>
    if inVocabulary s then .ok s else .error (text "value outside vocabulary: " ++ field)
  | _ => .error (text "value outside vocabulary: " ++ field)

/-- `set(xs) == set(ys)`. -/
def sameSet (xs ys : List Str) : Bool := xs.all (ys.contains ·) && ys.all (xs.contains ·)

/-- `document[key]`, where the key is known to be there. -/
def member (document : Dict Str Value) (key : Str) : Value := (document.get? key).getD .null

def expectCounterMap (value : Value) (keys : List Str) (field : Str) :
    Except Str (Dict Str Int) :=
  match value with
  | .object members =>
    if ¬ sameSet (Dict.keys members) keys then .error (text "unexpected counter keys: " ++ field)
    else keys.mapM fun key =>
      (expectInt (member members key) (field ++ text "." ++ key)).map fun n => (key, n)
  | _ => .error (text "counter map expected: " ++ field)

def expectExactKeys (document : Value) (keys : List Str) (field : Str) :
    Except Str (Dict Str Value) :=
  match document with
  | .object members =>
    if ¬ sameSet (Dict.keys members) keys then .error (text "unexpected keys: " ++ field)
    else .ok members
  | _ => .error (text "object expected: " ++ field)

/-- `value == s`. -/
def isString (value : Value) (s : Str) : Bool :=
  match value with
  | .string t => t = s
  | _ => false

/-! ## Documents -/

/-- The counters of a document, as they are published. -/
structure Section where
  execs : Int
  doorRejects : Int
  decoded : Int
  selected : Dict Str Int
  applied : Dict Str Int
  notApplied : Dict Str Int
  verdicts : Dict Str Int

structure Build where
  id : Str
  compiler : Str
  sanitizers : Str

def Build.value (b : Build) : Value :=
  .object [(text "id", .string b.id), (text "compiler", .string b.compiler),
    (text "sanitizers", .string b.sanitizers)]

structure Job where
  jobIndex : Int
  parallelism : Int
  durationNs : Int
  campaign : Str
  fuzzer : Str
  build : Build
  counters : Section

/-- `m[key]`, of a key that is there. -/
def count (m : Dict Str Int) (key : Str) : Int := (m.get? key).getD 0

/-- `sum(m.values())`. -/
def total (m : Dict Str Int) : Int := (m.map (·.2)).sum

def counterKeys : List Str :=
  [text "execs", text "door_rejects", text "decoded", text "selected", text "applied",
    text "not_applied", text "verdicts"]

/-- The counters of a document, each a number in its range. -/
def expectSection (counters : Dict Str Value) : Except Str Section := do
  let execs ← expectInt (member counters (text "execs")) (text "counters.execs")
  let doorRejects ←
    expectInt (member counters (text "door_rejects")) (text "counters.door_rejects")
  let decoded ← expectInt (member counters (text "decoded")) (text "counters.decoded")
  let selected ← expectCounterMap (member counters (text "selected")) cells (text "selected")
  let applied ← expectCounterMap (member counters (text "applied")) cells (text "applied")
  let notApplied ←
    expectCounterMap (member counters (text "not_applied")) cells (text "not_applied")
  let verdicts ← expectCounterMap (member counters (text "verdicts")) verdicts (text "verdicts")
  return ⟨execs, doorRejects, decoded, selected, applied, notApplied, verdicts⟩

/-- The four equations. -/
def checkEquations (c : Section) : Except Str Unit := do
  refuse (c.doorRejects + c.decoded ≠ c.execs) (text "execs equation does not close")
  refuse (total c.selected ≠ c.decoded) (text "selected equation does not close")
  refuse (∃ cell ∈ cells, count c.applied cell + count c.notApplied cell ≠ count c.selected cell)
    (text "applied equation does not close")
  refuse (total c.verdicts ≠ total c.applied) (text "verdict equation does not close")

def documentKeys : List Str :=
  [text "schema", text "identity", text "build", text "process", text "counters"]

def identityKeys : List Str := [text "campaign", text "fuzzer"]

def buildKeys : List Str := [text "id", text "compiler", text "sanitizers"]

def processKeys : List Str :=
  [text "job_index", text "parallelism", text "started_monotonic_ns", text "updated_monotonic_ns"]

def parseDocument (raw : Value) (expectedJob : Nat) : Except Str Job := do
  let document ← expectExactKeys raw documentKeys (text "document")
  refuse (¬ isString (member document (text "schema")) documentSchema)
    (text "unknown document schema")
  let identity ←
    expectExactKeys (member document (text "identity")) identityKeys (text "identity")
  let build ← expectExactKeys (member document (text "build")) buildKeys (text "build")
  let process ← expectExactKeys (member document (text "process")) processKeys (text "process")
  let counters ← expectExactKeys (member document (text "counters")) counterKeys (text "counters")
  let jobIndex ← expectInt (member process (text "job_index")) (text "process.job_index")
  refuse (jobIndex ≠ expectedJob) (text "job index does not match the file name")
  let parallelism ← expectInt (member process (text "parallelism")) (text "process.parallelism")
  refuse (parallelism < 1 ∨ parallelism > maxJobs) (text "parallelism out of range")
  let started ← expectNanos (member process (text "started_monotonic_ns")) (text "process.started")
  let updated ← expectNanos (member process (text "updated_monotonic_ns")) (text "process.updated")
  refuse (updated < started) (text "negative duration")
  let counters ← expectSection counters
  checkEquations counters
  let campaign ← expectVocabulary (member identity (text "campaign")) (text "identity.campaign")
  let fuzzer ← expectVocabulary (member identity (text "fuzzer")) (text "identity.fuzzer")
  let id ← expectVocabulary (member build (text "id")) (text "build.id")
  let compiler ← expectVocabulary (member build (text "compiler")) (text "build.compiler")
  let sanitizers ← expectVocabulary (member build (text "sanitizers")) (text "build.sanitizers")
  return ⟨jobIndex, parallelism, updated - started, campaign, fuzzer, ⟨id, compiler, sanitizers⟩,
    counters⟩

end MpcHunt.Telemetry
