/-
The evidence of a shard: how `telemetry_evidence.py` sums up a telemetry
directory in one document (`sanitize`, `serialize`), and how it checks such a
document before it is published (`check`).
-/
import MpcHunt.Lib.JsonSort
import MpcHunt.Telemetry.Packaged

namespace MpcHunt.Telemetry

open Digits Json Checks Encoding
open Summary (Root Node)

/-! ## The directory -/

/-- The files found so far, each with its index, and their total size. -/
abbrev Found := List (Nat × List UInt8) × Nat

def readEntry (acc : Found) (entry : Str × Node) : Except Str Found :=
  match entry.2 with
  | .symlink => .error (text "symlink rejected")
  | .other => .error (text "nested or non-regular telemetry rejected")
  | .regular bytes =>
    match numbered telemetryName entry.1 with
    | none => .error (text "unexpected telemetry name")
    | some index => do
      refuse (bytes.length = 0) (text "empty telemetry file")
      let total := acc.2 + bytes.length
      refuse (bytes.length > maxFileBytes ∨ total > maxTotalBytes)
        (text "telemetry size limit exceeded")
      return (acc.1 ++ [(index, bytes)], total)

def readDirectory (root : Root) : Except Str (List (Nat × List UInt8)) :=
  match root with
  | none => .error (text "invalid telemetry directory")
  | some entries => do
    let (found, _) ← entries.foldlM readEntry ([], 0)
    refuse (found = []) (text "telemetry absent")
    refuse (found.length > maxJobs) (text "too many telemetry documents")
    let found := found.insertionSort fun a b => a.1 ≤ b.1
    refuse (found.map (·.1) ≠ List.range found.length)
      (text "job indices are not contiguous from zero")
    return found

/-! ## The evidence -/

structure Evidence where
  runId : Int
  attempt : Int
  shard : Int
  harness : Str
  build : Build
  jobs : List Job
  totals : Section

/-- `{key: sum(j["counters"][…][key] for j in jobs) for key in keys}`. -/
def totalMap (keys : List Str) (maps : List (Dict Str Int)) : Dict Str Int :=
  keys.map fun key => (key, (maps.map (count · key)).sum)

/-- `totals`. -/
def totalSection (sections : List Section) : Section :=
  ⟨(sections.map (·.execs)).sum, (sections.map (·.doorRejects)).sum,
    (sections.map (·.decoded)).sum, totalMap cells (sections.map (·.selected)),
    totalMap cells (sections.map (·.applied)), totalMap cells (sections.map (·.notApplied)),
    totalMap verdicts (sections.map (·.verdicts))⟩

/-- `jobs[0]["build"]`, where there is a job. -/
def firstBuild (jobs : List Job) : Build := (jobs.head?.map (·.build)).getD ⟨[], [], []⟩

/-- The document that both `sanitize` and `check` put together. -/
def evidenceOf (runId attempt shard : Int) (harness : Str) (jobs : List Job) : Evidence :=
  ⟨runId, attempt, shard, harness, firstBuild jobs, jobs, totalSection (jobs.map (·.counters))⟩

/-- One file of the directory. -/
def readDocument (file : Nat × List UInt8) : Except Str Job := do
  let raw ← need (readText file.2) (text "telemetry is not readable JSON")
  parseDocument raw file.1

def sanitize (root : Root) (runId attempt shard : Int) (harness : Str) : Except Str Evidence := do
  let found ← readDirectory root
  let jobs ← found.mapM readDocument
  refuse ((jobs.map fun job => ValidateRt4.sortedText job.build.value).dedup.length ≠ 1)
    (text "documents disagree about the build")
  return evidenceOf runId attempt shard harness jobs

/-! ## Its text -/

def mapValue (m : Dict Str Int) : Value := .object (m.map fun p => (p.1, .int p.2))

def Section.members (c : Section) : Dict Str Value :=
  [(text "execs", .int c.execs), (text "door_rejects", .int c.doorRejects),
    (text "decoded", .int c.decoded), (text "selected", mapValue c.selected),
    (text "applied", mapValue c.applied), (text "not_applied", mapValue c.notApplied),
    (text "verdicts", mapValue c.verdicts)]

def Job.members (j : Job) : Dict Str Value :=
  [(text "job_index", .int j.jobIndex), (text "parallelism", .int j.parallelism),
    (text "duration_ns", .int j.durationNs), (text "campaign", .string j.campaign),
    (text "fuzzer", .string j.fuzzer), (text "build", j.build.value),
    (text "counters", .object j.counters.members)]

def Job.value (j : Job) : Value := .object j.members

def Evidence.members (e : Evidence) : Dict Str Value :=
  [(text "schema", .string evidenceSchema), (text "run_id", .int e.runId),
    (text "attempt", .int e.attempt), (text "shard", .int e.shard),
    (text "harness", .string e.harness), (text "build", e.build.value),
    (text "jobs", .array (e.jobs.map Job.value)), (text "totals", .object e.totals.members)]

def Evidence.value (e : Evidence) : Value := .object e.members

def serialize (e : Evidence) : List UInt8 :=
  encodeAscii (dumps compact (sortKeys e.value)) ++ [10]

/-! ## The check -/

def jobKeys : List Str :=
  [text "job_index", text "parallelism", text "duration_ns", text "campaign", text "fuzzer",
    text "build", text "counters"]

def evidenceKeys : List Str :=
  [text "schema", text "run_id", text "attempt", text "shard", text "harness", text "build",
    text "jobs", text "totals"]

/-- The counters of a job, as `_check_job` reads them: the maps first. -/
def checkSection (counters : Dict Str Value) : Except Str Section := do
  let selected ← expectCounterMap (member counters (text "selected")) cells (text "selected")
  let applied ← expectCounterMap (member counters (text "applied")) cells (text "applied")
  let notApplied ←
    expectCounterMap (member counters (text "not_applied")) cells (text "not_applied")
  let verdicts ← expectCounterMap (member counters (text "verdicts")) verdicts (text "verdicts")
  let execs ← expectInt (member counters (text "execs")) (text "execs")
  let doorRejects ← expectInt (member counters (text "door_rejects")) (text "door_rejects")
  let decoded ← expectInt (member counters (text "decoded")) (text "decoded")
  return ⟨execs, doorRejects, decoded, selected, applied, notApplied, verdicts⟩

/-- The four equations, as `_check_job` asks for them. -/
def checkJobEquations (c : Section) : Except Str Unit := do
  refuse (c.doorRejects + c.decoded ≠ c.execs ∨ total c.selected ≠ c.decoded)
    (text "job equations do not close")
  refuse (∃ cell ∈ cells, count c.applied cell + count c.notApplied cell ≠ count c.selected cell)
    (text "job equations do not close")
  refuse (total c.verdicts ≠ total c.applied) (text "job equations do not close")

/-- `_check_job`. -/
def checkJob (raw : Value) : Except Str Job := do
  let job ← expectExactKeys raw jobKeys (text "job")
  let counters ← expectExactKeys (member job (text "counters")) counterKeys (text "job.counters")
  let counters ← checkSection counters
  checkJobEquations counters
  let build ← expectExactKeys (member job (text "build")) buildKeys (text "job.build")
  let jobIndex ← expectInt (member job (text "job_index")) (text "job_index")
  let parallelism ← expectBounded (member job (text "parallelism")) (text "parallelism") maxJobs
  let durationNs ← expectNanos (member job (text "duration_ns")) (text "duration_ns")
  let campaign ← expectVocabulary (member job (text "campaign")) (text "campaign")
  let fuzzer ← expectVocabulary (member job (text "fuzzer")) (text "fuzzer")
  let id ← expectVocabulary (member build (text "id")) (text "build.id")
  let compiler ← expectVocabulary (member build (text "compiler")) (text "build.compiler")
  let sanitizers ← expectVocabulary (member build (text "sanitizers")) (text "build.sanitizers")
  return ⟨jobIndex, parallelism, durationNs, campaign, fuzzer, ⟨id, compiler, sanitizers⟩, counters⟩

section
variable (floatIs : Str → Int → Bool)

/-- `value == n`. A boolean is a number too; whether a float is the number is `floatIs`. -/
def isInt (value : Value) (n : Int) : Bool :=
  match value with
  | .int m => m = n
  | .bool b => (if b then 1 else 0) = n
  | .float literal => floatIs literal n
  | _ => false

/-- `evidence["jobs"]`, a list that is not empty. -/
def expectJobs (value : Value) : Except Str (List Value) :=
  match value with
  | .array (job :: jobs) => .ok (job :: jobs)
  | _ => .error (text "evidence carries no jobs")

/-- `check`, of a file that holds these bytes. -/
def check (bytes : List UInt8) (runId attempt shard : Int) (harness : Str) :
    Except Str Evidence := do
  let raw ← need ((decodeUtf8 bytes).bind (loads .default)) (text "evidence is not readable JSON")
  let evidence ← expectExactKeys raw evidenceKeys (text "evidence")
  refuse (¬ isString (member evidence (text "schema")) evidenceSchema)
    (text "unknown evidence schema")
  refuse (¬ (isInt floatIs (member evidence (text "run_id")) runId ∧
      isInt floatIs (member evidence (text "attempt")) attempt ∧
      isInt floatIs (member evidence (text "shard")) shard))
    (text "evidence identifies another shard")
  refuse (¬ isString (member evidence (text "harness")) harness)
    (text "evidence identifies another surface")
  let raws ← expectJobs (member evidence (text "jobs"))
  refuse (raws.length > maxJobs) (text "too many jobs")
  let jobs ← raws.mapM checkJob
  refuse (jobs.map (·.jobIndex) ≠ (List.range jobs.length).map (↑))
    (text "job indices are not contiguous from zero")
  let rebuilt := evidenceOf runId attempt shard harness jobs
  refuse (serialize rebuilt ≠ bytes) (text "evidence is not byte-canonical")
  return rebuilt

end

end MpcHunt.Telemetry
