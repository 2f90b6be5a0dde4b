/-
`validate_rt4.py`, the promotion gate: what it asks of a telemetry directory
and a directory of claims. The result names the reason of a refusal; the three
reasons of a text that is no JSON document are one.
-/
import MpcHunt.Telemetry.TelemetryEvidence
import MpcHunt.Lib.Sweep

namespace MpcHunt.Telemetry.ValidateRt4

open Digits Json Checks Encoding
open Summary (Node)

/-! ## Constants -/

def maxDocumentBytes : Nat := 2 ^ 20

def maxCounter : Int := 2 ^ 63 - 1

/-- `_CLAIM_NAME`, but for how the number is written. -/
def claimName : List (Piece Nat) := [.lit (text "job-"), .group isDigit]

/-! ## Fields -/

def expectExactKeys (value : Value) (keys : List Str) (code : Str) : Except Str (Dict Str Value) :=
  match value with
  | .object members => if ¬ sameSet (Dict.keys members) keys then .error code else .ok members
  | _ => .error code

def expectString (value : Value) (code : Str) : Except Str Str :=
  match value with
  | .string s => if s = [] ∨ s.length > 256 then .error code else .ok s
  | _ => .error code

def expectInt (value : Value) (code : Str) (positive : Bool) : Except Str Int :=
  match value with
  | .int n =>
    let lower := if positive then 1 else 0
    if n < lower ∨ n > maxCounter then .error code else .ok n
  | _ => .error code

def expectCounterMap (value : Value) (keys : List Str) (code : Str) :
    Except Str (Dict Str Int) := do
  let members ← expectExactKeys value keys code
  keys.mapM fun key => (expectInt (member members key) code false).map fun n => (key, n)

def checkedAdd (left right : Int) : Except Str Int :=
  let result := left + right
  if result > maxCounter then .error (text "COUNTER_OVERFLOW") else .ok result

/-! ## Directories -/

/-- What a path leads to. -/
inductive Location where
  | symlink
  | noDirectory
  | directory (entries : List (Str × Node))

/-- `_strict_regular_files`, with the contents of the files. -/
def strictRegularFiles (directory : Location) (pattern : List (Piece Nat)) (directoryCode : Str) :
    Except Str (Dict Nat (List UInt8)) :=
  match directory with
  | .symlink => .error (text "SYMLINK_ENTRY")
  | .noDirectory => .error directoryCode
  | .directory entries =>
    entries.foldlM (fun result (name, node) =>
      match node with
      | .symlink => .error (text "SYMLINK_ENTRY")
      | .other => .error (text "NON_REGULAR_ENTRY")
      | .regular bytes =>
        match numbered pattern name with
        | none => .error (text "UNEXPECTED_ENTRY")
        | some index =>
          if Dict.has result index then .error (text "DUPLICATE_JOB_INDEX")
          else .ok (result ++ [(index, bytes)])) []

/-- `_no_duplicate_object` and `_reject_constant`. -/
def hooks : Hooks where
  object members := if (members.map Prod.fst).Nodup then some (.object members) else none
  constant _ := none

/-- `_read_json` of a file that nobody changes. -/
def readJson (bytes : List UInt8) : Except Str Value :=
  if bytes.length > maxDocumentBytes then .error (text "INVALID_DOCUMENT_FILE")
  else
    match decodeUtf8 bytes >>= loads hooks with
    | none => .error (text "INVALID_JSON")
    | some v => .ok v

/-! ## Documents -/

structure Identity where
  campaign : Str
  fuzzer : Str

structure Report where
  identity : Identity
  build : Build
  jobIndex : Int
  parallelism : Int
  started : Int
  updated : Int
  counters : Section

/-- The counters of a document, each a number in its range. -/
def expectSection (counters : Dict Str Value) : Except Str Section := do
  let execs ← expectInt (member counters (text "execs")) (text "COUNTER_VALUE") false
  let doorRejects ← expectInt (member counters (text "door_rejects")) (text "COUNTER_VALUE") false
  let decoded ← expectInt (member counters (text "decoded")) (text "COUNTER_VALUE") false
  let selected ← expectCounterMap (member counters (text "selected")) cells (text "SELECTED_MAP")
  let applied ← expectCounterMap (member counters (text "applied")) cells (text "APPLIED_MAP")
  let notApplied ←
    expectCounterMap (member counters (text "not_applied")) cells (text "NOT_APPLIED_MAP")
  let verdicts ← expectCounterMap (member counters (text "verdicts")) verdicts (text "VERDICT_MAP")
  return ⟨execs, doorRejects, decoded, selected, applied, notApplied, verdicts⟩

/-- The four equations. -/
def checkEquations (c : Section) : Except Str Unit := do
  let execs ← checkedAdd c.doorRejects c.decoded
  refuse (execs ≠ c.execs) (text "EXECS_EQUATION")
  refuse (total c.selected ≠ c.decoded) (text "SELECTED_EQUATION")
  cells.forM fun cell => do
    let both ← checkedAdd (count c.applied cell) (count c.notApplied cell)
    refuse (both ≠ count c.selected cell) (text "APPLICATION_EQUATION")
  refuse (total c.verdicts ≠ total c.applied) (text "VERDICT_EQUATION")

/-- `_parse_document`. -/
def parseDocument (document : Value) (filenameJob : Nat) : Except Str Report := do
  let root ← expectExactKeys document documentKeys (text "DOCUMENT_SHAPE")
  refuse (¬ isString (member root (text "schema")) documentSchema) (text "SCHEMA_MISMATCH")
  let identity ←
    expectExactKeys (member root (text "identity")) identityKeys (text "IDENTITY_SHAPE")
  let campaign ← expectString (member identity (text "campaign")) (text "IDENTITY_VALUE")
  let fuzzer ← expectString (member identity (text "fuzzer")) (text "IDENTITY_VALUE")
  let build ← expectExactKeys (member root (text "build")) buildKeys (text "BUILD_SHAPE")
  let id ← expectString (member build (text "id")) (text "BUILD_VALUE")
  let compiler ← expectString (member build (text "compiler")) (text "BUILD_VALUE")
  let sanitizers ← expectString (member build (text "sanitizers")) (text "BUILD_VALUE")
  let process ← expectExactKeys (member root (text "process")) processKeys (text "PROCESS_SHAPE")
  let jobIndex ← expectInt (member process (text "job_index")) (text "JOB_INDEX") false
  refuse (jobIndex ≠ filenameJob) (text "JOB_INDEX_MISMATCH")
  let parallelism ← expectInt (member process (text "parallelism")) (text "PARALLELISM") true
  let started ← expectInt (member process (text "started_monotonic_ns")) (text "TIMESTAMP") false
  let updated ← expectInt (member process (text "updated_monotonic_ns")) (text "TIMESTAMP") false
  refuse (started ≥ updated) (text "INVALID_INTERVAL")
  let counters ← expectExactKeys (member root (text "counters")) counterKeys (text "COUNTERS_SHAPE")
  let counters ← expectSection counters
  checkEquations counters
  return ⟨⟨campaign, fuzzer⟩, ⟨id, compiler, sanitizers⟩, jobIndex, parallelism, started, updated,
    counters⟩

/-! ## The gate -/

/-- `totals[key] = _checked_add(totals[key], counters[key])` for each key. -/
def addMap (keys : List Str) (totals counters : Dict Str Int) : Except Str (Dict Str Int) :=
  keys.mapM fun key => (checkedAdd (count totals key) (count counters key)).map fun n => (key, n)

def addSection (totals counters : Section) : Except Str Section := do
  let execs ← checkedAdd totals.execs counters.execs
  let doorRejects ← checkedAdd totals.doorRejects counters.doorRejects
  let decoded ← checkedAdd totals.decoded counters.decoded
  let selected ← addMap cells totals.selected counters.selected
  let applied ← addMap cells totals.applied counters.applied
  let notApplied ← addMap cells totals.notApplied counters.notApplied
  let verdicts ← addMap verdicts totals.verdicts counters.verdicts
  return ⟨execs, doorRejects, decoded, selected, applied, notApplied, verdicts⟩

def zeroMap (keys : List Str) : Dict Str Int := keys.map fun key => (key, 0)

/-- `_aggregate`. -/
def aggregate (documents : List Report) : Except Str Section :=
  documents.foldlM (fun totals d => addSection totals d.counters)
    ⟨0, 0, 0, zeroMap cells, zeroMap cells, zeroMap cells, zeroMap verdicts⟩

/-- The events of the jobs by time; where two fall together, an end comes first. -/
def events (documents : List Report) : List (Int × Int) :=
  (documents.flatMap fun d => [(d.started, 1), (d.updated, -1)]).insertionSort
    fun e e' => e.1 < e'.1 ∨ e.1 = e'.1 ∧ e.2 ≤ e'.2

/-- `_max_overlap`. -/
def maxOverlap (documents : List Report) : Except Str Int := do
  let (active, maximum) ← (events documents).foldlM (fun (active, maximum) (_, delta) =>
    let active := active + delta
    if active < 0 then .error (text "INVALID_INTERVAL_SET")
    else .ok (active, max maximum active)) (0, 0)
  refuse (active ≠ 0) (text "INVALID_INTERVAL_SET")
  return maximum

def Identity.value (i : Identity) : Value :=
  .object [(text "campaign", .string i.campaign), (text "fuzzer", .string i.fuzzer)]

/-- `json.dumps(value, sort_keys=True)`. -/
def sortedText (v : Value) : Str := dumps spaced (sortKeys v)

structure Ready where
  jobs : Nat
  parallelism : Int
  maxOverlap : Int
  totals : Section

/-- The cells that the gate wants: each selected and each applied. -/
def checkCells (totals : Section) : Except Str Unit :=
  cells.forM fun cell => do
    refuse (count totals.selected cell = 0) (text "CELL_UNREACHED")
    refuse (count totals.applied cell = 0) (text "VACUOUS_CELL")

/-- `validate`: the counts of a run that is ready, or why it is blocked. -/
def validate (telemetryDir claimsDir : Location) : Except Str Ready := do
  let telemetry ← strictRegularFiles telemetryDir telemetryName (text "TELEMETRY_DIRECTORY")
  let claims ← strictRegularFiles claimsDir claimName (text "CLAIMS_DIRECTORY")
  refuse (¬ (telemetry.keys ⊆ claims.keys ∧ claims.keys ⊆ telemetry.keys))
    (text "CLAIM_DOCUMENT_MISMATCH")
  refuse (telemetry = []) (text "NO_JOBS")
  let documents ← (sorted telemetry.keys).mapM fun index => do
    let document ← readJson ((telemetry.get? index).getD [])
    parseDocument document index
  refuse ((documents.map (·.jobIndex)).dedup.length ≠ documents.length)
    (text "DUPLICATE_JOB_INDEX")
  refuse ((documents.map (·.parallelism)).dedup.length ≠ 1) (text "PARALLELISM_MISMATCH")
  refuse ((documents.map fun d => sortedText d.identity.value).dedup.length ≠ 1)
    (text "IDENTITY_MISMATCH")
  refuse ((documents.map fun d => sortedText d.build.value).dedup.length ≠ 1)
    (text "BUILD_MISMATCH")
  let parallelism := (documents.head?.map (·.parallelism)).getD 0
  let overlap ← maxOverlap documents
  refuse (overlap > parallelism) (text "OVERLAP_EXCEEDS_PARALLELISM")
  let totals ← aggregate documents
  checkCells totals
  return ⟨documents.length, parallelism, overlap, totals⟩

/-! ## The overlap of the jobs -/

def Report.interval (d : Report) : Int × Int := (d.started, d.updated)

/-- How many documents hold at an instant. -/
def activeAt (documents : List Report) (t : Int) : Nat :=
  documents.countP fun d => d.started ≤ t ∧ t < d.updated

theorem activeAt_eq (documents : List Report) (t : Int) :
    activeAt documents t = Sweep.active (documents.map Report.interval) t := by
  rw [activeAt, Sweep.active, List.countP_map]
  rfl

theorem events_perm (documents : List Report) :
    (events documents).Perm (Sweep.endpoints (documents.map Report.interval)) := by
  rw [Sweep.endpoints, List.flatMap_map]
  exact List.perm_insertionSort _ _

theorem events_sorted (documents : List Report) : (events documents).Pairwise Sweep.Before :=
  List.pairwise_insertionSort Sweep.Before _

/-- After its latest end no document holds. -/
theorem exists_activeAt_eq_zero (documents : List Report) : ∃ t, activeAt documents t = 0 := by
  obtain ⟨t, ht⟩ := (documents.map Report.updated).toFinset.bddAbove
  refine ⟨t, List.countP_eq_zero.2 fun d hd => ?_⟩
  have hle : d.updated ≤ t := ht (by simpa using ⟨d, hd, rfl⟩)
  simp only [decide_eq_true_eq, not_and, not_lt]
  exact fun _ => hle

theorem maxOverlap_exact (documents : List Report) (h : ∀ d ∈ documents, d.started < d.updated) :
    ∃ n : Int, maxOverlap documents = .ok n ∧
      IsGreatest (Set.range fun t : Int => (activeAt documents t : Int)) n := by
  have hpos : ∀ x ∈ documents.map Report.interval, x.1 < x.2 := by
    intro x hx
    obtain ⟨d, hd, rfl⟩ := List.mem_map.1 hx
    exact h d hd
  obtain ⟨n, hfold, hle, hreached⟩ := Sweep.foldlM_step_endpoints (text "INVALID_INTERVAL_SET") hpos
    (events_perm documents) (events_sorted documents)
  refine ⟨n, ?_, ?_, ?_⟩
  · have hswept : maxOverlap documents = (events documents).foldlM
        (Sweep.step (text "INVALID_INTERVAL_SET")) (0, 0) >>= fun (active, maximum) => do
          refuse (active ≠ 0) (text "INVALID_INTERVAL_SET")
          return maximum := rfl
    rw [hswept, hfold]
    rfl
  · rcases hreached with rfl | ⟨t, rfl⟩
    · obtain ⟨t, ht⟩ := exists_activeAt_eq_zero documents
      exact ⟨t, congrArg Nat.cast ht⟩
    · exact ⟨t, congrArg Nat.cast (activeAt_eq documents t)⟩
  · rintro _ ⟨t, rfl⟩
    change (activeAt documents t : Int) ≤ n
    rw [activeAt_eq]
    exact hle t

/-- A document of these two times, with nothing counted. -/
def timed (started updated : Int) : Report where
  identity := ⟨text "c", text "f"⟩
  build := ⟨text "b", text "c", text "s"⟩
  jobIndex := 0
  parallelism := 1
  started
  updated
  counters := ⟨0, 0, 0, zeroMap cells, zeroMap cells, zeroMap cells, zeroMap verdicts⟩

/-- Two that meet at an endpoint and one across both. -/
theorem maxOverlap_exact_three :
    ∃ n : Int, maxOverlap [timed 5 9, timed 1 5, timed 3 7] = .ok n ∧
      IsGreatest (Set.range fun t : Int =>
        (activeAt [timed 5 9, timed 1 5, timed 3 7] t : Int)) n :=
  maxOverlap_exact [timed 5 9, timed 1 5, timed 3 7] (by simp [timed])

end MpcHunt.Telemetry.ValidateRt4
