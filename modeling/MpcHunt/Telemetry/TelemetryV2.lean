/-
`telemetry_v2.cpp`: the state of a harness process, the document it publishes,
and its functions as programs of system calls. A directory is its path. The
build without canary faults: `fault_selected` is false.
-/
import MpcHunt.Lib.Processes
import MpcHunt.Telemetry.Counters

namespace MpcHunt.Telemetry

open Digits Json

/-! ## The document -/

/-- What `publish` writes, but for the constants. -/
structure Document where
  buildId : Str
  compiler : Str
  sanitizers : Str
  jobIndex : Int
  parallelism : Int
  startedNs : UInt64
  updatedNs : UInt64
  counters : Counters

/-- `quoted`: as it is, between quotation marks. -/
def quoted (value : Str) : Str := [34] ++ value ++ [34]

/-- `std::to_string` of a counter. -/
def number (n : UInt64) : Str := decimal n.toNat

/-- `emit_map`. -/
def emitMap (values : CounterMap) : Str :=
  text "\x7b" ++ List.intercalate [44] (values.map fun kv => quoted kv.1 ++ [58] ++ number kv.2) ++
    text "\x7d"

def Document.build (d : Document) : Str :=
  text "\x7b\"id\":" ++ quoted d.buildId ++ text ",\"compiler\":" ++ quoted d.compiler ++
    text ",\"sanitizers\":" ++ quoted d.sanitizers ++ text "\x7d"

def Document.process (d : Document) : Str :=
  text "\x7b\"job_index\":" ++ showInt d.jobIndex ++ text ",\"parallelism\":" ++
    showInt d.parallelism ++ text ",\"started_monotonic_ns\":" ++ number d.startedNs ++
    text ",\"updated_monotonic_ns\":" ++ number d.updatedNs ++ text "\x7d"

def Counters.render (c : Counters) : Str :=
  text "\x7b\"execs\":" ++ number c.execs ++ text ",\"door_rejects\":" ++ number c.doorRejects ++
    text ",\"decoded\":" ++ number c.decoded ++ text ",\"selected\":" ++ emitMap c.selected ++
    text ",\"applied\":" ++ emitMap c.applied ++ text ",\"not_applied\":" ++ emitMap c.notApplied ++
    text ",\"verdicts\":" ++ emitMap c.verdicts ++ text "\x7d"

/-- The text of the document. -/
def Document.render (d : Document) : Str :=
  text "\x7b\"schema\":\"rt4.telemetry/2\",\"identity\":" ++
    text "\x7b\"campaign\":\"reachability_v2_r4\"," ++
    text "\"fuzzer\":\"opus_cmp_fuzzer_reachability_v2\"\x7d" ++
    text ",\"build\":" ++ d.build ++ text ",\"process\":" ++ d.process ++
    text ",\"counters\":" ++ d.counters.render ++ text "\x7d\n"

/-! ## System calls -/

/-- The memory of a process. -/
structure State where
  configured : Bool := false
  claimed : Bool := false
  dir : Str := []
  controlDir : Str := []
  buildId : Str := []
  compiler : Str := []
  sanitizers : Str := []
  jobIndex : Int := -1
  parallelism : Int := 1
  startedNs : UInt64 := 0
  counters : Counters := {}

/-- Calls that change no file: they succeed or fail. -/
inductive Query where
  | mkdir (dir : Str)
  | isDirectory (dir : Str)
  | fsync
  | close
  | openDirectory (dir : Str)

/-- What a process does in one step. A file is open by its name from `create` to `close`. -/
inductive Command where
  | load
  | store (s : State)
  | monotonicNs
  | getpid
  | ask (q : Query)
  | create (dir name : Str)
  | write (dir name data : Str)
  | unlink (dir name : Str)
  | rename (dir source dest : Str)

/-- What it gets back; of `write`, how many bytes were written, 0 where it failed. -/
abbrev Answer : Command → Type
  | .load => State
  | .store _ => Unit
  | .monotonicNs => UInt64
  | .getpid => Nat
  | .ask _ => Bool
  | .create _ _ => Bool
  | .write _ _ _ => Nat
  | .unlink _ _ => Unit
  | .rename _ _ _ => Bool

abbrev Program := Prog Command Answer

/-- A file, with the process that created it. -/
structure File (P : Type) where
  creator : P
  content : Str

/-- The files by directory and name, and the files that were renamed so far, with what they
were renamed to. -/
structure World (P : Type) where
  files : Str → Str → Option (File P)
  memory : P → State
  clock : UInt64
  renamed : List (Str × Str × Str)

/-- The process ids, and whether an exclusive create may fail where the file is not there. -/
structure Kernel (P : Type) where
  pid : P → Nat
  createMayFail : Bool

section
variable {P : Type} [DecidableEq P]

def World.setFile (w : World P) (dir name : Str) (f : Option (File P)) : World P :=
  { w with files := fun dir' name' => if dir' = dir ∧ name' = name then f else w.files dir' name' }

def World.setMemory (w : World P) (p : P) (s : State) : World P :=
  { w with memory := Function.update w.memory p s }

/-- A rename that succeeds. -/
def World.move (w : World P) (dir source dest : Str) (f : File P) : World P :=
  { (w.setFile dir dest (some f)).setFile dir source none with
    renamed := w.renamed ++ [(dir, dest, f.content)] }

/-- One system call. A write may be short, a rename is atomic, and whatever can fail may. -/
def exec (kernel : Kernel P) (p : P) (w : World P) : (c : Command) → Answer c → World P → Prop
  | .load, s, w' => s = w.memory p ∧ w' = w
  | .store s, _, w' => w' = w.setMemory p s
  | .monotonicNs, now, w' => w.clock ≤ now ∧ w' = { w with clock := now }
  | .getpid, n, w' => n = kernel.pid p ∧ w' = w
  | .ask _, _, w' => w' = w
  | .create dir name, ok, w' =>
    match w.files dir name with
    | some _ => ok = false ∧ w' = w
    | none => ok = true ∧ w' = w.setFile dir name (some ⟨p, []⟩) ∨
        kernel.createMayFail = true ∧ ok = false ∧ w' = w
  | .write dir name data, n, w' =>
    match w.files dir name with
    | some f => n ≤ data.length ∧
        w' = w.setFile dir name (some ⟨f.creator, f.content ++ data.take n⟩)
    | none => n = 0 ∧ w' = w
  | .unlink dir name, _, w' => w' = w ∨ w' = w.setFile dir name none
  | .rename dir source dest, ok, w' =>
    match w.files dir source with
    | some f => ok = false ∧ w' = w ∨ ok = true ∧ w' = w.move dir source dest f
    | none => ok = false ∧ w' = w

end

/-! ## The functions -/

def load : Program State := Prog.perform Command.load

def store (s : State) : Program Unit := Prog.perform (Command.store s)

def monotonicNs : Program UInt64 := Prog.perform Command.monotonicNs

def getpid : Program Nat := Prog.perform Command.getpid

def ask (q : Query) : Program Bool := Prog.perform (Command.ask q)

def create (dir name : Str) : Program Bool := Prog.perform (Command.create dir name)

def write (dir name data : Str) : Program Nat := Prog.perform (Command.write dir name data)

def unlink (dir name : Str) : Program Unit := Prog.perform (Command.unlink dir name)

def rename (dir source dest : Str) : Program Bool :=
  Prog.perform (Command.rename dir source dest)

/-- `a && b`, where `b` is a call. -/
def andAlso (a : Bool) (b : Program Bool) : Program Bool := if a then b else pure false

/-- `MAX_JOB_DOCUMENTS`. -/
def maxJobDocuments : Nat := 100000

def claimName (index : Nat) : Str := text "job-" ++ decimal index

def documentName (index : Int) : Str := text "telemetry-job" ++ showInt index ++ text ".json"

def temporaryName (dest : Str) (pid : Nat) : Str := dest ++ text ".tmp." ++ decimal pid

def vocabulary (value : Str) : Bool :=
  value ≠ [] && value.length ≤ 96 && value.all fun c =>
    (97 ≤ c && c ≤ 122) || (65 ≤ c && c ≤ 90) || (48 ≤ c && c ≤ 57) || c = 45 || c = 46 ||
      c = 124 || c = 43 || c = 95

/-- The arguments of `configure`. -/
structure Config where
  dir : Option Str
  controlDir : Option Str
  buildId : Option Str
  compiler : Option Str
  sanitizers : Option Str
  parallelism : Int

def configure (config : Config) : Program Bool :=
  match config.dir, config.controlDir, config.buildId with
  | some dir, some controlDir, some build => do
    if dir = [] ∨ controlDir = [] ∨ config.parallelism < 1 ∨ config.parallelism > 64 then
      return false
    let comp := config.compiler.getD (text "unknown")
    let sans := config.sanitizers.getD (text "unknown")
    if ¬ vocabulary build ∨ ¬ vocabulary comp ∨ ¬ vocabulary sans then return false
    let now ← monotonicNs
    store { configured := true, dir, controlDir, buildId := build, compiler := comp,
            sanitizers := sans, parallelism := config.parallelism, startedNs := now,
            counters := .zero }
    return true
  | _, _, _ => return false

def mkdirIfNeeded (dir : Str) : Program Bool := do
  if ← ask (.mkdir dir) then return true
  ask (.isDirectory dir)

/-- The loop of `claim_job`, from `index` on. -/
def claimFrom (controlDir : Str) : Nat → Nat → Program Bool
  | 0, _ => return false
  | left + 1, index => do
    if ¬ (← create controlDir (claimName index)) then
      claimFrom controlDir left (index + 1)
    else
      let owner := decimal (← getpid) ++ [10]
      let n ← write controlDir (claimName index) owner
      let ok ← andAlso (n = owner.length) (ask .fsync)
      let closed ← ask .close
      if ¬ ok ∨ ¬ closed then return false
      store { ← load with jobIndex := index, claimed := true }
      return true

def claimJob : Program Bool := do
  let s ← load
  if ¬ s.configured then return false
  if s.claimed then return true
  if ¬ (← mkdirIfNeeded s.dir) then return false
  if ¬ (← mkdirIfNeeded s.controlDir) then return false
  claimFrom s.controlDir maxJobDocuments 0

def writeAll (dir name data : Str) : Program Bool :=
  if _ : data = [] then return true
  else do
    let n ← write dir name data
    if _ : n = 0 then return false
    else writeAll dir name (data.drop n)
termination_by data.length
decreasing_by
  have := List.length_pos_iff.2 ‹¬ data = []›
  rw [List.length_drop]
  omega

/-- `dest` is a name in the telemetry directory `dir`. -/
def atomicPublish (dir dest doc : Str) : Program Bool := do
  let tmp := temporaryName dest (← getpid)
  if ¬ (← create dir tmp) then return false
  let ok ← andAlso (← writeAll dir tmp doc) (ask .fsync)
  let closed ← ask .close
  if ¬ ok ∨ ¬ closed then
    unlink dir tmp
    return false
  if ¬ (← rename dir tmp dest) then
    unlink dir tmp
    return false
  if ¬ (← ask (.openDirectory dir)) then return false
  let synced ← ask .fsync
  let dirClosed ← ask .close
  return synced && dirClosed

/-- What a process has to publish at a time. -/
def State.document (s : State) (now : UInt64) : Document :=
  ⟨s.buildId, s.compiler, s.sanitizers, s.jobIndex, s.parallelism, s.startedNs, now, s.counters⟩

def publish : Program Bool := do
  let s ← load
  if ¬ s.configured ∨ ¬ s.claimed then return true
  let now ← monotonicNs
  atomicPublish s.dir (documentName s.jobIndex) (s.document now).render

def recordDoorReject : Program Bool := do
  if ¬ (← claimJob) then return false
  let s ← load
  store { s with counters := s.counters.rejectAtDoor }
  publish

def recordCase (cellKey : Option Str) (wasApplied : Bool) (verdict : Option Str) :
    Program Bool := do
  if ¬ (← claimJob) then return false
  let s ← load
  match cellKey with
  | none => return false
  | some cell =>
    if ¬ s.counters.selected.has cell then return false
    let counters := s.counters.decode cell
    if wasApplied then
      match verdict with
      | none =>
        store { s with counters }
        return false
      | some verdict =>
        if ¬ counters.verdicts.has verdict then
          store { s with counters }
          return false
        store { s with counters := counters.apply cell verdict }
        publish
    else
      store { s with counters := counters.skip cell }
      publish

/-! ## Processes -/

def Call.program : Call → Program Bool
  | .doorReject => recordDoorReject
  | .case cellKey wasApplied verdict => recordCase cellKey wasApplied verdict

def runCalls : List Call → Program Unit
  | [] => return ()
  | c :: cs => do
    let _ ← c.program
    runCalls cs

/-- A harness process: configured once, then any calls; it publishes when it exits. -/
def harness (config : Config) (calls : List Call) : Program Unit := do
  let _ ← configure config
  runCalls calls
  let _ ← publish

end MpcHunt.Telemetry
