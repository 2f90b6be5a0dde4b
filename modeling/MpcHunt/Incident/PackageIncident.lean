/-
`package_incident.py`, which seals the private directory of a shard to a public
key, under `cloud_finalize_incident.sh`, which destroys the plaintext where that
fails. Both may be killed anywhere.
-/
import MpcHunt.Lib.Processes
import MpcHunt.Summary.ShardStatus
import MpcHunt.Telemetry.Evidence

namespace MpcHunt.Incident

open Checks Digits Encoding Lines Processes
open Summary (Node Root)

abbrev Bytes := List UInt8

/-! ## What is packed -/

/-- How the packager ends before its time: by an exception, by a bad argument, by a kill. -/
inductive Fault where
  | raised | usage | died
  deriving DecidableEq

/-- The private directory. -/
inductive Place where
  | gone
  | dir (entries : List (Str × Node))

def Place.isGone : Place → Bool
  | .gone => true
  | .dir _ => false

/-- A file of the archive. -/
abbrev Member := Str × Bytes

/-- One turn of the loop of `validate_files`: the files so far, and their size. -/
def validateEntry (acc : List Member × Nat) (entry : Str × Node) :
    Except Fault (List Member × Nat) :=
  match entry.2 with
  | .symlink | .other => .error .raised
  | .regular bytes => do
    refuse (!Summary.evidenceNames.contains entry.1 && (Summary.ARTIFACT entry.1).isNone) .raised
    let total := acc.2 + bytes.length
    refuse (bytes.length > 64 * 1024 * 1024 ∨ total > 128 * 1024 * 1024) .raised
    return (acc.1 ++ [(entry.1, bytes)], total)

def validateFiles (place : Place) : Except Fault (List Member) :=
  match place with
  | .gone => .error .raised
  | .dir entries => do
    let found ← entries.foldlM validateEntry ([], 0)
    refuse (!(found.1.map Prod.fst).contains (text "fuzzer.raw.log")) .raised
    refuse (!(found.1.map Prod.fst).contains (text "exit_code")) .raised
    return found.1.insertionSort fun a b => a.1 ≤ b.1

/-- What `add_file` and `add_bytes` put into the archive. -/
def archive (files : List Member) (telemetry : Option Bytes) : List Member :=
  (files ++ telemetry.toList.map fun bytes => (text "telemetry.json", bytes)).map fun m =>
    (text "private/" ++ m.1, m.2)

/-- The last arguments of the finalizer; a number is `none` where `int` refuses it. -/
structure TelemetryArgs where
  root : Root
  runId : Option Int
  attempt : Option Int
  shard : Option Int

/-- What the finalizer is given. A file that cannot be read is `none`. -/
structure Job where
  fingerprintFile : Option Bytes
  publicKey : Option Bytes
  /-- Both outcomes are `success`. -/
  priorOk : Bool
  telemetry : Option TelemetryArgs

def nodeText : Node → Str
  | .regular bytes => (bytes.map UInt8.toNat).filter fun c => !([0, 10, 13].contains c)
  | .symlink | .other => []

/-- `HARNESS`, read from the evidence. -/
def harnessOf : Place → Str
  | .dir entries => (Dict.get? entries (text "harness")).elim [] nodeText
  | .gone => []

def sanitized (args : TelemetryArgs) (harness : Str) : Except Fault Bytes := do
  let runId ← need args.runId .usage
  let attempt ← need args.attempt .usage
  let shard ← need args.shard .usage
  let evidence ← need (Telemetry.sanitize args.root runId attempt shard harness).toOption .raised
  return Telemetry.serialize evidence

/-- The counters, which the lane of the reachability harness alone has. -/
def telemetryOf (job : Job) (place : Place) : Except Fault (Option Bytes) :=
  if harnessOf place = text "cmp_ecdsa_online_r4_tn" then
    job.telemetry.elim (.ok none) fun args => (sanitized args (harnessOf place)).map some
  else .ok none

def upper (c : Nat) : Nat := if 97 ≤ c ∧ c ≤ 122 then c - 32 else c

/-- The fingerprint of the file, in upper case. -/
def fingerprintOf (job : Job) : Except Fault Str := do
  let file ← need job.fingerprintFile .raised
  let stripped ← need (Summary.stripText file) .raised
  let fingerprint := stripped.map upper
  refuse (!(Re.times (Summary.range [(48, 57), (65, 70)]) 40).fullmatch fingerprint) .raised
  return fingerprint

def keyOf (job : Job) : Except Fault Bytes := do
  let key ← need job.publicKey .raised
  let data := key.map UInt8.toNat
  refuse (!Summary.contains (text "-----BEGIN PGP PUBLIC KEY BLOCK-----") data) .raised
  refuse (Summary.contains (text "PRIVATE KEY") data) .raised
  refuse (Summary.contains (text "SECRET KEY") data) .raised
  return key

/-- A fingerprint of the listing; 58 is `:`. -/
def importedField (line : Str) : Except Fault Str := do
  let field := (line.splitOn 58).getD 9 []
  refuse (!field.all (· < 128)) .raised
  return field.map upper

/-- The fingerprints that `gpg --with-colons` lists. -/
def imported (listing : Bytes) : Except Fault (List Str) :=
  ((splitlines bytesBreak (listing.map UInt8.toNat)).filter fun line =>
    (text "fpr:").isPrefixOf line && 9 < (line.splitOn 58).length).mapM importedField

/-! ## The world -/

/-- The files that are written. -/
inductive Output where
  | part | bundle | out
  deriving DecidableEq

/-- The private directory and the outputs, what the packager has returned, what the finalizer has
exited with, and whether a removal has failed. -/
structure World where
  place : Place
  files : Output → Option Bytes
  packaged : Option Nat
  exit : Option Nat
  stuck : Bool

def World.put (w : World) (o : Output) (content : Option Bytes) : World :=
  { w with files := Function.update w.files o content }

inductive Command where
  | go
  | look
  | isFree (o : Output)
  | isThere (o : Output)
  | list (key : Bytes) (fingerprint : Str)
  | listPackets
  | encrypt (fingerprint : Str) (members : List Member)
  | replace
  | remove (o : Output)
  | rmtree
  | shred
  | write (bytes : Bytes)
  | ended (status : Nat)
  | exit (status : Nat)

abbrev Answer : Command → Type
  | .go => Option Fault
  | .look => Place
  | .list _ _ => Option Bytes
  | .isFree _ | .isThere _ | .listPackets | .encrypt _ _ | .remove _ | .rmtree | .write _ => Bool
  | .replace | .shred | .ended _ | .exit _ => Unit

/-- What a command does. `opens` is what the private key of a fingerprint makes of a file; `gpg`
and the removals may leave off half way. -/
def exec (opens : Str → Bytes → Option (List Member)) (_ : Unit) (w : World) :
    (c : Command) → Answer c → World → Prop
  | .go, _, w' | .list _ _, _, w' | .listPackets, _, w' => w' = w
  | .look, r, w' => w' = w ∧ r = w.place
  | .isFree o, r, w' => w' = w ∧ (r = true ↔ w.files o = none)
  | .isThere o, r, w' => w' = w ∧ (r = true ↔ ∃ bytes, bytes ≠ [] ∧ w.files o = some bytes)
  | .encrypt fingerprint members, r, w' => ∃ content, w' = w.put .part content ∧
      (r = true → ∃ bytes, content = some bytes ∧ opens fingerprint bytes = some members)
  | .replace, _, w' => w' = (w.put .bundle (w.files .part)).put .part none
  | .remove o, r, w' => r = true ∧ w' = w.put o none ∨ r = false ∧ w' = { w with stuck := true }
  | .rmtree, r, w' => r = true ∧ w' = { w with place := .gone } ∨
      r = false ∧ ∃ entries, w' = { w with place := .dir entries, stuck := true }
  | .shred, _, w' => ∃ entries, w' = { w with place := .dir entries }
  | .write bytes, r, w' => ∃ written, written <+: bytes ∧ w' = w.put .out (some written) ∧
      (r = true → written = bytes)
  | .ended status, _, w' => w' = { w with packaged := some status }
  | .exit status, _, w' => w' = { w with exit := some status }

/-! ## The packager -/

abbrev Packager := ExceptT Fault (Prog Command Answer)

def orRaise {α : Type} (x : Except Fault α) : Packager α := ExceptT.mk (pure x)

/-- A step, before which the process may fail or be killed. -/
def act (c : Command) : Packager (Answer c) := do
  let fault ← ExceptT.lift (Prog.perform Command.go)
  orRaise (fault.elim (.ok ()) .error)
  ExceptT.lift (Prog.perform c)

def check (answer : Bool) : Packager Unit := orRaise (refuse (answer = false) .raised)

/-- The body of the `try`: the bundle takes its name once it has been read back. -/
def encryptParts (fingerprint : Str) (members : List Member) : Packager Unit := do
  check (← act (.encrypt fingerprint members))
  check (← act (.isThere .part))
  check (← act .listPackets)
  act .replace

def removeIfThere (o : Output) : Packager Unit := do
  let free ← act (.isFree o)
  if free then pure () else check (← act (.remove o))

/-- Its handler. -/
def removePart : Packager Unit := do
  removeIfThere .part
  orRaise (.error .raised)

def encryptBundle (fingerprint : Str) (members : List Member) : Packager Unit := ExceptT.mk do
  let r ← (encryptParts fingerprint members).run
  if r = .error .raised then removePart.run else pure r

/-- The plaintext must be gone. -/
def checkGone (left : Place) : Packager Unit :=
  if left.isGone then pure ()
  else do
    removeIfThere .bundle
    orRaise (.error .raised)

/-- `package`. -/
def package (job : Job) (telemetry : Option Bytes) : Packager Unit := do
  let files ← orRaise (validateFiles (← act .look))
  let fingerprint ← orRaise (fingerprintOf job)
  let key ← orRaise (keyOf job)
  check (← act (.isFree .bundle))
  let listing ← orRaise (need (← act (.list key fingerprint)) .raised)
  let fingerprints ← orRaise (imported listing)
  orRaise (refuse (!fingerprints.contains fingerprint) .raised)
  check (← act (.isFree .part))
  encryptBundle fingerprint (archive files telemetry)
  check (← act .rmtree)
  checkGone (← act .look)

def checkOut : Option Bytes → Packager Unit
  | none => pure ()
  | some _ => do check (← act (.isFree .out))

def writeOut : Option Bytes → Packager Unit
  | none => pure ()
  | some bytes => do check (← act (.write bytes))

/-- `main`, for the evidence of this place. -/
def mainBody (job : Job) (place : Place) : Packager Unit := do
  let telemetry ← orRaise (telemetryOf job place)
  checkOut telemetry
  package job telemetry
  writeOut telemetry

def Fault.status : Fault → Nat
  | .raised => 1
  | .usage => 64
  | .died => 137

def statusOf : Except Fault Unit → Nat
  | .ok _ => 0
  | .error fault => fault.status

def packager (job : Job) (place : Place) : Prog Command Answer Nat := do
  let r ← (mainBody job place).run
  Prog.perform (Command.ended (statusOf r))
  pure (statusOf r)

/-! ## The finalizer -/

/-- The plaintext is shredded and removed: true where that has worked. -/
def removePlain (left : Place) : Prog Command Answer Bool :=
  if left.isGone then pure true
  else do
    Prog.perform Command.shred
    Prog.perform Command.rmtree

def destroy (left : Place) : Prog Command Answer Nat := do
  if (← removePlain left) = false then pure 1
  else do
    let _ ← Prog.perform (Command.remove .bundle)
    pure 1

/-- `cloud_finalize_incident.sh`: what it exits with. -/
def finalize (job : Job) : Prog Command Answer Nat := do
  let place ← Prog.perform Command.look
  if place.isGone then pure 1
  else do
    let status ← packager job place
    let there ← Prog.perform (Command.isThere .bundle)
    let left ← Prog.perform Command.look
    if status = 0 ∧ there = true ∧ left.isGone = true then pure (if job.priorOk then 0 else 1)
    else destroy left

def program (job : Job) : Prog Command Answer Unit := do
  let status ← finalize job
  Prog.perform (Command.exit status)

def start (job : Job) (w : World) : System Command Answer World Unit :=
  ⟨w, fun _ => some (program job)⟩

end MpcHunt.Incident
