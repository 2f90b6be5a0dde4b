/-
`materialize` of `scripts/materialize_window.py` from the selected units on:
the copies in the staging directory, the links (or second copies) in the
destination, and what is taken back when a call fails.

The two directories the run writes are part of the state (`Disk`). Every call
may fail, as the environment has it; what a call that works does to the two
directories is the model's. What the environment shows of any other path, and
of the files a copy reads, is up to it.
-/
import MpcHunt.Lib.Raising
import MpcHunt.Window.MaterializeWindow

namespace MpcHunt.MaterializeWindow

open Raising

/-- The directories the run writes. -/
inductive OwnDir where
  | staging | destination
deriving DecidableEq, Repr

/-- What lies in such a directory. -/
inductive Entry where
  | file (content : Bytes) (mode : Nat)
  | other
deriving DecidableEq, Repr

/-- The destination, and the staging directory while there is one. -/
structure Disk where
  destination : Dict String Entry
  staging : Option (Path × Dict String Entry)
deriving DecidableEq, Repr

def Disk.files (d : Disk) : OwnDir → Option (Dict String Entry)
  | .staging => d.staging.map (·.2)
  | .destination => some d.destination

def Disk.update (d : Disk) (dir : OwnDir) (f : Dict String Entry → Dict String Entry) : Disk :=
  match dir with
  | .staging => { d with staging := d.staging.map fun p => (p.1, f p.2) }
  | .destination => { d with destination := f d.destination }

/-- The environment's state and the two directories. -/
structure Sys (σ : Type) where
  env : σ
  disk : Disk

/-- The calls of a run, each answered from the environment's state. Those that look at files may
be shown the run's own. -/
structure Calls (σ : Type) where
  look : Disk → OS σ
  mkdtemp : σ → Except OSError String × σ
  create : OwnDir → String → σ → Except OSError Unit × σ
  /-- How many of the bytes offered are written. -/
  write : OwnDir → String → Nat → σ → Except OSError Nat × σ
  fsync : OwnDir → String → σ → Except OSError Unit × σ
  close : OwnDir → String → σ → Except OSError Unit × σ
  closeSource : Path → σ → Except OSError Unit × σ
  chmod : OwnDir → String → σ → Except OSError Unit × σ
  link : String → σ → Except OSError Unit × σ
  unlink : String → σ → Except OSError Unit × σ
  /-- What `rmtree` leaves of the staging directory, if anything. -/
  rmtree : σ → Option (Dict String Entry) × σ

section
variable {σ α : Type}

/-- A question to the environment. -/
def ask (f : σ → α × σ) (s : Sys σ) : α × Sys σ := ((f s.env).1, { s with env := (f s.env).2 })

/-- A call whose `OSError` nobody catches. -/
def callRaise (f : σ → Except OSError α × σ) : Py σ α := fun s =>
  match f s with
  | (.ok a, s') => .ok a s'
  | (.error _, s') => .error .osError s'

end

/-! ## The calls on the two directories -/

def Entry.stat : Entry → StatResult
  | .file content _ => ⟨.regular, 0, 0, content.length⟩
  | .other => ⟨.other, 0, 0, 0⟩

def Entry.append (view : Bytes) : Entry → Entry
  | .file content mode => .file (content ++ view) mode
  | .other => .other

def Entry.setMode (mode : Nat) : Entry → Entry
  | .file content _ => .file content mode
  | .other => .other

/-- A directory with one of its files changed. -/
def alter (name : String) (f : Entry → Entry) (files : Dict String Entry) : Dict String Entry :=
  files.map fun p => (p.1, if p.1 = name then f p.2 else p.2)

section
variable {σ : Type} (calls : Calls σ)

/-- A call that changes a directory, which it does when it works. -/
def changing (f : σ → Except OSError Unit × σ) (dir : OwnDir)
    (change : Dict String Entry → Dict String Entry) : Sys σ → Except OSError Unit × Sys σ :=
  fun s =>
    match ask f s with
    | (.ok _, s') => (.ok (), { s' with disk := s'.disk.update dir change })
    | (.error e, s') => (.error e, s')

/-- `os.open(target, O_WRONLY | O_CREAT | O_EXCL, 0o600)`. -/
def openTarget (dir : OwnDir) (name : String) : Sys σ → Except OSError Unit × Sys σ := fun s =>
  match s.disk.files dir with
  | some files =>
    if files.has name then (.error .osError, s)
    else changing (calls.create dir name) dir (· ++ [(name, .file [] 0o600)]) s
  | none => (.error .osError, s)

/-- `os.write(output, view)`. -/
def writeTarget (dir : OwnDir) (name : String) (view : Bytes) :
    Sys σ → Except OSError Nat × Sys σ := fun s =>
  match ask (calls.write dir name view.length) s with
  | (.ok n, s') =>
    (.ok (min n view.length),
      { s' with disk := s'.disk.update dir (alter name (.append (view.take n))) })
  | (.error e, s') => (.error e, s')

/-- `os.chmod(target, 0o644)`. -/
def chmodTarget (dir : OwnDir) (name : String) : Sys σ → Except OSError Unit × Sys σ :=
  changing (calls.chmod dir name) dir (alter name (.setMode 0o644))

/-- `os.link(source, target)`, from the staging directory to the destination. -/
def linkTarget (name : String) : Sys σ → Except OSError Unit × Sys σ := fun s =>
  match (s.disk.files .staging).bind (Dict.get? · name), s.disk.destination.has name with
  | some entry, false => changing (calls.link name) .destination (· ++ [(name, entry)]) s
  | _, _ => (.error .osError, s)

/-- `target.unlink()`, of a file of the destination. -/
def unlinkTarget (name : String) : Sys σ → Except OSError Unit × Sys σ :=
  changing (calls.unlink name) .destination (·.filter fun p => p.1 ≠ name)

/-- `tempfile.mkdtemp(prefix=".corpus-shard-", dir=destination.parent)`. -/
def makeStaging (destination : Path) : Sys σ → Except OSError Path × Sys σ := fun s =>
  match ask calls.mkdtemp s with
  | (.ok suffix, s') =>
    let staging := destination.dropLast ++ [".corpus-shard-" ++ suffix]
    (.ok staging, { s' with disk := { s'.disk with staging := some (staging, []) } })
  | (.error e, s') => (.error e, s')

/-- `shutil.rmtree(staging, ignore_errors=True)`. -/
def removeStaging : Py (Sys σ) Unit := fun s =>
  match ask calls.rmtree s with
  | (none, s') => .ok () { s' with disk := { s'.disk with staging := none } }
  | (some files, s') => .ok () { s' with disk := s'.disk.update .staging fun _ => files }

/-- What the run sees: the environment's answers, the destination's entries as they are. -/
def os (destination : Path) : OS (Sys σ) where
  lstat path s := ask ((calls.look s.disk).lstat path) s
  scandir path s :=
    match ask ((calls.look s.disk).scandir path) s with
    | (.ok l, s') =>
      if path = destination then
        (.ok ⟨if l.failed then [] else s.disk.destination.map fun p => ⟨p.1, false, .ok p.2.stat⟩,
          l.failed⟩, s')
      else (.ok l, s')
    | (.error e, s') => (.error e, s')
  openRead path s := ask ((calls.look s.disk).openRead path) s

variable (sha1 : Bytes → String) (sha256 : String → String) (destination : Path)

/-! ## `copy_verified` -/

/-- `while view: …`. -/
def writeView (dir : OwnDir) (name : String) (view : Bytes) : Py (Sys σ) Unit :=
  if _ : view = [] then pure ()
  else do
    let written ← callRaise (writeTarget calls dir name view)
    if _ : written = 0 then reject .destinationWrite
    else writeView dir name (view.drop written)
termination_by view.length
decreasing_by
  have := List.length_pos_iff.2 ‹¬ view = []›
  simp only [List.length_drop]
  omega

/-- The copy loop; what it has copied. -/
def copyChunks (dir : OwnDir) (name : String) : List (Except OSError Bytes) → Bytes →
    Py (Sys σ) Bytes
  | [], copied => pure copied
  | .error _ :: _, _ => throw .osError
  | .ok [] :: _, copied => pure copied
  | .ok (b :: chunk) :: rest, copied => do
    writeView calls dir name (b :: chunk)
    copyChunks dir name rest (copied ++ b :: chunk)

/-- `copy_verified` up to the `os.open` of its target. -/
def copyStart (unit : MUnit) (dir : OwnDir) : Py (Sys σ) Unit := do
  let metadata ← callOr .sourceChanged ((os calls destination).lstat unit.source)
  rejectIf (metadata.type ≠ .regular) .sourceChanged
  let (digest, size) ← hashRegularFile (os calls destination) sha1 unit.source metadata
  rejectIf (digest ≠ unit.name ∨ size ≠ unit.size) .sourceChanged
  callOr .destinationWrite (openTarget calls dir unit.name)

/-- `copy_verified` once its target is open. -/
def copyFill (unit : MUnit) (dir : OwnDir) : Py (Sys σ) Unit := do
  finallyDo (do
    let session ← callRaise ((os calls destination).openRead unit.source)
    finallyDo (do
      let copied ← copyChunks calls dir unit.name session.chunks []
      rejectIf (copied.length ≠ unit.size ∨ sha1 copied ≠ unit.name) .sourceChanged
      callRaise (ask (calls.fsync dir unit.name)))
      (callRaise (ask (calls.closeSource unit.source))))
    (callRaise (ask (calls.close dir unit.name)))
  callOr .destinationMode (chmodTarget calls dir unit.name)

def copyVerified (unit : MUnit) (dir : OwnDir) : Py (Sys σ) Unit := do
  copyStart calls sha1 destination unit dir
  copyFill calls sha1 destination unit dir

/-! ## `materialize` -/

/-- `for unit in selected: copy_verified(unit, staging)`. -/
def stageUnits : List MUnit → Py (Sys σ) Unit
  | [] => pure ()
  | unit :: rest => do
    copyVerified calls sha1 destination unit .staging
    stageUnits rest

/-- The body of the second loop: a link, or a copy where it fails. -/
def linkUnit (staging : Path) (unit : MUnit) : Py (Sys σ) Unit := fun s =>
  match linkTarget calls unit.name s with
  | (.ok _, s') => .ok () s'
  | (.error _, s') =>
    copyVerified calls sha1 destination ⟨unit.name, staging ++ [unit.name], unit.size⟩
      .destination s'

/-- `for target in reversed(created): …`, given that list reversed. -/
def unlinkAll : List String → Py (Sys σ) Unit
  | [] => pure ()
  | name :: rest => fun s => unlinkAll rest (unlinkTarget calls name s).2

/-- The second loop, with what it has created so far: that is taken back when its body raises. -/
def linkUnits (staging : Path) : List MUnit → List String → Py (Sys σ) Unit
  | [], _ => pure ()
  | unit :: rest, created => do
    onRaise (linkUnit calls sha1 destination staging unit) (unlinkAll calls created.reverse)
    linkUnits staging rest (created ++ [unit.name])

/-- The text `manifest_hash` hashes. -/
def manifestText (shardIndex waveShardCount waveNumber : Nat) (selection : Selection) : String :=
  let bucketPrefix := selection.bucketPrefix.getD "none"
  let bucketVisit := selection.bucketVisit
  let printableWindow := (selection.windowIndex.map toString).getD "none"
  let windowCount := selection.windowCount
  s!"shard_index={shardIndex}\nwave_shard_count={waveShardCount}\n" ++
  s!"wave_number={waveNumber}\nschedule_version=prefix-v1\n" ++
  s!"bucket_prefix={bucketPrefix}\n" ++
  s!"bucket_visit={bucketVisit}\nwindow_index={printableWindow}\nwindow_count={windowCount}\n" ++
  String.join (selection.commonNames.map fun name => s!"common {name}\n") ++
  String.join (selection.assignedNames.map fun name => s!"private {name}\n")

/-- The numbers in it. -/
def printedNumbers (shardIndex waveShardCount waveNumber : Nat) (selection : Selection) : List Nat :=
  [shardIndex, waveShardCount, waveNumber, selection.bucketVisit] ++ selection.windowIndex.toList ++
    [selection.windowCount]

/-- Each of these numbers written out. -/
def printNumbers (numbers : List Nat) : Py (Sys σ) Unit :=
  if numbers.all (· < 10 ^ maxStrDigits) then pure () else throw .valueError

/-- What `materialize` returns. -/
structure Summary where
  shardIndex : Nat
  waveShardCount : Nat
  waveNumber : Nat
  windowIndex : Option Nat
  windowCount : Nat
  commonFiles : Nat
  privateFiles : Nat
  manifest : String
  bucketPrefix : Option String
  bucketVisit : Nat
deriving DecidableEq, Repr

def summaryOf (shardIndex waveShardCount waveNumber : Nat) (selection : Selection) : Summary where
  shardIndex := shardIndex
  waveShardCount := waveShardCount
  waveNumber := waveNumber
  windowIndex := selection.windowIndex
  windowCount := selection.windowCount
  commonFiles := selection.commonNames.length
  privateFiles := selection.assignedNames.length
  manifest := sha256 (manifestText shardIndex waveShardCount waveNumber selection)
  bucketPrefix := selection.bucketPrefix
  bucketVisit := selection.bucketVisit

/-- `materialize` once the units are selected. -/
def materializeUnits (selected : List MUnit) : Py (Sys σ) Unit := do
  let staging ← callOr .stagingCreate (makeStaging calls destination)
  finallyDo (do
    stageUnits calls sha1 destination selected
    validateDestination (os calls destination) destination
    linkUnits calls sha1 destination staging selected [])
    (removeStaging calls)

/-- `materialize` on its parsed arguments. The manifest is written once the staging directory is
gone, and where that raises nothing takes the units back. -/
def materialize (shardIndex waveShardCount waveNumber : Nat) (commonSource : Path)
    (shardedSources : List Path) : Py (Sys σ) Summary := do
  let selection ← materializeSelect (os calls destination) sha1 destination shardIndex
    waveShardCount waveNumber commonSource shardedSources
  materializeUnits calls sha1 destination selection.selected
  printNumbers (printedNumbers shardIndex waveShardCount waveNumber selection)
  pure (summaryOf sha256 shardIndex waveShardCount waveNumber selection)

end

section
variable {σ : Type} (calls : Calls σ) (sha1 : Bytes → String) (sha256 : String → String)

/-- `materialize(sys.argv[1:])`. -/
def materializeArguments (path : String → Path) (arguments : List String) : Py (Sys σ) Summary := do
  let a ← parseArguments path arguments
  materialize calls sha1 sha256 a.destination a.shardIndex a.waveShardCount a.waveNumber
    a.commonSource a.shardedSources

end

end MpcHunt.MaterializeWindow
