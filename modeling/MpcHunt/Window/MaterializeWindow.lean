/-
`scripts/materialize_window.py`: what one shard of one wave selects, read
through an arbitrary operating system. Every call that looks at a file is a
field of `OS`, which answers from a state of its own, so the model says
nothing about what the sources hold or whether they hold still; a read of one
open file is answered at once with all its chunks (`ReadSession`).

`materializeSelect` is `materialize` up to the list `selected` of units to
copy; `MpcHunt.Window.Materialize` is the rest. Raised exceptions keep the
state, as they do in Python.
-/
import MpcHunt.Lib.Dict
import Mathlib.Data.String.Basic

namespace MpcHunt.MaterializeWindow

abbrev Bytes := List UInt8

def maxShards : Nat := 4096
def maxShardedSources : Nat := 64
def maxUnitBytes : Nat := 1024 * 1024
def maxTotalFiles : Nat := 1000000
def maxBucketFiles : Nat := 100000
def maxBucketBytes : Nat := 128 * 1024 * 1024
def maxTotalBytes : Nat := 512 * 1024 * 1024
def windowSize : Nat := 24

/-- The codes of `FAILURE_CODES` that are raised with `reject`. -/
inductive FailCode where
  | arguments | shardIndex | waveShardCount | waveNumber | shardRange | sourceCountCap
  | destinationDirectory | destinationDirty | destinationScan
  | sourceDirectory | sourceScan | sourceName | sourceStat | sourceNonregular
  | sourceOpen | sourceChanged | unitSizeCap | contentHash
  | fileCountCap | totalSizeCap | bucketCap | bucketSizeCap | commonCapacity
  | stagingCreate | destinationWrite | destinationMode
deriving DecidableEq, Repr

/-- What a call raises: `FailClosed(code)`, or an `OSError` or `ValueError` nobody catches
(which `main` reports as `materializer_internal`). -/
inductive Raised where
  | failClosed (code : FailCode)
  | osError
  | valueError
deriving DecidableEq, Repr

/-- An `OSError` from a call. -/
inductive OSError where
  | osError
deriving DecidableEq, Repr

/-- A path by its components; `directory / name` is `directory ++ [name]`. -/
abbrev Path := List String

/-- The file type in `st_mode`. -/
inductive FileType where
  | regular | directory | symlink | other
deriving DecidableEq, Repr

/-- What the code reads of an `os.stat_result`. -/
structure StatResult where
  type : FileType
  st_dev : Nat
  st_ino : Nat
  st_size : Nat
deriving DecidableEq, Repr

/-- An `os.DirEntry`: its name, what `is_symlink()` says, what
`stat(follow_symlinks=False)` answers. -/
structure DirEntry where
  name : String
  isSymlink : Bool
  stat : Except OSError StatResult

/-- What iterating `os.scandir(d)` yields: entries, and then the end of the
directory or an `OSError`. -/
structure Listing where
  entries : List DirEntry
  failed : Bool

/-- One open file from `os.open` to `os.close`: the first `fstat`, the chunks
`os.read` returns before it returns nothing, the last `fstat`. -/
structure ReadSession where
  opened : Except OSError StatResult
  chunks : List (Except OSError Bytes)
  after : Except OSError StatResult

/-- The calls that look at the file system, each answered from a state that
it may change. -/
structure OS (σ : Type) where
  lstat : Path → σ → Except OSError StatResult × σ
  scandir : Path → σ → Except OSError Listing × σ
  openRead : Path → σ → Except OSError ReadSession × σ

/-- A computation of the script: it may raise, and keeps the state when it does. -/
abbrev Py (σ : Type) := EStateM Raised σ

def reject {σ α : Type} (code : FailCode) : Py σ α := throw (.failClosed code)

/-- `if bad: reject(code)`. -/
def rejectIf {σ : Type} (bad : Prop) [Decidable bad] (code : FailCode) : Py σ Unit :=
  if bad then reject code else pure ()

/-- A call of the operating system, its error reported as `code`. -/
def callOr {σ α : Type} (code : FailCode) (f : σ → Except OSError α × σ) : Py σ α := fun s =>
  match f s with
  | (.ok a, s') => .ok a s'
  | (.error _, s') => .error (.failClosed code) s'

/-- A pure step that may raise. -/
def liftExcept {σ α : Type} : Except Raised α → Py σ α
  | .ok a => pure a
  | .error r => throw r

/-- A value an `OSError` stands in for, raised on when it does. -/
def orRaise {σ α : Type} (r : Raised) : Except OSError α → Py σ α
  | .ok a => pure a
  | .error _ => throw r

/-- `NAME_RE.fullmatch`. -/
def nameRe (name : String) : Bool :=
  name.toList.length = 40 &&
    name.toList.all fun c => ('0' ≤ c && c ≤ '9') || ('a' ≤ c && c ≤ 'f')

/-- `name[:2]`. -/
def prefixOf (name : String) : String := String.ofList (name.toList.take 2)

structure MUnit where
  name : String
  source : Path
  size : Nat
deriving DecidableEq, Repr

structure PrivateInventory where
  sources : List Path
  prefixes : List String
  totalFiles : Nat
  totalBytes : Nat
  bucketFiles : List (String × Nat)
  bucketBytes : List (String × Nat)
deriving DecidableEq, Repr

/-- `int(value, 10)` on a string of decimal digits. -/
def intOfDigits (ds : List Char) : Nat :=
  ds.foldl (fun n c => 10 * n + (c.toNat - '0'.toNat)) 0

/-- `sys.get_int_max_str_digits()`: CPython turns no longer string of digits into an `int`,
and no `int` into a longer one. -/
@[irreducible] def maxStrDigits : Nat := 4300

def parseUint {σ : Type} (value : String) (code : FailCode) : Py σ Nat :=
  if value.toList = [] ∨ ¬ value.toList.all (fun c => '0' ≤ c && c ≤ '9') then reject code
  else if value.toList.length > maxStrDigits then throw .valueError
  else pure (intOfDigits value.toList)

/-- The command line, parsed. -/
structure Arguments where
  destination : Path
  shardIndex : Nat
  waveShardCount : Nat
  waveNumber : Nat
  commonSource : Path
  shardedSources : List Path
deriving DecidableEq, Repr

/-- The first lines of `materialize`; `path` is `Path`. -/
def parseArguments {σ : Type} (path : String → Path) (arguments : List String) : Py σ Arguments :=
  match arguments with
  | destination :: shardIndex :: waveShardCount :: waveNumber :: commonSource :: source :: sources => do
    let shardIndex ← parseUint shardIndex .shardIndex
    let waveShardCount ← parseUint waveShardCount .waveShardCount
    let waveNumber ← parseUint waveNumber .waveNumber
    pure {
      destination := path destination
      shardIndex, waveShardCount, waveNumber
      commonSource := path commonSource
      shardedSources := (source :: sources).map path }
  | _ => reject .arguments

section
variable {σ : Type} (os : OS σ) (sha1 : Bytes → String)

def lstatDirectory (path : Path) (code : FailCode) : Py σ StatResult := do
  let metadata ← callOr code (os.lstat path)
  if metadata.type = .directory then pure metadata else reject code

/-- The read loop of `hash_regular_file`: all the bytes, capped. -/
def readCapped : List (Except OSError Bytes) → Bytes → Except Raised Bytes
  | [], acc => .ok acc
  | .error _ :: _, _ => .error .osError
  | .ok [] :: _, acc => .ok acc
  | .ok (b :: chunk) :: rest, acc =>
    if (acc ++ b :: chunk).length > maxUnitBytes then .error (.failClosed .unitSizeCap)
    else readCapped rest (acc ++ b :: chunk)

/-- Digest and size of a file's content (POSIX: the inode is compared). -/
def hashRegularFile (path : Path) (expected : StatResult) : Py σ (String × Nat) := do
  let session ← callOr .sourceOpen (os.openRead path)
  let opened ← orRaise .osError session.opened
  rejectIf (opened.type ≠ .regular) .sourceNonregular
  rejectIf ((opened.st_dev, opened.st_ino) ≠ (expected.st_dev, expected.st_ino)) .sourceChanged
  let content ← liftExcept (readCapped session.chunks [])
  let after ← orRaise .osError session.after
  rejectIf ((after.st_dev, after.st_ino, after.st_size) ≠
      (opened.st_dev, opened.st_ino, opened.st_size) ∨ content.length ≠ opened.st_size) .sourceChanged
  pure (sha1 content, content.length)

/-- The checks both scanners make of a directory entry; its `stat` result. -/
def checkEntry (entry : DirEntry) : Py σ StatResult := do
  rejectIf (¬ nameRe entry.name) .sourceName
  let metadata ← orRaise (.failClosed .sourceStat) entry.stat
  rejectIf (entry.isSymlink ∨ metadata.type ≠ .regular) .sourceNonregular
  rejectIf (metadata.st_size > maxUnitBytes) .unitSizeCap
  pure metadata

def validateSourceEntries (directory : Path) : List DirEntry → Dict String MUnit →
    Py σ (Dict String MUnit)
  | [], units => pure units
  | entry :: rest, units => do
    let metadata ← checkEntry entry
    let path := directory ++ [entry.name]
    let (actualHash, actualSize) ← hashRegularFile os sha1 path metadata
    rejectIf (actualHash ≠ entry.name) .contentHash
    validateSourceEntries directory rest (units.set entry.name ⟨entry.name, path, actualSize⟩)

def validateSource (directory : Path) : Py σ (Dict String MUnit) := do
  let _ ← lstatDirectory os directory .sourceDirectory
  let listing ← callOr .sourceScan (os.scandir directory)
  rejectIf (listing.failed) .sourceScan
  rejectIf (listing.entries.length > maxBucketFiles) .fileCountCap
  validateSourceEntries os sha1 directory listing.entries []

def validateDestination (destination : Path) : Py σ Unit := do
  let _ ← lstatDirectory os destination .destinationDirectory
  let listing ← callOr .destinationScan (os.scandir destination)
  rejectIf (¬ listing.entries.isEmpty) .destinationDirty
  rejectIf (listing.failed) .destinationScan

/-- The counters `_scan_private_sources` keeps. -/
structure Scan where
  selected : Dict String (List MUnit)
  bucketFiles : Dict String Nat
  bucketBytes : Dict String Nat
  totalFiles : Nat
  totalBytes : Nat

def Scan.empty : Scan := ⟨[], [], [], 0, 0⟩

/-- Counting one unit, before the caps are looked at. -/
def Scan.add (acc : Scan) (source : Path) (selectedPrefix : Option String) (name : String)
    (size : Nat) : Scan where
  selected :=
    if some (prefixOf name) = selectedPrefix then
      acc.selected.set name
        ((acc.selected.get? name).getD [] ++ [⟨name, source ++ [name], size⟩])
    else acc.selected
  bucketFiles := acc.bucketFiles.set (prefixOf name)
    ((acc.bucketFiles.get? (prefixOf name)).getD 0 + 1)
  bucketBytes := acc.bucketBytes.set (prefixOf name)
    ((acc.bucketBytes.get? (prefixOf name)).getD 0 + size)
  totalFiles := acc.totalFiles + 1
  totalBytes := acc.totalBytes + size

def scanEntries (source : Path) (selectedPrefix : Option String) :
    List DirEntry → Scan → Py σ Scan
  | [], acc => pure acc
  | entry :: rest, acc => do
    let metadata ← checkEntry entry
    let acc' := acc.add source selectedPrefix entry.name metadata.st_size
    rejectIf (acc'.totalFiles > maxTotalFiles) .fileCountCap
    rejectIf (acc'.totalBytes > maxTotalBytes) .totalSizeCap
    rejectIf ((acc'.bucketFiles.get? (prefixOf entry.name)).getD 0 > maxBucketFiles) .bucketCap
    rejectIf ((acc'.bucketBytes.get? (prefixOf entry.name)).getD 0 > maxBucketBytes) .bucketSizeCap
    scanEntries source selectedPrefix rest acc'

def scanSources (selectedPrefix : Option String) : List Path → Scan → Py σ Scan
  | [], acc => pure acc
  | source :: rest, acc => do
    let _ ← lstatDirectory os source .sourceDirectory
    let listing ← callOr .sourceScan (os.scandir source)
    let acc' ← scanEntries source selectedPrefix listing.entries acc
    rejectIf (listing.failed) .sourceScan
    scanSources selectedPrefix rest acc'

/-- The inventory a finished scan amounts to. -/
def Scan.inventory (acc : Scan) (sources : List Path) : PrivateInventory where
  sources := sources
  prefixes := sorted acc.bucketFiles.keys
  totalFiles := acc.totalFiles
  totalBytes := acc.totalBytes
  bucketFiles := (sorted acc.bucketFiles.keys).map fun p => (p, (acc.bucketFiles.get? p).getD 0)
  bucketBytes := (sorted acc.bucketBytes.keys).map fun p => (p, (acc.bucketBytes.get? p).getD 0)

def scanPrivateSources (sources : List Path) (selectedPrefix : Option String) :
    Py σ (PrivateInventory × Dict String (List MUnit)) := do
  let acc ← scanSources os selectedPrefix sources Scan.empty
  pure (acc.inventory sources, acc.selected)

def scanPrivateInventory (sources : List Path) : Py σ PrivateInventory := do
  let (inventory, _) ← scanPrivateSources os sources none
  pure inventory

/-- The inner loop of `validate_private_bucket`: every physical copy of one name. -/
def validateCandidates (name : String) : List MUnit → Dict String MUnit → Py σ (Dict String MUnit)
  | [], validated => pure validated
  | unit :: rest, validated => do
    let metadata ← callOr .sourceChanged (os.lstat unit.source)
    rejectIf (metadata.type ≠ .regular) .sourceChanged
    let (actualHash, actualSize) ← hashRegularFile os sha1 unit.source metadata
    rejectIf (actualHash ≠ name) .contentHash
    rejectIf (actualSize ≠ unit.size) .sourceChanged
    validateCandidates name rest (if validated.has name then validated else validated.set name unit)

def validateNames (candidates : Dict String (List MUnit)) :
    List String → Dict String MUnit → Py σ (Dict String MUnit)
  | [], validated => pure validated
  | name :: rest, validated => do
    let validated' ← validateCandidates os sha1 name ((candidates.get? name).getD []) validated
    validateNames candidates rest validated'

def validatePrivateBucket (inventory : PrivateInventory) (selectedPrefix : String) :
    Py σ (Dict String MUnit) := do
  let (rescanned, candidates) ← scanPrivateSources os inventory.sources (some selectedPrefix)
  rejectIf (rescanned ≠ inventory) .sourceChanged
  validateNames os sha1 candidates (sorted candidates.keys) []

/-- What `materialize` has decided when it starts copying. -/
structure Selection where
  commonNames : List String
  assignedNames : List String
  bucketPrefix : Option String
  bucketVisit : Nat
  windowIndex : Option Nat
  windowCount : Nat
  selected : List MUnit
deriving Repr

/-- The units of the selected names, in order. -/
def unitsOf (units : Dict String MUnit) (names : List String) : List MUnit :=
  names.filterMap units.get?

/-- The window of one bucket's remaining units: `window_count`, `window_index`
and `assigned_names`. -/
def assign (allPrivateNames : List String) (privateCapacity bucketVisit : Nat) :
    Nat × Option Nat × List String :=
  let windowCount := (allPrivateNames.length + privateCapacity - 1) / privateCapacity
  if windowCount ≠ 0 then
    let windowIndex := bucketVisit % windowCount
    let start := windowIndex * privateCapacity
    (windowCount, some windowIndex, (allPrivateNames.drop start).take privateCapacity)
  else (windowCount, none, [])

/-- `materialize` from the parsed arguments to the list `selected`. -/
def materializeSelect (destination : Path) (shardIndex waveShardCount waveNumber : Nat)
    (commonSource : Path) (shardedSources : List Path) : Py σ Selection := do
  rejectIf (waveShardCount < 1 ∨ waveShardCount > maxShards ∨ shardIndex ≥ waveShardCount) .shardRange
  rejectIf (shardedSources.length > maxShardedSources) .sourceCountCap
  validateDestination os destination
  let common ← validateSource os sha1 commonSource
  rejectIf (¬ (1 ≤ common.length ∧ common.length < windowSize)) .commonCapacity
  let privateCapacity := windowSize - common.length
  let commonNames := sorted common.keys
  let inventory ← scanPrivateInventory os shardedSources
  let prefixes := inventory.prefixes
  let ordinal := waveNumber * waveShardCount + shardIndex
  let (bucketPrefix, bucketVisit, privateUnits) ←
    if prefixes = [] then pure ((none, 0, []) : Option String × Nat × Dict String MUnit)
    else do
      let selectedPrefix := prefixes.getD (ordinal % prefixes.length) ""
      let validated ← validatePrivateBucket os sha1 inventory selectedPrefix
      pure (some selectedPrefix, ordinal / prefixes.length,
        validated.filter fun (p : String × MUnit) => ¬ common.has p.1)
  let allPrivateNames := sorted privateUnits.keys
  let (windowCount, windowIndex, assignedNames) := assign allPrivateNames privateCapacity bucketVisit
  pure {
    commonNames, assignedNames, bucketPrefix, bucketVisit, windowIndex, windowCount
    selected := unitsOf common commonNames ++ unitsOf privateUnits assignedNames }

end

end MpcHunt.MaterializeWindow
