/-
`publish_ingest.sh` and `aggregate_ingest.sh` over the remote of the brain. A
publisher stages the units of its shard, its incident and its counters on the
pool it fetched and pushes them as a branch of their own; an aggregator stages
what the branches of its run hold beyond the pool it fetched and pushes it as
the next version of the pool. A script that is killed, or whose last command
fails, leaves off where it is.
-/
import MpcHunt.Brain.BrainPaths
import MpcHunt.Brain.Tree
import MpcHunt.Lib.Processes
import MpcHunt.Lib.ShellNumber
import MpcHunt.Telemetry.Evidence
import MpcHunt.Window.ShardUnits

namespace MpcHunt.Brain

open Checks Digits MaterializeWindow ShellNumber

/-! ## The remote -/

/-- A commit of the pool. -/
structure Version where
  tree : Tree
  message : Str

/-- The versions of `corpus-pool`, oldest first, the branches under `ingest/`, and how the scripts
of the processes have ended: with 0, or with another status. -/
structure Remote (P : Type) where
  versions : List Version
  branches : Dict Str Tree
  exits : P → Option (Except Nat Unit)

inductive Command where
  | fetchPool
  | lsRemote
  | fetchBranch (branch : Str)
  | lsTree (tree : Tree)
  /-- `find`, in the directory of the validated units. -/
  | find (units : Dict String Bytes)
  /-- `git diff --cached --name-status`, where these paths were added. -/
  | diffCached (added : List Str)
  | pushPool (base : Nat) (tree : Tree) (message : Str)
  | pushBranch (branch : Str) (tree : Tree)
  | exit (status : Except Nat Unit)

abbrev Answer : Command → Type
  | .fetchPool => Option (Nat × Tree)
  | .lsRemote => List Str
  | .fetchBranch _ => Option Tree
  | .lsTree _ => Dict Str Entry
  | .find _ => Dict String Bytes
  | .diffCached _ => List Str
  | .pushPool _ _ _ | .pushBranch _ _ => Bool
  | .exit _ => Unit

/-- A listing, in some order. It comes through a process substitution, so a script reads on where
it was cut short. -/
def Lists (cut : Bool) {α : Type} (full shown : List α) : Prop :=
  ∃ all : List α, all.Perm full ∧ if cut then shown <+: all else shown = all

/-- What a command does. The pool moves on only from the version that was fetched, and a branch is
pushed only where there is none; what is there already is not pushed again. The answer to a push
may be lost. -/
def exec (cut : Bool) {P : Type} [DecidableEq P] (p : P) (w : Remote P) :
    (c : Command) → Answer c → Remote P → Prop
  | .fetchPool, r, w' => w' = w ∧
      (r = none ∨ ∃ v, w.versions.getLast? = some v ∧ r = some (w.versions.length, v.tree))
  | .lsRemote, r, w' => w' = w ∧ Lists cut w.branches.keys r
  | .fetchBranch branch, r, w' => w' = w ∧ (r = none ∨ r = w.branches.get? branch)
  | .lsTree tree, r, w' => w' = w ∧ Lists cut tree.files r
  | .find units, r, w' => w' = w ∧ Lists cut units r
  | .diffCached added, r, w' => w' = w ∧ Lists cut added r
  | .pushPool base tree message, r, w' =>
      w.versions.length = base ∧ w' = { w with versions := w.versions ++ [⟨tree, message⟩] } ∨
      w' = w ∧ (r = true →
        w.versions.length = base + 1 ∧ w.versions.getLast? = some ⟨tree, message⟩)
  | .pushBranch branch tree, r, w' =>
      w.branches.get? branch = none ∧ w' = { w with branches := w.branches ++ [(branch, tree)] } ∨
      w' = w ∧ (r = true → w.branches.get? branch = some tree)
  | .exit status, _, w' => w' = { w with exits := Function.update w.exits p (some status) }

/-! ## Scripts -/

/-- A script under `set -e`: what it computes, or the status it exits with. -/
abbrev Script := ExceptT Nat (Prog Command Answer)

def command (c : Command) : Script (Answer c) := ExceptT.lift (Prog.perform c)

def orExit {α : Type} (x : Except Nat α) : Script α := ExceptT.mk (pure x)

def fetchPool : Script (Nat × Tree) := do
  orExit (need (← command .fetchPool) 128)

def fetchBranch (branch : Str) : Script Tree := do
  orExit (need (← command (.fetchBranch branch)) 128)

def pushPool (base : Nat) (tree : Tree) (message : Str) : Script Unit := do
  orExit (refuse ((← command (.pushPool base tree message)) = false) 1)

def pushBranch (branch : Str) (tree : Tree) : Script Unit := do
  orExit (refuse ((← command (.pushBranch branch tree)) = false) 1)

/-- What the scripts call: `git check-ref-format`, SHA-1, the equality of a float and an integer in
Python, and `gpg --list-only --decrypt`. -/
structure Tools where
  checkRefFormat : Str → Bool
  sha1 : Bytes → String
  floatIs : Str → Int → Bool
  gpg : Bytes → Bool

section
variable (tools : Tools)

/-- `telemetry_evidence.py --check`, of canonical numbers. -/
def checkEvidence (document : Bytes) (t : Tuple) : Bool :=
  (Telemetry.check tools.floatIs document (value t.runId) (value t.attempt) (value t.shard) t.harness).isOk

/-! ## The publisher -/

/-- What a publisher is given: a bundle and counters are `none` where they are no regular file. -/
structure Publication where
  runId : Str
  attempt : Str
  shard : Str
  lane : Str
  corpus : Corpus
  bundleName : Str
  bundle : Option Bytes
  telemetry : Option (Option Bytes)

/-- `lane_to_harness`, of what was given. -/
def harnessOf (lane : Str) : Except Nat Str :=
  if lane = text "cmp_general" then .ok (text (laneToHarness .cmpGeneral))
  else if lane = text "cmp_r4_tn" then .ok (text (laneToHarness .cmpR4Tn))
  else if lane = text "cmp_dual" then .ok (text (laneToHarness .cmpDual))
  else .error 64

/-- `^incident-[0-9]+-[0-9]+-[0-9]+\.gpg$`. -/
def bundlePattern : List (Piece Nat) :=
  [.lit (text "incident-"), .group isDigit, .lit (text "-"), .group isDigit, .lit (text "-"),
    .group isDigit, .lit (text ".gpg")]

/-- `[[ -d corpus && ! -L corpus ]]`. -/
def isDirectory : Corpus → Bool
  | .dir _ => true
  | .missing | .invalid => false

/-- The checks of the arguments, with the harness and the bundle. -/
def Publication.check (p : Publication) : Except Nat (Str × Bytes) := do
  let harness ← harnessOf p.lane
  refuse (¬ isNumber p.runId) 64
  refuse (¬ isNumber p.attempt) 64
  refuse (¬ isNumber p.shard) 64
  refuse (¬ (literal p.shard).any fun n => 0 ≤ n && n < 25) 64
  refuse (¬ isDirectory p.corpus) 65
  let bundle ← need p.bundle 65
  refuse ((Template.capture bundlePattern p.bundleName).isNone) 65
  return (harness, bundle)

/-- The units `materialize_corpus.py` copies. -/
def Publication.units (p : Publication) : Except Nat (Dict String Bytes) :=
  match materializeCorpus tools.sha1 [p.corpus] with
  | .error _ => .error 1
  | .ok units => .ok units

/-- `sort -z`. -/
def sortUnits (found : Dict String Bytes) : Dict String Bytes :=
  found.insertionSort fun a b => a.1 ≤ b.1

def Publication.tuple (p : Publication) (harness : Str) : Tuple :=
  ⟨p.runId, p.attempt, harness, p.shard⟩

/-- `corpus_dir_for`. -/
def corpusDirFor (harness : Str) : Except Nat Str := do
  refuse (¬ brainIsHarness harness) 64
  return text "corpus/" ++ harness

/-- A unit that the pool has too must be the same. -/
def stageUnit (harness dir : Str) (staged : Tree) (unit : String × Bytes) : Except Nat Tree :=
  let target := dir ++ text "/" ++ text unit.1
  if staged.occupied target then do
    refuse (¬ staged.holds target unit.2) 1
    return staged
  else do
    let path ← need (corpusUnitFor harness (text unit.1)).toOption 65
    staged.write path unit.2

/-- The tree of the branch, over the pool that was fetched. -/
def Publication.stage (p : Publication) (harness : Str) (bundle : Bytes)
    (units : Dict String Bytes) (base : Tree) : Except Nat Tree := do
  let dir ← corpusDirFor harness
  base.makeDirectory dir
  let staged ← units.foldlM (stageUnit harness dir) base
  let incident ← incidentFor (p.tuple harness)
  let staged ← staged.write incident bundle
  match p.telemetry with
  | none => return staged
  | some telemetry => do
    let document ← need telemetry 65
    refuse (¬ checkEvidence tools document (p.tuple harness)) 65
    let path ← telemetryFor (p.tuple harness)
    staged.write path document

/-- What the publisher asks of a path it has added. -/
def checkAdded (harness path : Str) : Except Nat Unit :=
  if (text "corpus/").isPrefixOf path then
    refuse ((corpusUnitFor harness (Tree.basename path)).toOption ≠ some path) 1
  else if (text "telemetry/").isPrefixOf path then do
    let _ ← parseTelemetry path
  else do
    let _ ← parseIncident path

/-- `publish_ingest.sh`. What `find` and `git diff` list is read through process substitutions. -/
def publish (p : Publication) : Script Unit := do
  let (harness, bundle) ← orExit p.check
  let units ← orExit (p.units tools)
  orExit (refuse (¬ tools.gpg bundle) 2)
  let (_, base) ← fetchPool
  let found ← command (.find units)
  let staged ← orExit (p.stage tools harness bundle (sortUnits found) base)
  let added ← command (.diffCached
    (staged.files.keys.filter fun path => (base.get? path).isNone))
  orExit (added.forM (checkAdded harness))
  let branch ← orExit (branchFor tools.checkRefFormat (p.tuple harness))
  pushBranch branch staged

/-! ## The aggregator -/

/-- `parse_branch || parse_branch_legacy || exit 65`. -/
def parseAny (branch : Str) : Except Nat Tuple :=
  match parseBranch tools.checkRefFormat branch with
  | .ok t => .ok t
  | .error _ => need (parseBranchLegacy tools.checkRefFormat branch).toOption 65

/-- A line of the tree of a branch: skipped where the pool has the path, staged where it is one that
its publisher could have written. -/
def takeLine (t : Tuple) (baseOid : Dict Str Entry) (staged : Tree) (line : Str × Entry) :
    Except Nat Tree :=
  match line.2 with
  | .file content =>
    match baseOid.get? line.1 with
    | some e => do
      refuse (e.oid ≠ .blob content) 65
      return staged
    | none =>
      if (text "corpus/").isPrefixOf line.1 then do
        let name := Tree.basename line.1
        refuse ((corpusUnitFor t.harness name).toOption ≠ some line.1) 65
        refuse (text (tools.sha1 content) ≠ name) 1
        if staged.occupied line.1 then do
          refuse (¬ staged.holds line.1 content) 1
          return staged
        else staged.write line.1 content
      else if (telemetryFor t).toOption = some line.1 then do
        let staged ← staged.write line.1 content
        refuse (content = []) 1
        refuse (¬ checkEvidence tools content t) 65
        return staged
      else if (incidentFor t).toOption = some line.1 then do
        let staged ← staged.write line.1 content
        refuse (content = []) 1
        return staged
      else .error 65
  | .executable _ | .symlink _ | .submodule _ => .error 65

/-- The branches that the remote lists, one after the other. -/
def takeBranches (runId attempt : Str) (base : Tree) : List Str → Tree → Script Tree
  | [], staged => pure staged
  | branch :: rest, staged => do
    let t ← orExit (parseAny tools branch)
    if t.runId = runId ∧ t.attempt = attempt then do
      let tree ← fetchBranch branch
      let baseOid ← command (.lsTree base)
      let lines ← command (.lsTree tree)
      let staged ← orExit (lines.foldlM (takeLine tools t baseOid) staged)
      takeBranches runId attempt base rest staged
    else takeBranches runId attempt base rest staged

def checkArguments (runId attempt count : Str) : Except Nat Unit := do
  refuse (¬ isNumber runId) 64
  refuse (¬ isNumber attempt) 64
  refuse (¬ isNumber count) 64
  refuse (¬ (literal count).any fun n => n = 1 || n = 5 || n = 15 || n = 25) 64

def aggregateMessage (runId attempt : Str) : Str :=
  text "aggregate run " ++ runId ++ text " attempt " ++ attempt

/-- `aggregate_ingest.sh`. Nothing reads `COUNT` after its check. -/
def aggregate (runId attempt count : Str) : Script Unit := do
  orExit (checkArguments runId attempt count)
  let (version, base) ← fetchPool
  let refs ← command .lsRemote
  let staged ← takeBranches tools runId attempt base refs base
  orExit (refuse (capacityGate staged.checkout [] ≠ 0) 2)
  -- The negated `git diff --cached --quiet` never fails: a commit of nothing does.
  orExit (refuse (staged.files = base.files) 1)
  pushPool version staged (aggregateMessage runId attempt)

/-! ## The system -/

inductive Job where
  | publish (p : Publication)
  | aggregate (runId attempt count : Str)

def Job.script : Job → Script Unit
  | .publish p => Brain.publish tools p
  | .aggregate runId attempt count => Brain.aggregate tools runId attempt count

def Job.program (job : Job) : Prog Command Answer Unit := do
  let status ← (job.script tools).run
  Prog.perform (Command.exit status)

/-- Each process with a job at its start. -/
def start {P : Type} (jobs : P → Option Job) (w : Remote P) :
    Processes.System Command Answer (Remote P) P :=
  ⟨w, fun p => (jobs p).map (Job.program tools)⟩

end

end MpcHunt.Brain
