/-
`fuzzer_dual_session.cpp`, lane cmp_dual: the input is the schedule of two
ceremonies; the cell and the verdict a case is counted under.
-/
import MpcHunt.Harness.DualSession
import MpcHunt.Harness.FuzzEntry

namespace MpcHunt.Harness.Dual

/-- The class of a schedule. -/
def scheduleCell (crossings steps : Nat) : String :=
  if crossings = 0 then "dual.schedule|sequential"
  else if steps > 0 ∧ crossings * 2 ≥ steps then "dual.schedule|alternating"
  else "dual.schedule|blocked"

/-- Whether the entry point counts a result as applied. -/
def DualResult.applied (r : DualResult) : Bool := r.advancedPastInjection > 0

/-- The cell the entry point selects for a result. -/
def DualResult.cell (r : DualResult) : String :=
  scheduleCell r.interleavePoints r.schedule.length

/-- The verdict of an applied result. -/
def DualResult.label (r : DualResult) : String :=
  if r.verdict.crossSessionVerification then "INVALID-SIGNATURE"
  else if r.verdict.nonceReuse then "STATE-CORRUPTION"
  else if ¬ r.verdict.stateIsolation then "STATE-CORRUPTION"
  else if ¬ r.verdict.rollbackClean then "STATE-CORRUPTION"
  else if ¬ r.verdict.keyStoreUnchanged then "STATE-CORRUPTION"
  else if r.bothCompleted ∧ ¬ r.verdict.signaturesValid then "INVALID-SIGNATURE"
  else if r.bothCompleted then "CLEAN-SIGN"
  else "CLEAN-REJECT"

section
variable {η τ : Type} (P : Platform η τ)

/-- The schedule of the control run. -/
def alternating : List UInt8 := [0, 1, 0, 1, 0, 1, 0, 1, 0, 1, 0, 1]

def llvmFuzzerInitialize (env : Environment) : Entry η τ Unit := do
  let snap ← loadSnapshot P env
  let ok ← makeSession P env snap
  if ¬ ok then failClosed "session_invalid"
  let f ← get
  match f.session with
  | none => failClosed "session_invalid"
  | some s =>
    let control ← onProc (dualRun P.H P.lib P.A s f.shardSeed alternating)
    if ¬ control.bothCompleted ∨ ¬ control.verdict.signaturesValid ∨ control.verdict.harnessFault ∨
        control.anyFinding then
      failClosed "dual_control_failed"
    configureTelemetry P env "v3-dual-session"

/-- Whether the door lets an input in. -/
def door (data : Bytes) : Bool := 1 ≤ data.length && data.length ≤ 4096

/-- The findings that end the process, in the order they are looked at. -/
def signalFindings (r : DualResult) : Entry η τ Unit :=
  if r.verdict.crossSessionVerification then signalFinding "cross_session_verification"
  else if r.verdict.nonceReuse then signalFinding "nonce_reuse"
  else if ¬ r.verdict.stateIsolation then signalFinding "state_isolation"
  else if ¬ r.verdict.rollbackClean then signalFinding "rollback_clean"
  else if ¬ r.verdict.keyStoreUnchanged then signalFinding "key_store_changed"
  else if r.bothCompleted ∧ ¬ r.verdict.signaturesValid then signalFinding "signature_invalid"
  else pure ()

def llvmFuzzerTestOneInput (data : Bytes) : Entry η τ Unit := do
  if ¬ door data then doorReject P
  else
    let f ← get
    match f.session with
    | none => failClosed "runtime_not_initialized"
    | some s =>
      let seed := f.shardSeed ^^^ fnv1a64 data
      let r ← onProc (dualRun P.H P.lib P.A s seed data)
      if r.verdict.harnessFault then failClosed "harness_fault"
      recordCase P (str r.cell) r.applied (if r.applied then some (str r.label) else none)
      if r.applied then signalFindings r

end

end MpcHunt.Harness.Dual
