/-
`dual_session.cpp`: two signing ceremonies over one key and one set of
players, which take turns as a schedule of bytes says. The ceremonies are the
two sides of `MpcHunt.Lib.Turns`.
-/
import MpcHunt.Harness.Library
import MpcHunt.Lib.Turns

namespace MpcHunt.Harness.Dual

open Turns

/-- `schedule[cursor] & 1`. -/
def turnOf (byte : UInt8) : Side := if byte &&& 1 = 0 then .a else .b

inductive CeremonyState where
  | pending | running | completed | rejected | faulted
deriving DecidableEq, Repr

def ceremonyMessage (which : Side) : Bytes :=
  let base : Nat := match which with
    | .a => 0xA0
    | .b => 0x50
  (List.range 32).map fun i => UInt8.ofNat (base + i)

def guarded : Thrown → CallOutcome
  | .cosignerException what => ⟨false, str "cosigner_exception", what⟩
  | .outOfRange what => ⟨true, str "std::out_of_range", what⟩
  | .badAlloc what => ⟨true, str "std::exception", what⟩
  | .stdException what => ⟨true, str "std::exception", what⟩
  | .nonStandard => ⟨true, str "unknown", str "non-standard exception"⟩

/-! ## One ceremony -/

structure Ceremony where
  keyId : Bytes
  signers : List UInt64
  path : List UInt32
  txid : Bytes
  playersStr : Std.ExtTreeSet Bytes
  playersIds : IdSet
  data : SigningData
  chaincode : HDChaincode
  expectedMessage : Bytes
  round : Nat
  state : CeremonyState
  exceptionType : Bytes
  detail : Bytes
  requests : IdMap (List CmpMtaRequest)
  responses : IdMap CmpMtaResponses
  deltas : IdMap (List CmpMtaDeltas)
  sis : IdMap (List Scalar)
  sigs : List RecoverableSignature

def txidOf : Side → Bytes
  | .a => str "opus-dual-tx-a"
  | .b => str "opus-dual-tx-b"

/-- The constructor. -/
def Ceremony.make (index : Side) (keyId : Bytes) (signers : List UInt64) (path : List UInt32) :
    Ceremony where
  keyId
  signers
  path
  txid := txidOf index
  playersStr := signers.foldl (fun s id => s.insert (toStr id.toNat)) ∅
  playersIds := signers.foldl (fun s id => s.insert id) ∅
  data := ⟨Vector.replicate 32 0, [⟨ceremonyMessage index, path⟩]⟩
  chaincode := Vector.replicate 32 0
  expectedMessage := ceremonyMessage index
  round := 0
  state := .pending
  exceptionType := []
  detail := []
  requests := ∅
  responses := ∅
  deltas := ∅
  sis := ∅
  sigs := []

def Ceremony.finished (c : Ceremony) : Bool :=
  c.state ≠ .pending && c.state ≠ .running

structure CeremonyReport where
  state : CeremonyState
  roundsCompleted : Nat
  signatureProduced : Bool
  exceptionType : Bytes
  detail : Bytes
deriving DecidableEq

def Ceremony.report (c : Ceremony) : CeremonyReport :=
  ⟨c.state, c.round, ¬ c.sigs.isEmpty, c.exceptionType, c.detail⟩

def Ceremony.reject (c : Ceremony) (o : CallOutcome) (round : Nat) : Ceremony :=
  { c with
    state := if o.fatal then .faulted else .rejected
    exceptionType := o.type
    detail := str "round " ++ toStr round ++ str " threw" }

/-- The end of a round: rejected by a call that threw, or completed. -/
def Ceremony.endRound (c : Ceremony) (round : Nat) : Option CallOutcome → Bool × Ceremony
  | some o => (false, c.reject o round)
  | none => (true, { c with round })

section
variable {η β : Type} (H : Hashes) (lib : Library η)

/-- The loop of a round over the signers: the outputs so far, and the outcome of the
call that threw. -/
def eachSigner (call : UInt64 → Call η β) : List UInt64 → IdMap β →
    Run η (Option CallOutcome × IdMap β)
  | [], outs => pure (none, outs)
  | id :: ids, outs => do
    match ← invoke H (call id) with
    | .error e => pure (some (guarded e), outs)
    | .ok out => eachSigner call ids (outs.insert id out)

def Ceremony.round1 (c : Ceremony) : Run η (Bool × Ceremony) := do
  let (o, requests) ← eachSigner H
    (fun id => lib.startSigning id c.keyId c.txid 0 c.data [] c.playersStr c.playersIds)
    c.signers c.requests
  pure ({ c with requests }.endRound 1 o)

def Ceremony.round2 (c : Ceremony) : Run η (Bool × Ceremony) := do
  let (o, responses) ← eachSigner H (fun id => lib.mtaResponse id c.txid c.requests)
    c.signers c.responses
  pure ({ c with responses }.endRound 2 o)

def Ceremony.round3 (c : Ceremony) : Run η (Bool × Ceremony) := do
  let (o, deltas) ← eachSigner H (fun id => lib.mtaVerify id c.txid c.responses)
    c.signers c.deltas
  pure ({ c with deltas }.endRound 3 o)

def Ceremony.round4 (c : Ceremony) : Run η (Bool × Ceremony) := do
  let (o, sis) ← eachSigner H (fun id => lib.getSi id c.txid c.deltas) c.signers c.sis
  pure ({ c with sis }.endRound 4 o)

def Ceremony.round5 (c : Ceremony) : Run η (Bool × Ceremony) := do
  match ← invoke H (lib.getCmpSignature (c.signers.headD 0) c.txid c.sis) with
  | .error e => pure (false, c.reject (guarded e) 5)
  | .ok sigs => pure (true, { c with sigs, round := 5, state := .completed })

/-- Advances one round; whether it did. -/
def Ceremony.step (c : Ceremony) : Run η (Bool × Ceremony) :=
  if c.finished then pure (false, c)
  else
    let c := { c with state := .running }
    match c.round with
    | 0 => c.round1 H lib
    | 1 => c.round2 H lib
    | 2 => c.round3 H lib
    | 3 => c.round4 H lib
    | 4 => c.round5 H lib
    | _ => pure (false, c)

end

/-! ## Oracles -/

def recordFingerprint (H : Hashes) (players : IdMap SigningStore) (txid : Bytes) : Bytes :=
  players.toList.foldl (fun acc entry =>
    let acc := acc ++ toStr entry.1.toNat
    let acc := acc ++ (match SigningStore.digestForTxid H entry.2 txid with
      | some digest => str ":1:" ++ digest
      | none => str ":0")
    acc ++ str ",") []

structure DualOracleObservation where
  bothCompleted : Bool
  signaturesObserved : Bool
  signatureAValid : Bool
  signatureBValid : Bool
  crossAb : Bool
  crossBa : Bool
  messagesDistinct : Bool
  nonceEqual : Bool
  otherRecordsUnchanged : Bool
  rollbackAClean : Bool
  rollbackBClean : Bool
  keyStoresUnchanged : Bool
  harnessFault : Bool
deriving DecidableEq

structure DualOracleVerdict where
  signaturesValid : Bool
  crossSessionVerification : Bool
  nonceReuse : Bool
  stateIsolation : Bool
  rollbackClean : Bool
  keyStoreUnchanged : Bool
  harnessFault : Bool
deriving DecidableEq

def evaluateDualOracles (o : DualOracleObservation) : DualOracleVerdict where
  signaturesValid := o.signaturesObserved && o.signatureAValid && o.signatureBValid
  crossSessionVerification := o.signaturesObserved && (o.crossAb || o.crossBa)
  nonceReuse := o.signaturesObserved && o.messagesDistinct && o.nonceEqual
  stateIsolation := o.otherRecordsUnchanged
  rollbackClean := o.rollbackAClean && o.rollbackBClean
  keyStoreUnchanged := o.keyStoresUnchanged
  harnessFault := o.harnessFault || (o.bothCompleted && !o.signaturesObserved)

structure DualResult where
  bothCompleted : Bool
  maxRoundReached : Nat
  advancedPastInjection : Nat
  interleavePoints : Nat
  verdict : DualOracleVerdict
  a : CeremonyReport
  b : CeremonyReport
  schedule : List Side
  elapsedMs : Nat
  detail : Bytes
deriving DecidableEq

/-- A default-constructed verdict. -/
def DualOracleVerdict.initial : DualOracleVerdict := ⟨false, false, false, true, true, true, false⟩

/-- A default-constructed `ceremony_report`. -/
def CeremonyReport.initial : CeremonyReport := ⟨.pending, 0, false, [], []⟩

/-- What `run` returns when a guard refuses. -/
def DualResult.fault (detail : Bytes) : DualResult :=
  ⟨false, 0, 0, 0, { DualOracleVerdict.initial with harnessFault := true }, .initial, .initial,
    [], 0, detail⟩

def DualResult.anyFinding (r : DualResult) : Bool :=
  r.verdict.crossSessionVerification || r.verdict.nonceReuse || !r.verdict.stateIsolation ||
    !r.verdict.rollbackClean || !r.verdict.keyStoreUnchanged ||
    (r.bothCompleted && !r.verdict.signaturesValid)

/-! ## The loop -/

/-- The variables of the loop of `run`; `rest` is the schedule from the cursor on. -/
structure DualLoop where
  a : Ceremony
  b : Ceremony
  lastTurn : Option Side
  crossed : Bool
  rest : List UInt8
  interleavePoints : Nat
  advancedPastInjection : Nat
  maxRoundReached : Nat
  schedule : List Side
  otherRecordsUnchanged : Bool
  detail : Bytes

/-- `cer[turn]`. -/
def DualLoop.cer (l : DualLoop) : Side → Ceremony
  | .a => l.a
  | .b => l.b

def DualLoop.setCer (l : DualLoop) (turn : Side) (c : Ceremony) : DualLoop :=
  match turn with
  | .a => { l with a := c }
  | .b => { l with b := c }

/-- The turn the loop grants, and the schedule left. -/
def DualLoop.nextTurn (l : DualLoop) : Side × List UInt8 :=
  match l.rest with
  | byte :: rest =>
    let turn := turnOf byte
    (if (l.cer turn).finished then turn.other else turn, rest)
  | [] => (if l.a.finished then .b else .a, [])

/-- The crossing counters, before the step. -/
def DualLoop.cross (l : DualLoop) (turn : Side) (rest : List UInt8) : DualLoop :=
  if l.lastTurn ≠ none ∧ l.lastTurn ≠ some turn then
    { l with
      interleavePoints := l.interleavePoints + 1, crossed := true, lastTurn := some turn, rest }
  else { l with lastTurn := some turn, rest }

section
variable {η : Type} (H : Hashes) (lib : Library η)

/-- Granting a turn: the step of its ceremony, and what is counted of it. -/
def DualLoop.grant (l : DualLoop) (turn : Side) (rest : List UInt8) : Run η DualLoop := do
  let l := l.cross turn rest
  let otherTxid := (l.cer turn.other).txid
  let before := recordFingerprint H (← get).world.players otherTxid
  let (advanced, c) ← (l.cer turn).step H lib
  let l := l.setCer turn c
  let after := recordFingerprint H (← get).world.players otherTxid
  pure { l with
    schedule := l.schedule ++ [turn]
    otherRecordsUnchanged := if after ≠ before then false else l.otherRecordsUnchanged
    detail :=
      if after ≠ before then str "a step of one ceremony changed the other record" else l.detail
    advancedPastInjection :=
      if advanced && l.crossed then l.advancedPastInjection + 1 else l.advancedPastInjection
    maxRoundReached := max l.maxRoundReached (max l.a.round l.b.round) }

/-- The loop, with the steps it may still take. -/
def dualLoop : Nat → DualLoop → Run η DualLoop
  | 0, l => pure l
  | n + 1, l =>
    if l.a.finished ∧ l.b.finished then pure l
    else if (l.cer l.nextTurn.1).finished then pure l
    else do
      let l' ← l.grant H lib l.nextTurn.1 l.nextTurn.2
      dualLoop n l'

/-- `max_steps`. -/
def maxSteps : Nat := 32

/-- `path` of `run`. -/
def dualPath : List UInt32 := [44, 0, 0, 0, 0]

/-- The loop's variables when it starts. -/
def DualLoop.initial (keyId : Bytes) (signers : List UInt64) (schedule : List UInt8) : DualLoop where
  a := .make .a keyId signers dualPath
  b := .make .b keyId signers dualPath
  lastTurn := none
  crossed := false
  rest := schedule
  interleavePoints := 0
  advancedPastInjection := 0
  maxRoundReached := 0
  schedule := []
  otherRecordsUnchanged := true
  detail := []

/-- What `run` observes of two signatures. -/
def observeSignatures (A : Algebra) (snap : Snapshot) (a b : Ceremony)
    (o : DualOracleObservation) : DualOracleObservation :=
  match a.sigs, b.sigs with
  | sa :: _, sb :: _ =>
    if o.bothCompleted then
      { o with
        signaturesObserved := true
        signatureAValid :=
          oracleSignatureValid A snap a.expectedMessage a.path a.chaincode sa false = none
        signatureBValid :=
          oracleSignatureValid A snap b.expectedMessage b.path b.chaincode sb false = none
        crossAb := oracleSignatureValid A snap b.expectedMessage b.path b.chaincode sa false = none
        crossBa := oracleSignatureValid A snap a.expectedMessage a.path a.chaincode sb false = none
        messagesDistinct := a.expectedMessage ≠ b.expectedMessage
        nonceEqual := sa.r = sb.r }
    else o
  | _, _ => o

/-- Whether a completed ceremony left no record at the observer. -/
def rollbackClean (players : IdMap SigningStore) (observer : UInt64) (c : Ceremony) : Bool :=
  ¬ (c.state = .completed ∧ SigningStore.has (players.getD observer ∅) c.txid)

/-- From the end of the loop to the result. -/
def DualLoop.result (A : Algebra) (snap : Snapshot) (observer : UInt64) (keyDigestBefore : Bytes)
    (t0 : Nat) (l : DualLoop) : Run η DualResult := do
  let bothCompleted : Bool := l.a.state = .completed ∧ l.b.state = .completed
  let world := (← get).world
  let observations : DualOracleObservation := {
    bothCompleted
    signaturesObserved := false
    signatureAValid := false
    signatureBValid := false
    crossAb := false
    crossBa := false
    messagesDistinct := false
    nonceEqual := false
    otherRecordsUnchanged := l.otherRecordsUnchanged
    rollbackAClean := rollbackClean world.players observer l.a
    rollbackBClean := rollbackClean world.players observer l.b
    keyStoresUnchanged := keyDigestBefore = aggregateKeyStoreDigest H world.keyStores
    harnessFault := l.a.state = .faulted ∨ l.b.state = .faulted }
  pure {
    bothCompleted
    maxRoundReached := l.maxRoundReached
    advancedPastInjection := l.advancedPastInjection
    interleavePoints := l.interleavePoints
    verdict := evaluateDualOracles (observeSignatures A snap l.a l.b observations)
    a := l.a.report
    b := l.b.report
    schedule := l.schedule
    elapsedMs := lib.now world.lib - t0
    detail := l.detail }

/-- The signers of a run: the first `t` players. -/
def dualSigners (s : Session) : List UInt64 :=
  if s.snap.t.toNat < s.ids.length then s.ids.take s.snap.t.toNat else s.ids

/-- Why `run` refuses to start, if it does. -/
def dualGuard (s : Session) : Option Bytes :=
  if ¬ s.ok then some (str "snapshot not installed")
  else if dualSigners s = [] ∨ (dualSigners s).length ≠ s.snap.t.toNat then
    some (str "signer set does not match the snapshot threshold")
  else none

/-- `run` up to its loop: the players of a run are new, the generator is seeded. -/
def dualStart (s : Session) (seed : UInt64) : Run η Unit := do
  modify fun p => { p with rand := reseedWithLabel H.sha512 seed (str "dual") p.rand }
  modify fun p => { p with world.players := ∅ }
  makePlayers H lib s.ids

def dualRun (A : Algebra) (s : Session) (seed : UInt64) (schedule : List UInt8) :
    Run η DualResult := do
  let t0 := lib.now (← get).world.lib
  match dualGuard s with
  | some detail => pure (.fault detail)
  | none =>
    dualStart H lib s seed
    let keyDigestBefore := aggregateKeyStoreDigest H (← get).world.keyStores
    let l ← dualLoop H lib maxSteps (.initial s.keyId (dualSigners s) schedule)
    l.result H lib A s.snap ((dualSigners s).headD 0) keyDigestBefore t0

end

end MpcHunt.Harness.Dual
