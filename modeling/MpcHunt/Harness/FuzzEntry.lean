/-
The libFuzzer entry points over `session` (`fuzzer.cpp`, lane cmp_general, and
`fuzzer_reachability_v2.cpp`, lane cmp_r4_tn): what `LLVMFuzzerInitialize`
does with its environment, and `LLVMFuzzerTestOneInput` with an input.
-/
import MpcHunt.Harness.Driver
import MpcHunt.Harness.Snapshot

namespace MpcHunt.Harness

/-- How a process ends in an entry point. -/
inductive Stop where
  | failClosed (reason : String)
  | highSignal (oracle : String)
deriving DecidableEq, Repr

/-- The telemetry recorder, as the entry points call it. -/
structure Recorder (τ : Type) where
  configure : (buildId compiler sanitizers : Bytes) → (parallelism : Int) → τ → Bool × τ
  recordDoorReject : τ → Bool × τ
  recordCase : (cell : Bytes) → (applied : Bool) → (verdict : Option Bytes) → τ → Bool × τ

/-- What is around a harness process: the library and what it is built on. -/
structure Platform (η τ : Type) where
  H : Hashes
  A : Algebra
  lib : Library η
  K : KeyCodec
  C : SnapshotCurve
  recorder : Recorder τ

/-- What `LLVMFuzzerInitialize` reads of its environment. A path and the bytes of the file
it names; numbers as `strtoull` and `atoi` give them. -/
structure Environment where
  snapshotPath : Option (Option Bytes)
  shardSeed : Option UInt64
  forkFlag : Int
  telemetryDir : Bool
  controlDir : Bool
  forkCount : Option Int

/-- The static variables of an entry point, and the process. -/
structure Fuzz (η τ : Type) where
  proc : Proc η
  telemetry : τ
  session : Option Session
  shardSeed : UInt64

/-- A computation of an entry point. -/
abbrev Entry (η τ : Type) := ExceptT Stop (StateM (Fuzz η τ))

section
variable {η τ α : Type}

def failClosed (reason : String) : Entry η τ α := throw (.failClosed reason)

def signalFinding (oracle : String) : Entry η τ α := throw (.highSignal oracle)

def onProc (x : Run η α) : Entry η τ α := fun f =>
  let r := x f.proc
  (.ok r.1, { f with proc := r.2 })

/-- A step on the generator of the process. -/
def onRand (f : RandState → α × RandState) : Run η α := fun p =>
  let r := f p.rand
  (r.1, { p with rand := r.2 })

def onTelemetry (x : τ → α × τ) : Entry η τ α := fun f =>
  let r := x f.telemetry
  (.ok r.1, { f with telemetry := r.2 })

end

def fnv1a64 (data : Bytes) : UInt64 :=
  data.foldl (fun h b => (h ^^^ b.toUInt64) * 1099511628211) 1469598103934665603

def verdictString : Driver.Verdict → Bytes
  | .cleanSign => str "CLEAN-SIGN"
  | .cleanReject => str "CLEAN-REJECT"
  | .invalidSignature => str "INVALID-SIGNATURE"
  | .stateCorruption => str "STATE-CORRUPTION"
  | .crash => str "CRASH"
  | .timeout => str "TIMEOUT"
  | .harnessFault => str "HARNESS-FAULT"

/-! ## Start-up -/

/-- `flatten`: the wire bytes of a request. -/
def flatten (r : CmpMtaRequest) : Bytes :=
  let putLen (out : Bytes) (v : UInt64) := out ++ Words.be64 v
  let out := putLen [] (sizeT r.mta.message) ++ r.mta.message
  let out := putLen out (sizeT r.mta.commitment) ++ r.mta.commitment
  let out := putLen out (sizeT r.mta.proof) ++ r.mta.proof
  let out := putLen out (.ofNat r.mtaProofs.size)
  let out := r.mtaProofs.toList.foldl
    (fun out p => putLen (putLen out p.1) (sizeT p.2) ++ p.2) out
  out ++ r.A.toList ++ r.B.toList ++ r.Z.toList

section
variable {η τ : Type} (P : Platform η τ)

/-- `one_shot` of `rng_is_effective`: the wire bytes of one `start_signing` under a seed,
made by a player of its own over stores of its own. -/
def oneShot (snap : Snapshot) (ids : List UInt64) (stores : IdMap KeyStore) (seed : UInt64) :
    Run η (Option Bytes) := fun p =>
  let keyId := str "opus-rng-probe"
  let player := ids.headD 0
  let data : SigningData :=
    ⟨Vector.replicate 32 0, [⟨List.replicate 32 0x42, [44, 0, 0, 0, 0]⟩]⟩
  let x : Run η (Option Bytes) := do
    onRand fun r => ((), reseedWithLabel P.H.sha512 seed (str "rng-probe") r)
    makePlayers P.H P.lib [player]
    match ← invoke P.H (P.lib.startSigning player keyId (str "rng-probe-tx") snap.algorithm data []
        (ids.foldl (fun s id => s.insert (toStr id.toNat)) ∅)
        (ids.foldl (fun s id => s.insert id) ∅)) with
    | .error _ => pure none
    | .ok [request] => pure (some (flatten request))
    | .ok _ => pure none
  let r := x { p with world := { p.world with players := ∅, keyStores := stores } }
  (r.1, { r.2 with world := { r.2.world with
    players := p.world.players, keyStores := p.world.keyStores } })

def rngIsEffective (snap : Snapshot) : Run η Bool := do
  let allIds := snap.playerIds
  if allIds = [] then pure false
  else
    let ids := if snap.t.toNat < allIds.length then allIds.take snap.t.toNat else allIds
    match installSnapshot P.K snap (str "opus-rng-probe") (emptyStores allIds) with
    | (.error _, _) => pure false
    | (.ok _, stores) =>
      match ← oneShot P snap ids stores 0xC0FFEE with
      | none => pure false
      | some a =>
        match ← oneShot P snap ids stores 0xC0FFEE with
        | none => pure false
        | some b =>
          if a ≠ b then pure false
          else
            match ← oneShot P snap ids stores 0xBADC0DE with
            | none => pure false
            | some c => pure (a ≠ c)

/-- `FIREBLOCKS_SNAPSHOT` read and verified. -/
def loadSnapshot (env : Environment) : Entry η τ Snapshot :=
  match env.snapshotPath with
  | none => failClosed "snapshot_path_missing"
  | some none => failClosed "snapshot_invalid"
  | some (some file) =>
    match readSnapshot file with
    | .error _ => failClosed "snapshot_invalid"
    | .ok snap =>
      match verifySnapshot P.C P.K snap with
      | .error _ => failClosed "snapshot_invalid"
      | .ok _ => pure snap

/-- The session made, and its key stores put in the world; whether it is usable. -/
def makeSession (env : Environment) (snap : Snapshot) : Entry η τ Bool := fun f =>
  let (session, stores) := Session.make P.K snap (str "opus-key")
  (.ok session.ok, { f with
    proc := { f.proc with world := { f.proc.world with keyStores := stores } }
    session := some session
    shardSeed := env.shardSeed.getD f.shardSeed })

/-- The telemetry of an entry point with this build id. -/
def configureTelemetry (env : Environment) (buildId : String) : Entry η τ Unit := do
  if env.telemetryDir ∧ env.forkFlag ≤ 0 then
    if ¬ env.controlDir then failClosed "telemetry_config_invalid"
    else
      let ok ← onTelemetry (P.recorder.configure (str buildId) (str "clang") (str "asan+ubsan")
        (env.forkCount.getD 1))
      if ¬ ok then failClosed "telemetry_config_invalid"

/-- `record_door_reject`, and the return that follows it. -/
def doorReject : Entry η τ Unit := do
  let ok ← onTelemetry P.recorder.recordDoorReject
  if ¬ ok then failClosed "telemetry_publish_failed"

/-- `record_case`. -/
def recordCase (cell : Bytes) (applied : Bool) (verdict : Option Bytes) : Entry η τ Unit := do
  let ok ← onTelemetry (P.recorder.recordCase cell applied verdict)
  if ¬ ok then failClosed "telemetry_publish_failed"

/-- The switch on the verdict that ends a case. -/
def endCase (v : Driver.Verdict) : Entry η τ Unit :=
  match v with
  | .cleanReject | .cleanSign => pure ()
  | .harnessFault => failClosed "harness_fault"
  | .invalidSignature => signalFinding "INVALID-SIGNATURE"
  | .stateCorruption => signalFinding "STATE-CORRUPTION"
  | .crash => signalFinding "CRASH"
  | .timeout => signalFinding "TIMEOUT"

/-! ## cmp_general -/

namespace General

structure FieldSpec where
  round : Int
  field : WireField
  byteVector : Bool

def fields : List FieldSpec :=
  [⟨1, .r1MtaMessage, true⟩, ⟨1, .r1MtaCommitment, true⟩, ⟨1, .r1MtaProofsEntry, true⟩,
    ⟨1, .r1PointA, false⟩, ⟨1, .r1PointB, false⟩, ⟨1, .r1PointZ, false⟩,
    ⟨2, .r2Ack, false⟩, ⟨2, .r2KGammaMtaMessage, true⟩, ⟨2, .r2KXMtaMessage, true⟩,
    ⟨2, .r2Gamma, false⟩, ⟨2, .r2GammaProofsEntry, true⟩,
    ⟨3, .r3Delta, false⟩, ⟨3, .r3DeltaPoint, false⟩, ⟨3, .r3Proof, true⟩, ⟨4, .r4Si, false⟩]

/-- `data[i]`. -/
def at_ (data : Bytes) (i : Nat) : UInt8 := data.getD i 0

/-- The operation a byte-vector field takes. -/
def byteOp (b : UInt8) : WireOp :=
  [WireOp.flipBit, .zero, .truncate].getD (b.toNat % 3) .flipBit

/-- The mutation the bytes of an input select. -/
def decodeMutation (data : Bytes) (selected : FieldSpec) (op : WireOp) (attacker : UInt64)
    (blocks : Nat) : Mutation where
  round := selected.round
  attacker
  field := selected.field
  op
  block := (at_ data 5).toNat % blocks
  byteIndex := (at_ data 6).toNat * 256 + (at_ data 7).toNat
  bit := (if data.length > 8 then at_ data 8 else at_ data 7) &&& 7

def llvmFuzzerInitialize (env : Environment) : Entry η τ Unit := do
  let (installed, tested) ← onProc do
    let installed ← onRand installDeterministicRand
    if installed then do
      let tested ← onRand (selfTest P.H.sha512)
      pure (installed, tested)
    else pure (false, false)
  if ¬ installed ∨ ¬ tested then failClosed "deterministic_rng_unavailable"
  let snap ← loadSnapshot P env
  let effective ← onProc (rngIsEffective P snap)
  if ¬ effective then failClosed "rng_not_effective"
  if snap.players.length < 2 then failClosed "insufficient_players"
  let ok ← makeSession P env snap
  if ¬ ok then failClosed "session_unavailable"

/-- The configuration an input decodes to. -/
def decode (s : Session) (shardSeed : UInt64) (data : Bytes) : Driver.RunConfig :=
  let selected := fields.getD ((at_ data 0).toNat % fields.length) ⟨1, .r1MtaMessage, true⟩
  let blocks := 1 + (at_ data 1).toNat % 5
  let attacker := (s.snap.players.map SnapshotPlayer.id).getD
    ((at_ data 2).toNat % s.snap.players.length) 0
  let op :=
    if selected.byteVector then byteOp (at_ data 3)
    else if at_ data 3 &&& 1 ≠ 0 then .zero else .flipBit
  let digest := fnv1a64 data ^^^ shardSeed
  { seed := digest
    txid := str "fz-" ++ toStr digest.toNat
    metadataJson := if at_ data 4 &&& 1 ≠ 0 then str "positive_r" else []
    blocks
    path := [44, 0, 0, 0, 0]
    maliciousIds := {attacker}
    signersIds := []
    mutations := [decodeMutation data selected op attacker blocks]
    timeoutMs := 30000 }

/-- Whether the door lets an input in. -/
def door (data : Bytes) : Bool := 8 ≤ data.length && data.length ≤ 4096

def llvmFuzzerTestOneInput (data : Bytes) : Entry η τ Unit := do
  if ¬ door data then pure ()
  else
    let f ← get
    match f.session with
    | none => failClosed "runtime_not_initialized"
    | some s =>
      let result ← onProc (Driver.run P.H P.A P.lib s (decode s f.shardSeed data))
      if result.mutationsApplied = 0 then pure ()
      else endCase result.v

end General

/-! ## cmp_r4_tn -/

namespace R4

open General (FieldSpec at_ byteOp decodeMutation door)

def fieldsV2 : List FieldSpec := [⟨1, .r1MtaProofsEntry, true⟩, ⟨4, .r4Si, false⟩]

def cellKey (field : WireField) (op : WireOp) : Bytes :=
  if field = .r1MtaProofsEntry then
    match op with
    | .flipBit => str "r1.mta_proofs[victim]|flip_bit"
    | .zero => str "r1.mta_proofs[victim]|zero"
    | _ => str "r1.mta_proofs[victim]|truncate"
  else if field = .r4Si ∧ op = .extraMapKey then str "r4.si|extra_map_key"
  else []

def llvmFuzzerInitialize (env : Environment) : Entry η τ Unit := do
  let (installed, tested) ← onProc do
    let installed ← onRand installDeterministicRand
    if installed then do
      let tested ← onRand (selfTest P.H.sha512)
      pure (installed, tested)
    else pure (false, false)
  if ¬ installed ∨ ¬ tested then failClosed "deterministic_rng_unavailable"
  let snap ← loadSnapshot P env
  let effective ← onProc (rngIsEffective P snap)
  if ¬ effective then failClosed "rng_not_effective"
  if snap.players.length < 3 then failClosed "unsupported_fixture_players"
  let ok ← makeSession P env snap
  if ¬ ok then failClosed "session_invalid"
  configureTelemetry P env "v2-r4-extrakey"

/-- The signers of a fixture with fewer signers than players; none for n-of-n. -/
def designatedSigners (s : Session) : List UInt64 :=
  if s.snap.t.toNat < s.ids.length then s.ids.take s.snap.t.toNat else []

/-- The field an input selects. -/
def selectField (data : Bytes) : FieldSpec :=
  fieldsV2.getD ((at_ data 0).toNat % fieldsV2.length) ⟨1, .r1MtaProofsEntry, true⟩

/-- The operation it selects. -/
def selectOp (data : Bytes) : WireOp :=
  if (selectField data).byteVector then byteOp (at_ data 3) else .extraMapKey

/-- The configuration an input decodes to. -/
def decode (s : Session) (shardSeed : UInt64) (data : Bytes) : Driver.RunConfig :=
  let blocks := 1 + (at_ data 1).toNat % 5
  let signers := designatedSigners s
  let participants := if signers = [] then s.ids else signers
  let attacker := participants.getD ((at_ data 2).toNat % participants.length) 0
  let digest := fnv1a64 data ^^^ shardSeed
  { seed := digest
    txid := str "fz2-" ++ toStr digest.toNat
    metadataJson := if at_ data 4 &&& 1 ≠ 0 then str "positive_r" else []
    blocks
    path := [44, 0, 0, 0, 0]
    maliciousIds := {attacker}
    signersIds := signers
    mutations := [decodeMutation data (selectField data) (selectOp data) attacker blocks]
    timeoutMs := 30000 }

def llvmFuzzerTestOneInput (data : Bytes) : Entry η τ Unit := do
  if ¬ door data then doorReject P
  else
    let f ← get
    match f.session with
    | none => failClosed "runtime_not_initialized"
    | some s =>
      if s.ids.length < 2 then failClosed "insufficient_players"
      let cell := cellKey (selectField data).field (selectOp data)
      let result ← onProc (Driver.run P.H P.A P.lib s (decode s f.shardSeed data))
      if result.v = .harnessFault then failClosed "harness_fault"
      if result.mutationsApplied = 0 then recordCase P cell false none
      else
        recordCase P cell true (some (verdictString result.v))
        endCase result.v

end R4

end

end MpcHunt.Harness
