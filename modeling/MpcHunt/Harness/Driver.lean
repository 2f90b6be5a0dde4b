/-
`driver.cpp`: one signing session of five rounds, the peers' messages changed
on the wire for the honest players as the configuration says, and the verdict
on how it ended.
-/
import MpcHunt.Harness.Library
import MpcHunt.Harness.Mutators

namespace MpcHunt.Harness.Driver

inductive Verdict where
  | cleanSign | cleanReject | invalidSignature | stateCorruption | crash | timeout | harnessFault
deriving DecidableEq, Repr

structure RunConfig where
  seed : UInt64
  txid : Bytes
  metadataJson : Bytes
  blocks : Nat
  path : List UInt32
  maliciousIds : IdSet
  signersIds : List UInt64
  mutations : List Mutation
  timeoutMs : Nat

def RunConfig.honestOnly (cfg : RunConfig) : Bool := cfg.maliciousIds.isEmpty

structure RunResult where
  v : Verdict
  failedRound : Nat
  failedPlayer : UInt64
  exceptionType : Bytes
  detail : Bytes
  elapsedMs : Nat
  sigs : List RecoverableSignature
  signatureProduced : Bool
  keyDigestBefore : Bytes
  keyDigestAfter : Bytes
  keyStoreUnchanged : Bool
  sigStateConsistent : Bool
  mutationsApplied : Nat
deriving DecidableEq

/-- A default-constructed result. -/
def RunResult.initial : RunResult where
  v := .harnessFault
  failedRound := 0
  failedPlayer := 0
  exceptionType := []
  detail := []
  elapsedMs := 0
  sigs := []
  signatureProduced := false
  keyDigestBefore := []
  keyDigestAfter := []
  keyStoreUnchanged := true
  sigStateConsistent := true
  mutationsApplied := 0

def guarded : Thrown → CallOutcome
  | .cosignerException what => ⟨false, str "cosigner_exception", what⟩
  | .outOfRange what => ⟨false, str "std::out_of_range", what⟩
  | .badAlloc what => ⟨false, str "std::bad_alloc", what⟩
  | .stdException what => ⟨true, str "std::exception", what⟩
  | .nonStandard => ⟨true, str "unknown", str "non-standard exception"⟩

def blockMessage (index : Nat) : Bytes := (List.range 32).map fun i => UInt8.ofNat (0xA0 + index + i)

/-! ## Guards -/

/-- The signers: those configured, or every player. -/
def signersOf (s : Session) (cfg : RunConfig) : List UInt64 :=
  if cfg.signersIds = [] then s.ids else cfg.signersIds

def honestOf (s : Session) (cfg : RunConfig) : List UInt64 :=
  (signersOf s cfg).filter fun id => ¬ cfg.maliciousIds.contains id

/-- The honest player the session is judged at. -/
def observerOf (s : Session) (cfg : RunConfig) : UInt64 := (honestOf s cfg).headD 0

/-- Why `run` refuses a configuration, if it does. -/
def guard (maxBlocksToSign : Nat) (s : Session) (cfg : RunConfig) : Option Bytes :=
  let signers := signersOf s cfg
  if signers = [] then some (str "refused: no signers configured")
  else if ¬ signers.Nodup then some (str "duplicate signer id in signers_ids")
  else
    match signers.find? (· ∉ s.ids) with
    | some sid => some (str "signer id " ++ toStr sid.toNat ++ str " is not a fixture player")
    | none =>
      if signers.length ≠ s.snap.t.toNat then
        some (str "signer count " ++ toStr signers.length ++ str " != snapshot threshold " ++
          toStr s.snap.t.toNat ++ str " (start_signing would reject)")
      else if honestOf s cfg = [] then
        some (str "refused: every player is malicious (out of scope by SECURITY-MODEL 1.1)")
      else
        match cfg.maliciousIds.toList.find? (· ∉ s.ids) with
        | some m => some (str "malicious id " ++ toStr m.toNat ++ str " is not a player")
        | none =>
          if cfg.blocks = 0 ∨ cfg.blocks > maxBlocksToSign then
            some (str "block count out of the caller-contract range")
          else none

/-- The signing request, which is never mutated. -/
def signingData (cfg : RunConfig) : SigningData :=
  ⟨Vector.replicate 32 0, (List.range cfg.blocks).map fun i => ⟨blockMessage i, cfg.path⟩⟩

/-! ## The wire -/

/-- The first enabled mutation of a round. -/
def findMut (cfg : RunConfig) (round : Int) : Option Mutation :=
  cfg.mutations.find? fun m => m.round = round && m.enabled

/-- What a viewer receives, and how many mutations were applied to it. -/
def view {α : Type} (cfg : RunConfig) (round : Int) (apply : Mutation → UInt64 → α → Bool × α)
    (sent : α) (viewer : UInt64) : α × Nat :=
  if cfg.maliciousIds.contains viewer then (sent, 0)
  else
    match findMut cfg round with
    | none => (sent, 0)
    | some m => let r := apply m viewer sent; (r.2, if r.1 then 1 else 0)

def viewR1 (cfg : RunConfig) : IdMap (List CmpMtaRequest) → UInt64 → IdMap (List CmpMtaRequest) × Nat :=
  view cfg 1 fun m viewer requests => applyR1 m requests viewer

def viewR2 (cfg : RunConfig) : IdMap CmpMtaResponses → UInt64 → IdMap CmpMtaResponses × Nat :=
  view cfg 2 fun m viewer responses => applyR2 m responses viewer

def viewR3 (cfg : RunConfig) : IdMap (List CmpMtaDeltas) → UInt64 → IdMap (List CmpMtaDeltas) × Nat :=
  view cfg 3 fun m _ deltas => applyR3 m deltas

def viewR4 (s : Session) (cfg : RunConfig) :
    IdMap (List Scalar) → UInt64 → IdMap (List Scalar) × Nat :=
  view cfg 4 fun m _ sis => applyR4 m sis s.ids (signersOf s cfg)

section
variable {η α β : Type} (H : Hashes) (A : Algebra) (lib : Library η)

/-! ## Rounds -/

/-- The loop of a round over the signers: each gets what it receives; the outputs, or
the signer whose call threw and the outcome; and the mutations applied on the way. -/
def eachSigner (received : UInt64 → α × Nat) (call : UInt64 → α → Call η β) :
    List UInt64 → IdMap β → Nat → Run η (Except (UInt64 × CallOutcome) (IdMap β) × Nat)
  | [], outs, applied => pure (.ok outs, applied)
  | id :: ids, outs, applied => do
    match ← invoke H (call id (received id).1) with
    | .error e => pure (.error (id, guarded e), applied + (received id).2)
    | .ok out => eachSigner received call ids (outs.insert id out) (applied + (received id).2)

/-- The observer's key store digest. -/
def observerDigest (observer : UInt64) : Run η Bytes := do
  pure (KeyStore.digest H ((← get).world.keyStores.getD observer ∅))

/-- What `fail` adds to a detail. -/
def failDetail (extra what : Bytes) : Bytes :=
  if extra = [] then what else extra ++ str " (" ++ what ++ str ")"

/-- What a round passes to `fail` as extra detail. -/
def failExtra (cfg : RunConfig) (round : Nat) (id : UInt64) (o : CallOutcome) : Bytes :=
  if round = 1 then (if cfg.honestOnly then str "honest round 1 must not throw" else [])
  else if round = 2 then
    (if o.fatal then [] else if ¬ cfg.maliciousIds.contains id then []
      else str "attacker self-harm")
  else []

/-- The exit of a round in which a call threw. -/
def throwExit (cfg : RunConfig) (observer : UInt64) (t0 round applied : Nat) (before : Bytes)
    (id : UInt64) (o : CallOutcome) : Run η RunResult := do
  let elapsedMs := lib.now (← get).world.lib - t0
  let after ← observerDigest H observer
  pure { RunResult.initial with
    v := if o.fatal then .crash else if cfg.honestOnly then .harnessFault else .cleanReject
    failedRound := round
    failedPlayer := id
    exceptionType := o.type
    detail := failDetail (failExtra cfg round id o) o.what
    elapsedMs
    keyDigestBefore := before
    keyDigestAfter := after
    keyStoreUnchanged := before = after
    mutationsApplied := applied }

/-- Oracle O1 on one block: why the signature is not accepted. -/
def judgeBlock (s : Session) (cfg : RunConfig) (i : Nat) (sig : RecoverableSignature) :
    Option Bytes :=
  match oracleSignatureValid A s.snap (blockMessage i) cfg.path (signingData cfg).chaincode sig
      (cfg.metadataJson = str "positive_r") with
  | some detail => some (str "block " ++ toStr i ++ str ": " ++ detail)
  | none =>
    match oracleNoCanaryForgery A s.snap cfg.path (signingData cfg).chaincode sig with
    | some detail => some (str "block " ++ toStr i ++ str ": " ++ detail)
    | none => none

/-- The loop of oracle O1 over the blocks. -/
def judgeBlocks (s : Session) (cfg : RunConfig) : Nat → List RecoverableSignature → Option Bytes
  | _, [] => none
  | i, sig :: sigs =>
    match judgeBlock A s cfg i sig with
    | some detail => some detail
    | none => judgeBlocks s cfg (i + 1) sigs

/-- The oracles on a session that produced signatures. -/
def judge (s : Session) (cfg : RunConfig) (t0 applied : Nat) (before : Bytes)
    (sigs : List RecoverableSignature) : Run η RunResult := do
  let elapsedMs := lib.now (← get).world.lib - t0
  let after ← observerDigest H (observerOf s cfg)
  let players := (← get).world.players
  let res := { RunResult.initial with
    sigs, signatureProduced := true, elapsedMs, keyDigestBefore := before, keyDigestAfter := after
    keyStoreUnchanged := before = after, mutationsApplied := applied }
  if before ≠ after then
    pure { res with v := .stateCorruption, detail := str "key store digest changed across a run" }
  else if SigningStore.has (players.getD (observerOf s cfg) ∅) cfg.txid then
    pure { res with
      v := .stateCorruption, sigStateConsistent := false
      detail := str "temporary signing record survived a successful get_cmp_signature" }
  else if sigs.length ≠ cfg.blocks then
    pure { res with
      v := .invalidSignature
      detail := str "produced " ++ toStr sigs.length ++ str " signatures for " ++
        toStr cfg.blocks ++ str " blocks" }
  else
    match judgeBlocks A s cfg 0 sigs with
    | some detail => pure { res with v := .invalidSignature, detail }
    | none =>
      if cfg.timeoutMs ≠ 0 ∧ elapsedMs > cfg.timeoutMs then
        pure { res with
          v := .timeout
          detail := str "exceeded budget of " ++ toStr cfg.timeoutMs ++ str " ms" }
      else pure { res with v := .cleanSign }

/-- `run` up to its first round: the generator is seeded, the players are new. -/
def start (s : Session) (cfg : RunConfig) : Run η Unit := do
  modify fun p => { p with rand := reseedWithLabel H.sha512 cfg.seed cfg.txid p.rand }
  modify fun p => { p with world.players := ∅ }
  makePlayers H lib s.ids

/-- The five rounds: the signatures, or the round, the signer and the outcome of the call
that threw; and the mutations applied. -/
def rounds (s : Session) (cfg : RunConfig) :
    Run η (Except (Nat × UInt64 × CallOutcome) (List RecoverableSignature) × Nat) := do
  let signers := signersOf s cfg
  let playersIds : IdSet := signers.foldl (fun ids id => ids.insert id) ∅
  let playersStr : Std.ExtTreeSet Bytes :=
    signers.foldl (fun ids id => ids.insert (toStr id.toNat)) ∅
  match ← eachSigner H (fun _ => ((), 0)) (fun id _ => lib.startSigning id s.keyId cfg.txid
      0 (signingData cfg) cfg.metadataJson playersStr playersIds) signers ∅ 0 with
  | (.error (id, o), applied) => pure (.error (1, id, o), applied)
  | (.ok requests, applied) =>
    match ← eachSigner H (viewR1 cfg requests) (fun id => lib.mtaResponse id cfg.txid)
        signers ∅ applied with
    | (.error (id, o), applied) => pure (.error (2, id, o), applied)
    | (.ok responses, applied) =>
      match ← eachSigner H (viewR2 cfg responses) (fun id => lib.mtaVerify id cfg.txid)
          signers ∅ applied with
      | (.error (id, o), applied) => pure (.error (3, id, o), applied)
      | (.ok deltas, applied) =>
        match ← eachSigner H (viewR3 cfg deltas) (fun id => lib.getSi id cfg.txid)
            signers ∅ applied with
        | (.error (id, o), applied) => pure (.error (4, id, o), applied)
        | (.ok sis, applied) =>
          let observer := observerOf s cfg
          let (received, k) := viewR4 s cfg sis observer
          match ← invoke H (lib.getCmpSignature observer cfg.txid received) with
          | .error e => pure (.error (5, observer, guarded e), applied + k)
          | .ok sigs => pure (.ok sigs, applied + k)

/-- `session::run`. -/
def run (s : Session) (cfg : RunConfig) : Run η RunResult := do
  let t0 := lib.now (← get).world.lib
  match guard lib.maxBlocksToSign s cfg with
  | some detail => pure { RunResult.initial with detail }
  | none =>
    start H lib s cfg
    let before ← observerDigest H (observerOf s cfg)
    match ← rounds H lib s cfg with
    | (.error (round, id, o), applied) =>
      throwExit H lib cfg (observerOf s cfg) t0 round applied before id o
    | (.ok sigs, applied) => judge H A lib s cfg t0 applied before sigs

/-! ## The ways out of a run -/

/-- The digest of a player's key store. -/
def digestAt (player : UInt64) (p : Proc η) : Bytes :=
  KeyStore.digest H (p.world.keyStores.getD player ∅)

variable {s : Session} {cfg : RunConfig} {p : Proc η}

theorem run_of_guard {detail : Bytes} (h : guard lib.maxBlocksToSign s cfg = some detail) :
    run H A lib s cfg p = ({ RunResult.initial with detail }, p) := by
  show (match guard lib.maxBlocksToSign s cfg with
    | some detail => pure { RunResult.initial with detail }
    | none => _ : Run η RunResult) p = _
  rw [h]
  rfl

/-- A run that starts ends as its rounds do. -/
theorem run_of_start (h : guard lib.maxBlocksToSign s cfg = none) :
    run H A lib s cfg p =
      match rounds H lib s cfg (start H lib s cfg p).2 with
      | ((.error (round, id, o), applied), p') =>
        throwExit H lib cfg (observerOf s cfg) (lib.now p.world.lib) round applied
          (digestAt H (observerOf s cfg) (start H lib s cfg p).2) id o p'
      | ((.ok sigs, applied), p') =>
        judge H A lib s cfg (lib.now p.world.lib) applied
          (digestAt H (observerOf s cfg) (start H lib s cfg p).2) sigs p' := by
  show (match guard lib.maxBlocksToSign s cfg with
    | some detail => _
    | none => _ : Run η RunResult) p = _
  rw [h]
  show (match (rounds H lib s cfg (start H lib s cfg p).2).1 with
    | (.error (round, id, o), applied) => _
    | (.ok sigs, applied) => _ : Run η RunResult) (rounds H lib s cfg (start H lib s cfg p).2).2 = _
  obtain ⟨⟨r | r, applied⟩, p'⟩ := rounds H lib s cfg (start H lib s cfg p).2
  · rfl
  · rfl

end

end MpcHunt.Harness.Driver
