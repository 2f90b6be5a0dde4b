/-
The library under test, as the harness meets it: five calls for each player,
each an arbitrary program that may draw randomness, change any store, return
a value or throw; and the state of the process around it.

`Run` is a computation of the harness over that state.
-/
import MpcHunt.Harness.DetRand
import MpcHunt.Harness.Fixtures

namespace MpcHunt.Harness

/-- What a call throws. -/
inductive Thrown where
  | cosignerException (what : Bytes)
  | outOfRange (what : Bytes)
  | badAlloc (what : Bytes)
  | stdException (what : Bytes)
  | nonStandard
deriving DecidableEq

/-- What a call of the library can reach: the library's own state, the signing stores of
the players of the run, the key stores of the session. -/
structure World (η : Type) where
  lib : η
  players : IdMap SigningStore
  keyStores : IdMap KeyStore

/-- The state of the process. -/
structure Proc (η : Type) where
  world : World η
  rand : RandState

/-- A computation of the harness. -/
abbrev Run (η : Type) := StateM (Proc η)

/-- One call of the library. -/
abbrev Call (η α : Type) := World η → Draws (Except Thrown α × World η)

/-- The methods of a player's service, its constructor, and the clock. The first argument
of each is the player. -/
structure Library (η : Type) where
  /-- `MAX_BLOCKS_TO_SIGN`. -/
  maxBlocksToSign : Nat
  makeService : UInt64 → World η → Draws (World η)
  startSigning : UInt64 → (keyId txid : Bytes) → (algorithm : UInt32) → SigningData →
    (metadataJson : Bytes) → (playersStr : Std.ExtTreeSet Bytes) → (playersIds : IdSet) → Call η (List CmpMtaRequest)
  mtaResponse : UInt64 → (txid : Bytes) → IdMap (List CmpMtaRequest) → Call η CmpMtaResponses
  mtaVerify : UInt64 → (txid : Bytes) → IdMap CmpMtaResponses → Call η (List CmpMtaDeltas)
  getSi : UInt64 → (txid : Bytes) → IdMap (List CmpMtaDeltas) → Call η (List Scalar)
  getCmpSignature : UInt64 → (txid : Bytes) → IdMap (List Scalar) →
    Call η (List RecoverableSignature)
  /-- `steady_clock::now()` in milliseconds. -/
  now : η → Nat

section
variable {η α : Type} (H : Hashes)

/-- Making a call. -/
def invoke (c : Call η α) : Run η (Except Thrown α) := fun p =>
  let r := (c p.world).run H.sha512 p.rand
  (r.1.1, ⟨r.1.2, r.2⟩)

/-- `std::make_unique<player_ctx>` for each of the players: an empty signing store, and a
new service. -/
def makePlayers (lib : Library η) : List UInt64 → Run η Unit
  | [] => pure ()
  | id :: ids => do
    modify fun p => { p with world.players := p.world.players.insertIfNew id ∅ }
    modify fun p =>
      let r := (lib.makeService id p.world).run H.sha512 p.rand
      ⟨r.1, r.2⟩
    makePlayers lib ids

end

/-- What `guarded` reports of a call that threw. -/
structure CallOutcome where
  fatal : Bool
  type : Bytes
  what : Bytes
deriving DecidableEq

/-! ## Oracles -/

/-- The curves `make_algebra` knows. -/
inductive Curve where
  | secp256k1 | secp256r1 | stark
deriving DecidableEq

/-- The curve operations the oracles call. -/
structure Algebra where
  /-- The curve a `cosigner_sign_algorithm` names, for the three constants of
  `make_algebra`. -/
  curve : UInt32 → Option Curve
  /-- `derive_public_key_generic`: the derived key, or a status. -/
  derivePublicKey : Curve → (root chaincode : Bytes) → (path : List UInt32) → Except Nat Point
  /-- `GFp_curve_algebra_verify_signature`: its status, 0 for success. -/
  verifySignature : Curve → Point → (msg : Bytes) → (r s : Scalar) → Nat

/-- `is_greater_or_equal` on the first bytes of a number. -/
def isGreaterOrEqual : Bytes → Bytes → Bool
  | a :: as, b :: bs => if a < b then false else if a > b then true else isGreaterOrEqual as bs
  | _, _ => true

def isPositiveScalar (algorithm : Curve) (n : Scalar) : Bool :=
  match algorithm with
  | .stark => n[0] < 4
  | .secp256r1 =>
    ¬ isGreaterOrEqual (n.toList.take 8) [0x7F, 0xFF, 0xFF, 0xFF, 0x80, 0x00, 0x00, 0x00]
  | .secp256k1 => n[0] &&& 0x80 = 0

/-- `oracle_signature_valid`: nothing when the signature is valid, else its detail. -/
def oracleSignatureValid (A : Algebra) (snap : Snapshot) (expectedMessage : Bytes)
    (path : List UInt32) (chaincode : HDChaincode) (sig : RecoverableSignature)
    (requirePositiveR : Bool) : Option Bytes :=
  if expectedMessage.length ≠ 32 then some (str "expected message is not 32 bytes")
  else
    match A.curve snap.algorithm with
    | none => some (str "no algebra for algorithm")
    | some algo =>
      match A.derivePublicKey algo (snap.publicKey.take 33) chaincode.toList path with
      | .error ds => some (str "derive_public_key_generic failed: " ++ toStr ds)
      | .ok derived =>
        let st := A.verifySignature algo derived expectedMessage sig.r sig.s
        if st ≠ 0 then
          some (str "signature does not verify for the requested message and derived public key "
            ++ str "(status " ++ toStr st ++ str ")")
        else if requirePositiveR ∧ ¬ isPositiveScalar algo sig.r then
          some (str "POSITIVE_R was requested but r is negative")
        else none

/-- The messages nobody agreed to sign. -/
def canaries : List Bytes :=
  [List.replicate 32 0, List.replicate 32 0xFF,
    (List.replicate 8 [0xDE, 0xAD, 0xBE, 0xEF]).flatten]

/-- The loop over the canaries. -/
def noCanary (verifies : Bytes → Bool) : Nat → List Bytes → Option Bytes
  | _, [] => none
  | i, msg :: rest =>
    if verifies msg then
      some (str "signature verifies for canary message #" ++ toStr i ++
        str " which was never authorised")
    else noCanary verifies (i + 1) rest

def oracleNoCanaryForgery (A : Algebra) (snap : Snapshot) (path : List UInt32)
    (chaincode : HDChaincode) (sig : RecoverableSignature) : Option Bytes :=
  match A.curve snap.algorithm with
  | none => some (str "no algebra for algorithm")
  | some algo =>
    match A.derivePublicKey algo (snap.publicKey.take 33) chaincode.toList path with
    | .error _ => some (str "derive_public_key_generic failed")
    | .ok derived =>
      noCanary (fun msg => A.verifySignature algo derived msg sig.r sig.s = 0) 0 canaries

/-! ## Sessions -/

/-- The key objects the library deserializes. -/
structure KeyCodec where
  paillierPublic : Bytes → Option PublicKey
  ringPedersenPublic : Bytes → Option PublicKey
  paillierPrivate : Bytes → Option PrivateKey
  ringPedersenPrivate : Bytes → Option PrivateKey

/-- `memcpy` of a fixed number of bytes out of a vector. -/
def memcpy (n : Nat) (b : Bytes) : Vector UInt8 n := Vector.ofFn fun i => b.getD i 0

/-- The first loop of `install_snapshot`: the public part of every player. -/
def playersInfo (K : KeyCodec) : List SnapshotPlayer → IdMap CmpPlayerInfo →
    Except Bytes (IdMap CmpPlayerInfo)
  | [], infos => .ok infos
  | p :: ps, infos =>
    match K.paillierPublic p.paillierPub with
    | none => .error (str "paillier public deserialize failed for " ++ toStr p.id.toNat)
    | some ppub =>
      match K.ringPedersenPublic p.rpPub with
      | none => .error (str "ring pedersen public deserialize failed for " ++ toStr p.id.toNat)
      | some rpub =>
        playersInfo K ps (infos.insert p.id ⟨memcpy 33 p.publicShare, some ppub, some rpub⟩)

/-- The second loop: the private part, into each player's own store. A failure leaves
what is already there. -/
def preloadPlayers (K : KeyCodec) (s : Snapshot) (keyId : Bytes) (md : CmpKeyMetadata) :
    List SnapshotPlayer → IdMap KeyStore → Except Bytes Unit × IdMap KeyStore
  | [], stores => (.ok (), stores)
  | p :: ps, stores =>
    match stores[p.id]? with
    | none => (.error (str "no key store for player " ++ toStr p.id.toNat), stores)
    | some store =>
      let store := KeyStore.preloadKey store keyId s.algorithm.toUInt64 (memcpy 32 p.share) md
      let stores := stores.insert p.id store
      match K.paillierPrivate p.paillierPriv with
      | none =>
        (.error (str "paillier private deserialize failed for " ++ toStr p.id.toNat), stores)
      | some ppriv =>
        match K.ringPedersenPrivate p.rpPriv with
        | none =>
          (.error (str "ring pedersen private deserialize failed for " ++ toStr p.id.toNat), stores)
        | some rpriv =>
          preloadPlayers K s keyId md ps
            (stores.insert p.id (KeyStore.preloadAux store keyId ⟨some ppriv, some rpriv⟩))

def installSnapshot (K : KeyCodec) (s : Snapshot) (keyId : Bytes) (stores : IdMap KeyStore) :
    Except Bytes Unit × IdMap KeyStore :=
  match playersInfo K s.players ∅ with
  | .error err => (.error err, stores)
  | .ok infos =>
    let md : CmpKeyMetadata := {
      publicKey := memcpy 33 s.publicKey
      algorithm := s.algorithm.toUInt64
      t := s.t.toUInt64
      n := s.n.toUInt64
      flags := 0
      ttl := 0
      seed := memcpy 32 s.seed
      playersInfo := infos }
    preloadPlayers K s keyId md s.players stores

/-- One empty key store per player. -/
def emptyStores (ids : List UInt64) : IdMap KeyStore :=
  ids.foldl (fun stores id => stores.insertIfNew id ∅) ∅

/-- The fields `session` and `dual_session` share; their key stores are in the world. -/
structure Session where
  ok : Bool
  keyId : Bytes
  snap : Snapshot
  ids : List UInt64
deriving DecidableEq

/-- The constructor of `session` and of `dual_session`: the session and its key stores. -/
def Session.make (K : KeyCodec) (snap : Snapshot) (keyId : Bytes) : Session × IdMap KeyStore :=
  let r := installSnapshot K snap keyId (emptyStores snap.playerIds)
  (⟨r.1 = .ok (), keyId, snap, snap.playerIds⟩, r.2)

end MpcHunt.Harness
