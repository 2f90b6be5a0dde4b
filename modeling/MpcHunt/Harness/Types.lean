/-
The data the harness exchanges with the library under test and keeps between
its calls. A record has the fields the harness reads or writes; a
`std::string` or byte vector is a list of bytes, a fixed array a `Vector`, a
`std::map` the ordered map of the standard library.
-/
import Mathlib

namespace MpcHunt.Harness

abbrev Bytes := List UInt8

/-- `std::map<uint64_t, β>`. -/
abbrev IdMap (β : Type) := Std.ExtTreeMap UInt64 β

/-- `std::set<uint64_t>`. -/
abbrev IdSet := Std.ExtTreeSet UInt64

/-- The bytes of a string constant of the source (ASCII). -/
def str (s : String) : Bytes := s.toList.map fun c => UInt8.ofNat c.toNat

/-- `std::to_string` of an unsigned number. -/
def toStr (n : Nat) : Bytes := str (toString n)

abbrev Scalar := Vector UInt8 32
abbrev Point := Vector UInt8 33
abbrev HDChaincode := Vector UInt8 32
abbrev CommitmentsSha256 := Vector UInt8 32

/-! ## What the peers exchange -/

structure CmpMtaMessage where
  message : Bytes
  commitment : Bytes
  proof : Bytes
deriving DecidableEq

structure CmpMtaRequest where
  mta : CmpMtaMessage
  mtaProofs : IdMap Bytes
  A : Point
  B : Point
  Z : Point
deriving DecidableEq

structure CmpMtaResponse where
  kGammaMta : IdMap CmpMtaMessage
  kXMta : IdMap CmpMtaMessage
  GAMMA : Point
  gammaProofs : IdMap Bytes
deriving DecidableEq

structure CmpMtaResponses where
  ack : CommitmentsSha256
  response : List CmpMtaResponse
deriving DecidableEq

structure CmpMtaDeltas where
  delta : Scalar
  DELTA : Point
  proof : Bytes
deriving DecidableEq

structure RecoverableSignature where
  r : Scalar
  s : Scalar
deriving DecidableEq

/-! ## What a caller of `start_signing` asks for -/

structure SigningBlockData where
  data : Bytes
  path : List UInt32
deriving DecidableEq

structure SigningData where
  chaincode : HDChaincode
  blocks : List SigningBlockData
deriving DecidableEq

/-! ## What a player keeps of a ceremony -/

structure EcdsaSigningPublicData where
  A : Point
  B : Point
  Z : Point
  GAMMA : Point
  gammaCommitment : Bytes
deriving DecidableEq

structure EcdsaSigningData where
  flags : UInt32
  message : Scalar
  R : Point
  path : List UInt32
  k : Scalar
  gamma : Scalar
  a : Scalar
  b : Scalar
  delta : Scalar
  chi : Scalar
  GAMMA : Point
  mtaRequest : Bytes
  GProofs : IdMap Bytes
  publicData : IdMap EcdsaSigningPublicData
deriving DecidableEq

structure CmpSigningMetadata where
  keyId : Bytes
  chaincode : HDChaincode
  ack : CommitmentsSha256
  version : UInt64
  signersIds : List UInt64
  sigData : List EcdsaSigningData
deriving DecidableEq

/-! ## The frozen fixture -/

structure SnapshotPlayer where
  id : UInt64
  share : Bytes
  publicShare : Bytes
  paillierPub : Bytes
  paillierPriv : Bytes
  rpPub : Bytes
  rpPriv : Bytes
deriving DecidableEq

structure Snapshot where
  algorithm : UInt32
  publicKey : Bytes
  seed : Bytes
  t : UInt8
  n : UInt8
  players : List SnapshotPlayer
deriving DecidableEq

def Snapshot.playerIds (s : Snapshot) : List UInt64 := s.players.map SnapshotPlayer.id

end MpcHunt.Harness
