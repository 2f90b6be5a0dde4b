/-
`fixtures.cpp`: what the key store and the signing store of a player hold, and
the canonical strings their digests are taken of. An object of the library
stands for what the harness sees of it: a public key for its serialization, a
private key for its public half.
-/
import MpcHunt.Harness.Types
import MpcHunt.Lib.Words

namespace MpcHunt.Harness

open Words

/-- The hash functions of OpenSSL. -/
structure Hashes where
  sha256 : Bytes → Vector UInt8 32
  sha512 : Bytes → Vector UInt8 64

/-! ## Canonical strings -/

def appendU64 (out : Bytes) (v : UInt64) : Bytes := out ++ be64 v

def appendBytes (out p : Bytes) : Bytes := out ++ p

/-- `x.size()` as the 64-bit number it is. -/
def sizeT {α : Type} (l : List α) : UInt64 := .ofNat l.length

def appendBlob (out p : Bytes) : Bytes := appendBytes (appendU64 out (sizeT p)) p

def hexmap : Bytes := str "0123456789abcdef"

def sha256Hex (H : Hashes) (input : Bytes) : Bytes :=
  (H.sha256 input).toList.flatMap fun (c : UInt8) =>
    [hexmap.getD (c >>> 4).toNat 0, hexmap.getD (c &&& 0x0F).toNat 0]

/-- One turn of the loop over `sd.G_proofs`. -/
def appendGProof (acc : Bytes) (p : UInt64 × Bytes) : Bytes :=
  appendU64 (appendU64 acc p.1) (sizeT p.2)

/-- One turn of the loop over `sd.public_data`. -/
def appendPublicData (acc : Bytes) (p : UInt64 × EcdsaSigningPublicData) : Bytes :=
  let acc := appendU64 acc p.1
  let acc := appendBytes acc p.2.A.toList
  let acc := appendBytes acc p.2.B.toList
  let acc := appendBytes acc p.2.Z.toList
  let acc := appendBytes acc p.2.GAMMA.toList
  appendU64 acc (sizeT p.2.gammaCommitment)

/-- One turn of the loop over `md.sig_data`. -/
def appendSigData (acc : Bytes) (sd : EcdsaSigningData) : Bytes :=
  let acc := appendU64 acc sd.flags.toUInt64
  let acc := appendBytes acc sd.message.toList
  let acc := appendBytes acc sd.R.toList
  let acc := appendU64 acc (sizeT sd.path)
  let acc := sd.path.foldl (fun acc p => appendU64 acc p.toUInt64) acc
  let acc := appendBytes acc sd.k.toList
  let acc := appendBytes acc sd.gamma.toList
  let acc := appendBytes acc sd.a.toList
  let acc := appendBytes acc sd.b.toList
  let acc := appendBytes acc sd.delta.toList
  let acc := appendBytes acc sd.chi.toList
  let acc := appendBytes acc sd.GAMMA.toList
  let acc := appendU64 acc (sizeT sd.mtaRequest)
  let acc := sd.GProofs.toList.foldl appendGProof acc
  sd.publicData.toList.foldl appendPublicData acc

def appendSigningRecord (acc txid : Bytes) (md : CmpSigningMetadata) : Bytes :=
  let acc := appendBlob acc txid
  let acc := appendBlob acc md.keyId
  let acc := appendBytes acc md.chaincode.toList
  let acc := appendBytes acc md.ack.toList
  let acc := appendU64 acc md.version
  let acc := md.signersIds.foldl appendU64 acc
  let acc := appendU64 acc (sizeT md.sigData)
  md.sigData.foldl appendSigData acc

/-! ## Signing store -/

/-- `det_signing_persistency`: the records of a player, by txid. -/
abbrev SigningStore := Std.ExtTreeMap Bytes CmpSigningMetadata

def SigningStore.has (s : SigningStore) (txid : Bytes) : Bool := s.contains txid

def SigningStore.digestForTxid (H : Hashes) (s : SigningStore) (txid : Bytes) : Option Bytes :=
  s[txid]?.map fun md => sha256Hex H (appendSigningRecord [] txid md)

/-! ## Key store -/

/-- A public key object: what serializing it gives, nothing when that fails. -/
structure PublicKey where
  serialized : Option Bytes
deriving DecidableEq

/-- A private key object: the public key it gives out. -/
structure PrivateKey where
  getPublic : Option PublicKey
deriving DecidableEq

structure CmpPlayerInfo where
  publicShare : Point
  paillier : Option PublicKey
  ringPedersen : Option PublicKey
deriving DecidableEq

structure CmpKeyMetadata where
  publicKey : Point
  algorithm : UInt64
  t : UInt64
  n : UInt64
  flags : UInt64
  ttl : UInt64
  seed : CommitmentsSha256
  playersInfo : IdMap CmpPlayerInfo
deriving DecidableEq

structure AuxiliaryKeys where
  paillier : Option PrivateKey
  ringPedersen : Option PrivateKey
deriving DecidableEq

structure KeyInfo where
  algorithm : UInt64
  privateKey : Scalar
  metadata : CmpKeyMetadata
  auxKeys : AuxiliaryKeys
  hasMetadata : Bool
deriving DecidableEq

/-- A `key_info` value-initialised. -/
def KeyInfo.empty : KeyInfo where
  algorithm := 0
  privateKey := Vector.replicate 32 0
  metadata := ⟨Vector.replicate 33 0, 0, 0, 0, 0, 0, Vector.replicate 32 0, ∅⟩
  auxKeys := ⟨none, none⟩
  hasMetadata := false

/-- `det_key_persistency`: the keys of a player, by key id. -/
abbrev KeyStore := Std.ExtTreeMap Bytes KeyInfo

def KeyStore.preloadKey (s : KeyStore) (keyId : Bytes) (algorithm : UInt64) (privateKey : Scalar)
    (metadata : CmpKeyMetadata) : KeyStore :=
  s.insert keyId
    { s.getD keyId KeyInfo.empty with algorithm, privateKey, metadata, hasMetadata := true }

def KeyStore.preloadAux (s : KeyStore) (keyId : Bytes) (auxKeys : AuxiliaryKeys) : KeyStore :=
  s.insert keyId { s.getD keyId KeyInfo.empty with auxKeys }

/-- `append_paillier_pub` and `append_rp_pub`, which differ in the type of the key only. -/
def appendPublicKey (out : Bytes) : Option PublicKey → Bytes
  | none => appendU64 out 0
  | some pub =>
    match pub.serialized with
    | some buf => appendBlob out buf
    | none => appendU64 out 0

def appendPaillierPub (out : Bytes) (pub : Option PublicKey) : Bytes := appendPublicKey out pub

def appendRpPub (out : Bytes) (pub : Option PublicKey) : Bytes := appendPublicKey out pub

def appendPlayerInfo (acc : Bytes) (p : UInt64 × CmpPlayerInfo) : Bytes :=
  let acc := appendU64 acc p.1
  let acc := appendBytes acc p.2.publicShare.toList
  let acc := appendPaillierPub acc p.2.paillier
  appendRpPub acc p.2.ringPedersen

def appendKeyMetadata (acc : Bytes) (md : CmpKeyMetadata) : Bytes :=
  let acc := appendBytes acc md.publicKey.toList
  let acc := appendU64 acc md.algorithm
  let acc := appendU64 acc md.t
  let acc := appendU64 acc md.n
  let acc := appendU64 acc md.flags
  let acc := appendU64 acc md.ttl
  let acc := appendBytes acc md.seed.toList
  md.playersInfo.toList.foldl appendPlayerInfo acc

/-- One turn of the loop of `det_key_persistency::digest`. -/
def appendKeyInfo (acc : Bytes) (p : Bytes × KeyInfo) : Bytes :=
  let info := p.2
  let acc := appendBlob acc p.1
  let acc := appendU64 acc info.algorithm
  let acc := appendBytes acc info.privateKey.toList
  let acc := appendU64 acc (if info.hasMetadata then 1 else 0)
  let acc := if info.hasMetadata then appendKeyMetadata acc info.metadata else acc
  let acc := appendU64 acc (if info.auxKeys.paillier.isSome then 1 else 0)
  let acc := appendU64 acc (if info.auxKeys.ringPedersen.isSome then 1 else 0)
  let acc := match info.auxKeys.paillier with
    | some key => appendPaillierPub acc key.getPublic
    | none => acc
  match info.auxKeys.ringPedersen with
  | some key => appendRpPub acc key.getPublic
  | none => acc

def KeyStore.digest (H : Hashes) (s : KeyStore) : Bytes :=
  sha256Hex H (s.toList.foldl appendKeyInfo [])

def aggregateKeyStoreDigest (H : Hashes) (stores : IdMap KeyStore) : Bytes :=
  sha256Hex H (stores.toList.foldl (fun acc p =>
    appendBlob (appendU64 acc p.1) (KeyStore.digest H p.2)) [])

end MpcHunt.Harness
