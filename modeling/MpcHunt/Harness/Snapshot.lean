/-
`snapshot.cpp`: the bytes of a snapshot file, how they are read back, and what
is checked of a snapshot before it is used.
-/
import MpcHunt.Harness.Library

namespace MpcHunt.Harness

open Words

def snapshotMagic : Bytes := str "OCMPSNAP"
def snapshotFormatVersion : UInt32 := 1

/-! ## The file -/

def putU32 (b : Bytes) (v : UInt32) : Bytes := b ++ be32 v

def putU64 (b : Bytes) (v : UInt64) : Bytes := b ++ be64 v

def putBlob (b v : Bytes) : Bytes := putU32 b (.ofNat v.length) ++ v

def putPlayer (b : Bytes) (p : SnapshotPlayer) : Bytes :=
  let b := putU64 b p.id
  let b := putBlob b p.share
  let b := putBlob b p.publicShare
  let b := putBlob b p.paillierPub
  let b := putBlob b p.paillierPriv
  let b := putBlob b p.rpPub
  putBlob b p.rpPriv

/-- The bytes `write_snapshot` writes. -/
def writeSnapshot (s : Snapshot) : Bytes :=
  let b := snapshotMagic
  let b := putU32 b snapshotFormatVersion
  let b := putU32 b s.algorithm
  let b := putBlob b s.publicKey
  let b := putBlob b s.seed
  let b := putU32 b s.t.toUInt32
  let b := putU32 b s.n.toUInt32
  let b := putU32 b (.ofNat s.players.length)
  s.players.foldl putPlayer b

/-- `reader`: the bytes not read yet. -/
structure Reader where
  p : Bytes
  ok : Bool

def Reader.u32 (r : Reader) : UInt32 × Reader :=
  if r.p.length < 4 then (0, { r with ok := false })
  else ((r.p.take 4).foldl (fun v b => (v <<< 8) ||| b.toUInt32) 0, { r with p := r.p.drop 4 })

def Reader.u64 (r : Reader) : UInt64 × Reader :=
  if r.p.length < 8 then (0, { r with ok := false })
  else ((r.p.take 8).foldl (fun v b => (v <<< 8) ||| b.toUInt64) 0, { r with p := r.p.drop 8 })

def Reader.blob (r : Reader) : Bytes × Reader :=
  let (n, r) := r.u32
  if ¬ r.ok ∨ r.p.length < n.toNat then ([], { r with ok := false })
  else (r.p.take n.toNat, { r with p := r.p.drop n.toNat })

def Reader.player (r : Reader) : SnapshotPlayer × Reader :=
  let (id, r) := r.u64
  let (share, r) := r.blob
  let (publicShare, r) := r.blob
  let (paillierPub, r) := r.blob
  let (paillierPriv, r) := r.blob
  let (rpPub, r) := r.blob
  let (rpPriv, r) := r.blob
  (⟨id, share, publicShare, paillierPub, paillierPriv, rpPub, rpPriv⟩, r)

/-- The loop over the player records. -/
def Reader.players : Nat → Reader → Except Bytes (List SnapshotPlayer × Reader)
  | 0, r => .ok ([], r)
  | count + 1, r =>
    let (p, r) := r.player
    if ¬ r.ok then .error (str "truncated snapshot player record")
    else do
      let (ps, r) ← Reader.players count r
      pure (p :: ps, r)

/-- `read_snapshot` on the bytes of the file. -/
def readSnapshot (b : Bytes) : Except Bytes Snapshot :=
  if b.take 8 ≠ snapshotMagic then .error (str "bad snapshot magic")
  else
    let r : Reader := ⟨b.drop 8, true⟩
    let (fmt, r) := r.u32
    if fmt ≠ snapshotFormatVersion then
      .error (str "unsupported snapshot format " ++ toStr fmt.toNat)
    else
      let (algorithm, r) := r.u32
      let (publicKey, r) := r.blob
      let (seed, r) := r.blob
      let (t, r) := r.u32
      let (n, r) := r.u32
      let (count, r) := r.u32
      if ¬ r.ok then .error (str "truncated snapshot header")
      else
        match Reader.players count.toNat r with
        | .error err => .error err
        | .ok (players, r) =>
          if r.p ≠ [] then .error (str "trailing bytes in snapshot")
          else .ok ⟨algorithm, publicKey, seed, t.toUInt8, n.toUInt8, players⟩

/-! ## The checks -/

/-- The curve operations `verify_snapshot` calls. -/
structure SnapshotCurve where
  /-- `generator_mul`. -/
  generatorMul : Scalar → Option Point
  /-- `add_scalars`. -/
  addScalars : Scalar → Scalar → Option Scalar

/-- `ser_paillier_pub` and `ser_rp_pub`: an object that does not serialize, or to nothing,
fails. -/
def serPub (k : Option PublicKey) : Option Bytes :=
  match k.bind PublicKey.serialized with
  | none => none
  | some [] => none
  | some out => some out

/-- The checks on one player; the sum of the designated signers' shares so far. -/
def verifyPlayer (C : SnapshotCurve) (K : KeyCodec) (designated : Bool) (p : SnapshotPlayer)
    (sum : Option Scalar) : Except Bytes (Option Scalar) :=
  if p.share.length ≠ 32 then .error (str "bad share length")
  else if p.publicShare.length ≠ 33 then .error (str "bad public_share length")
  else
    let x : Scalar := memcpy 32 p.share
    match C.generatorMul x with
    | none => .error (str "generator_mul failed while verifying player " ++ toStr p.id.toNat)
    | some expect =>
      if expect.toList ≠ p.publicShare then
        .error (str "public_share != g^share for player " ++ toStr p.id.toNat)
      else
        let sum' : Option (Option Scalar) :=
          if designated then
            match sum with
            | none => some (some x)
            | some sum => (C.addScalars sum x).map some
          else some sum
        match sum' with
        | none => .error (str "add_scalars failed")
        | some sum' =>
          match K.paillierPrivate p.paillierPriv with
          | none => .error (str "paillier private deserialize failed for player " ++ toStr p.id.toNat)
          | some ppriv =>
            match serPub ppriv.getPublic with
            | none => .error (str "paillier public projection failed")
            | some derivedPub =>
              if derivedPub ≠ p.paillierPub then
                .error (str "paillier public != public(private) for player " ++ toStr p.id.toNat)
              else
                match K.ringPedersenPrivate p.rpPriv with
                | none =>
                  .error (str "ring pedersen private deserialize failed for player " ++
                    toStr p.id.toNat)
                | some rpriv =>
                  match serPub rpriv.getPublic with
                  | none => .error (str "ring pedersen public projection failed")
                  | some derivedRp =>
                    if derivedRp ≠ p.rpPub then
                      .error (str "ring pedersen public != public(private) for player " ++
                        toStr p.id.toNat)
                    else .ok sum'

/-- The loop over the players; `left` of them are still designated signers. -/
def verifyPlayers (C : SnapshotCurve) (K : KeyCodec) :
    Nat → List SnapshotPlayer → Option Scalar → Except Bytes (Option Scalar)
  | _, [], sum => .ok sum
  | left, p :: ps, sum => do
    let sum ← verifyPlayer C K (left ≠ 0) p sum
    verifyPlayers C K (left - 1) ps sum

def verifySnapshot (C : SnapshotCurve) (K : KeyCodec) (s : Snapshot) : Except Bytes Unit := do
  if s.players.length < 2 then throw (str "fewer than 2 players")
  if s.t.toNat < 2 ∨ s.t.toNat > s.players.length then throw (str "t outside 2..player count")
  if s.n.toNat ≠ s.players.length then throw (str "n != player count")
  if s.publicKey.length ≠ 33 then throw (str "bad public key length")
  if s.seed.length ≠ 32 then throw (str "bad seed length")
  let sum ← verifyPlayers C K s.t.toNat s.players none
  match C.generatorMul (sum.getD (Vector.replicate 32 0)) with
  | none => throw (str "generator_mul failed for aggregate")
  | some X => if X.toList ≠ s.publicKey then throw (str "public_key != g^(sum of shares)")

end MpcHunt.Harness
