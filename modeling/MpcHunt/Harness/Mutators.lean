/-
`mutators.cpp`: the changes a malicious peer makes to what it sends. Each
`apply` answers whether it changed something, and the messages after it.
-/
import MpcHunt.Harness.Types

namespace MpcHunt.Harness

inductive WireField where
  | r1MtaMessage | r1MtaCommitment | r1MtaProof | r1MtaProofsEntry
  | r1PointA | r1PointB | r1PointZ
  | r2Ack | r2KGammaMtaMessage | r2KXMtaMessage | r2Gamma | r2GammaProofsEntry
  | r3Delta | r3DeltaPoint | r3Proof
  | r4Si
deriving DecidableEq, Repr

inductive WireOp where
  | none | flipBit | zero | truncate | extraMapKey
deriving DecidableEq, Repr

structure Mutation where
  round : Int
  attacker : UInt64
  field : WireField
  op : WireOp
  block : Nat
  byteIndex : Nat
  bit : UInt8
deriving DecidableEq

def Mutation.enabled (m : Mutation) : Bool := m.round ≠ 0 && m.op ≠ .none

/-- `1u << (bit & 7)`. -/
def bitMask (bit : UInt8) : UInt8 := 1 <<< (bit &&& 7)

/-- `flip_in` on a byte vector. -/
def flipIn (v : Bytes) (idx : Nat) (bit : UInt8) : Bool × Bytes :=
  if v = [] then (false, v) else (true, v.modify (idx % v.length) (· ^^^ bitMask bit))

/-- `zero_in` on a byte vector. -/
def zeroIn (v : Bytes) : Bool × Bytes :=
  if v = [] then (false, v) else (true, List.replicate v.length 0)

/-- `flip_in` on a fixed array. -/
def flipArray {n : Nat} (v : Vector UInt8 n) (idx : Nat) (bit : UInt8) : Bool × Vector UInt8 n :=
  if h : n = 0 then (false, v)
  else
    have hlt : idx % n < n := Nat.mod_lt idx (Nat.pos_of_ne_zero h)
    (true, v.set (idx % n) (v[idx % n] ^^^ bitMask bit) hlt)

/-- `zero_in` on a fixed array. -/
def zeroArray {n : Nat} (v : Vector UInt8 n) : Bool × Vector UInt8 n :=
  if n = 0 then (false, v) else (true, Vector.replicate n 0)

def applyToBytes (m : Mutation) (v : Bytes) : Bool × Bytes :=
  match m.op with
  | .flipBit => flipIn v m.byteIndex m.bit
  | .zero => zeroIn v
  | .truncate => if v = [] then (false, v) else (true, v.take (m.byteIndex % v.length))
  | _ => (false, v)

/-- `apply_to_point` and `apply_to_scalar`, which differ in the length of the array. -/
def applyToArray {n : Nat} (m : Mutation) (v : Vector UInt8 n) : Bool × Vector UInt8 n :=
  match m.op with
  | .flipBit => flipArray v m.byteIndex m.bit
  | .zero => zeroArray v
  | _ => (false, v)

def applyToPoint (m : Mutation) (p : Point) : Bool × Point := applyToArray m p

def applyToScalar (m : Mutation) (s : Scalar) : Bool × Scalar := applyToArray m s

/-- A change of one entry of a map, if it is there. -/
def applyToEntry {β : Type} (entries : IdMap β) (key : UInt64) (f : β → Bool × β) :
    Bool × IdMap β :=
  match entries[key]? with
  | none => (false, entries)
  | some e => let r := f e; (r.1, entries.insert key r.2)

/-- A change of one block of the attacker's slot, if there is such a block. -/
def applyToBlock {β : Type} (m : Mutation) (slots : IdMap (List β)) (f : β → Bool × β) :
    Bool × IdMap (List β) :=
  applyToEntry slots m.attacker fun blocks =>
    match blocks[m.block]? with
    | none => (false, blocks)
    | some b => let r := f b; (r.1, blocks.set m.block r.2)

def applyR1 (m : Mutation) (requests : IdMap (List CmpMtaRequest)) (victim : UInt64) :
    Bool × IdMap (List CmpMtaRequest) :=
  if m.round ≠ 1 ∨ ¬ m.enabled then (false, requests)
  else applyToBlock m requests fun req =>
    match m.field with
    | .r1MtaMessage =>
      let r := applyToBytes m req.mta.message; (r.1, { req with mta.message := r.2 })
    | .r1MtaCommitment =>
      let r := applyToBytes m req.mta.commitment; (r.1, { req with mta.commitment := r.2 })
    | .r1MtaProof =>
      let r := applyToBytes m req.mta.proof; (r.1, { req with mta.proof := r.2 })
    | .r1MtaProofsEntry =>
      let r := applyToEntry req.mtaProofs victim (applyToBytes m)
      (r.1, { req with mtaProofs := r.2 })
    | .r1PointA => let r := applyToPoint m req.A; (r.1, { req with A := r.2 })
    | .r1PointB => let r := applyToPoint m req.B; (r.1, { req with B := r.2 })
    | .r1PointZ => let r := applyToPoint m req.Z; (r.1, { req with Z := r.2 })
    | _ => (false, req)

/-- The fields of one response. -/
def applyToResponse (m : Mutation) (victim : UInt64) (resp : CmpMtaResponse) :
    Bool × CmpMtaResponse :=
  match m.field with
  | .r2KGammaMtaMessage =>
    let r := applyToEntry resp.kGammaMta victim fun e =>
      let r := applyToBytes m e.message; (r.1, { e with message := r.2 })
    (r.1, { resp with kGammaMta := r.2 })
  | .r2KXMtaMessage =>
    let r := applyToEntry resp.kXMta victim fun e =>
      let r := applyToBytes m e.message; (r.1, { e with message := r.2 })
    (r.1, { resp with kXMta := r.2 })
  | .r2Gamma => let r := applyToPoint m resp.GAMMA; (r.1, { resp with GAMMA := r.2 })
  | .r2GammaProofsEntry =>
    let r := applyToEntry resp.gammaProofs victim (applyToBytes m)
    (r.1, { resp with gammaProofs := r.2 })
  | _ => (false, resp)

def applyR2 (m : Mutation) (responses : IdMap CmpMtaResponses) (victim : UInt64) :
    Bool × IdMap CmpMtaResponses :=
  if m.round ≠ 2 ∨ ¬ m.enabled then (false, responses)
  else applyToEntry responses m.attacker fun r =>
    if m.field = .r2Ack then
      let a := applyToArray m r.ack; (a.1, { r with ack := a.2 })
    else
      match r.response[m.block]? with
      | none => (false, r)
      | some resp =>
        let a := applyToResponse m victim resp
        (a.1, { r with response := r.response.set m.block a.2 })

def applyR3 (m : Mutation) (deltas : IdMap (List CmpMtaDeltas)) :
    Bool × IdMap (List CmpMtaDeltas) :=
  if m.round ≠ 3 ∨ ¬ m.enabled then (false, deltas)
  else applyToBlock m deltas fun d =>
    match m.field with
    | .r3Delta => let r := applyToScalar m d.delta; (r.1, { d with delta := r.2 })
    | .r3DeltaPoint => let r := applyToPoint m d.DELTA; (r.1, { d with DELTA := r.2 })
    | .r3Proof => let r := applyToBytes m d.proof; (r.1, { d with proof := r.2 })
    | _ => (false, d)

/-- `std::set_difference` of two sorted ranges. -/
def setDifference : List UInt64 → List UInt64 → List UInt64
  | [], _ => []
  | a :: as, [] => a :: as
  | a :: as, b :: bs =>
    if a < b then a :: setDifference as (b :: bs)
    else if b < a then setDifference (a :: as) bs
    else setDifference as bs
termination_by as bs => as.length + bs.length

/-- `std::sort`. -/
def sortIds (ids : List UInt64) : List UInt64 := ids.insertionSort fun a b => a ≤ b

def applyR4 (m : Mutation) (sis : IdMap (List Scalar)) (fixturePlayerIds signerIds : List UInt64) :
    Bool × IdMap (List Scalar) :=
  if m.round ≠ 4 ∨ ¬ m.enabled then (false, sis)
  else if m.field ≠ .r4Si then (false, sis)
  else if m.op = .extraMapKey then
    match setDifference (sortIds fixturePlayerIds) (sortIds signerIds) with
    | [] => (false, sis)
    | extra :: _ =>
      if extra ∉ sortIds fixturePlayerIds then (false, sis)
      else if sis.contains extra then (false, sis)
      else (true, sis.insert extra [Vector.replicate 32 0])
  else applyToBlock m sis fun s => applyToScalar m s

end MpcHunt.Harness
