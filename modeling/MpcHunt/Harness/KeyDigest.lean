/-
What the digest of a key store is taken of: which contents the string that
`det_key_persistency::digest` accumulates records, and when equal strings mean
equal contents. Nothing in it says how many players a key has, and an absent
public key is written as an empty one.
-/
import MpcHunt.Harness.Fingerprint
import MpcHunt.Harness.Library

namespace MpcHunt.Harness

open Words

/-! ## What is recorded of a key -/

structure RecordedKey where
  algorithm : UInt64
  privateKey : Scalar
  metadata : Option CmpKeyMetadata
  auxKeys : AuxiliaryKeys
deriving DecidableEq

/-- The metadata of a key that has none is not looked at. -/
def KeyInfo.recorded (info : KeyInfo) : RecordedKey :=
  ⟨info.algorithm, info.privateKey, if info.hasMetadata then some info.metadata else none, info.auxKeys⟩

def KeyStore.recorded (s : KeyStore) : Std.ExtTreeMap Bytes RecordedKey := s.map fun _ => KeyInfo.recorded

/-- What `digest` hashes. -/
def KeyStore.accumulated (s : KeyStore) : Bytes := s.toList.foldl appendKeyInfo []

/-! ## How it is written -/

/-- What is written of a public key. -/
def written (pub : Option PublicKey) : Bytes := (pub.bind PublicKey.serialized).getD []

/-- Whether a public key is absent, does not serialize, or does. -/
def kind (pub : Option PublicKey) : Option Bool := pub.map fun k => k.serialized.isSome

/-- A public key of a given kind is what is written of it. -/
theorem eq_of_written {a b : Option PublicKey} (hkind : kind a = kind b)
    (h : written a = written b) : a = b := by
  rcases a with _ | ⟨_ | a⟩ <;> rcases b with _ | ⟨_ | b⟩ <;> simp_all [kind, written]

def blob (b : Bytes) : Bytes := be64 (sizeT b) ++ b

/-- A string whose size is a `size_t`. -/
def Sized (b : Bytes) : Prop := b.length < 2 ^ 64

theorem blob_append_inj {a b s t : Bytes} (ha : Sized a) (hb : Sized b) :
    blob a ++ s = blob b ++ t ↔ a = b ∧ s = t := by
  refine ⟨fun h => ?_, fun h => by rw [h.1, h.2]⟩
  simp only [blob, List.append_assoc, be64_append_inj] at h
  have hsize := congrArg UInt64.toNat h.1
  have hlen : a.length = b.length := by
    simp only [sizeT, UInt64.toNat_ofNat', Nat.mod_eq_of_lt ha, Nat.mod_eq_of_lt hb] at hsize
    exact hsize
  exact (append_inj_of_length hlen).1 h.2

theorem appendPublicKey_eq (out : Bytes) (pub : Option PublicKey) :
    appendPublicKey out pub = out ++ blob (written pub) := by
  rcases pub with _ | ⟨_ | b⟩
  · rfl
  · rfl
  · exact List.append_assoc _ _ _

def CmpPlayerInfo.bytes (p : UInt64 × CmpPlayerInfo) : Bytes :=
  be64 p.1 ++ (p.2.publicShare.toList ++ (blob (written p.2.paillier) ++
    blob (written p.2.ringPedersen)))

def CmpKeyMetadata.bytes (md : CmpKeyMetadata) : Bytes :=
  md.publicKey.toList ++ (be64 md.algorithm ++ (be64 md.t ++ (be64 md.n ++ (be64 md.flags ++
    (be64 md.ttl ++ (md.seed.toList ++ md.playersInfo.toList.flatMap CmpPlayerInfo.bytes))))))

/-- A flag as the number written of it. -/
def flag (b : Bool) : UInt64 := if b then 1 else 0

theorem flag_inj {a b : Bool} : flag a = flag b ↔ a = b := by
  cases a <;> cases b <;> decide

/-- The public half of a private key, where there is one. -/
def publicHalf : Option PrivateKey → Bytes
  | some key => blob (written key.getPublic)
  | none => []

def RecordedKey.bytes (p : Bytes × RecordedKey) : Bytes :=
  blob p.1 ++ (be64 p.2.algorithm ++ (p.2.privateKey.toList ++ (be64 (flag p.2.metadata.isSome) ++
    ((p.2.metadata.map CmpKeyMetadata.bytes).getD [] ++
      (be64 (flag p.2.auxKeys.paillier.isSome) ++ (be64 (flag p.2.auxKeys.ringPedersen.isSome) ++
        (publicHalf p.2.auxKeys.paillier ++ publicHalf p.2.auxKeys.ringPedersen)))))))

theorem appendKeyMetadata_eq (acc : Bytes) (md : CmpKeyMetadata) :
    appendKeyMetadata acc md = acc ++ md.bytes := by
  have hplayer : ∀ acc p, appendPlayerInfo acc p = acc ++ CmpPlayerInfo.bytes p := by
    intro acc p
    simp only [appendPlayerInfo, appendPaillierPub, appendRpPub, appendPublicKey_eq, appendU64,
      appendBytes, CmpPlayerInfo.bytes, List.append_assoc]
  unfold appendKeyMetadata
  simp only [foldl_append hplayer]
  simp only [appendU64, appendBytes, CmpKeyMetadata.bytes, List.append_assoc]

theorem appendKeyInfo_eq (acc : Bytes) (p : Bytes × KeyInfo) :
    appendKeyInfo acc p = acc ++ RecordedKey.bytes (p.1, p.2.recorded) := by
  obtain ⟨keyId, algorithm, privateKey, metadata, ⟨paillier, ringPedersen⟩, hasMetadata⟩ := p
  unfold appendKeyInfo RecordedKey.bytes
  simp only [appendKeyMetadata_eq, appendPaillierPub, appendRpPub, appendPublicKey_eq, appendBlob,
    appendU64, appendBytes]
  cases hasMetadata <;> cases paillier <;> cases ringPedersen <;>
    simp [KeyInfo.recorded, flag, publicHalf, blob]

/-- What is written is what is recorded. -/
theorem KeyStore.accumulated_eq (s : KeyStore) :
    s.accumulated = s.recorded.toList.flatMap RecordedKey.bytes := by
  unfold KeyStore.recorded
  rw [Std.ExtTreeMap.toList_map, List.flatMap_map]
  exact (foldl_append appendKeyInfo_eq [] s.toList).trans (List.nil_append _)

/-! ## Keys of one layout -/

/-- What the string does not say of a key: how many players its metadata lists, and which
public keys are absent. -/
structure KeyLayout where
  players : List (Option Bool × Option Bool)
  paillier : Option Bool
  ringPedersen : Option Bool
deriving DecidableEq

def CmpPlayerInfo.kinds (p : UInt64 × CmpPlayerInfo) : Option Bool × Option Bool :=
  (kind p.2.paillier, kind p.2.ringPedersen)

/-- The public half of an auxiliary key. -/
def halfOf (key : Option PrivateKey) : Option PublicKey := key.bind PrivateKey.getPublic

def RecordedKey.layout (k : RecordedKey) : KeyLayout where
  players := (k.metadata.map fun md => md.playersInfo.toList.map CmpPlayerInfo.kinds).getD []
  paillier := kind (halfOf k.auxKeys.paillier)
  ringPedersen := kind (halfOf k.auxKeys.ringPedersen)

/-- The layouts of the keys, in the order of their ids. -/
def KeyStore.layout (s : KeyStore) : List KeyLayout :=
  s.recorded.toList.map fun p => p.2.layout

def CmpPlayerInfo.Sized (p : UInt64 × CmpPlayerInfo) : Prop :=
  Harness.Sized (written p.2.paillier) ∧ Harness.Sized (written p.2.ringPedersen)

def RecordedKey.Sized (p : Bytes × RecordedKey) : Prop :=
  Harness.Sized p.1 ∧ (∀ md ∈ p.2.metadata, ∀ q ∈ md.playersInfo.toList, CmpPlayerInfo.Sized q) ∧
    Harness.Sized (written (halfOf p.2.auxKeys.paillier)) ∧
    Harness.Sized (written (halfOf p.2.auxKeys.ringPedersen))

/-- The sizes of a store's strings are `size_t`s, as those of every string are. -/
def KeyStore.Sized (s : KeyStore) : Prop := ∀ p ∈ s.recorded.toList, RecordedKey.Sized p

theorem CmpPlayerInfo.bytes_inj (p q : UInt64 × CmpPlayerInfo) (hp : CmpPlayerInfo.Sized p)
    (hq : CmpPlayerInfo.Sized q) (hkinds : CmpPlayerInfo.kinds p = CmpPlayerInfo.kinds q) (s t : Bytes)
    (h : CmpPlayerInfo.bytes p ++ s = CmpPlayerInfo.bytes q ++ t) : p = q ∧ s = t := by
  obtain ⟨pid, ⟨pshare, ppaillier, prp⟩⟩ := p
  obtain ⟨qid, ⟨qshare, qpaillier, qrp⟩⟩ := q
  simp only [CmpPlayerInfo.bytes, List.append_assoc, be64_append_inj, vector_append_inj,
    blob_append_inj hp.1 hq.1, blob_append_inj hp.2 hq.2] at h
  simp only [CmpPlayerInfo.kinds, Prod.mk.injEq] at hkinds
  obtain ⟨rfl, rfl, hpaillier, hrp, rfl⟩ := h
  rw [eq_of_written hkinds.1 hpaillier, eq_of_written hkinds.2 hrp]
  exact ⟨rfl, rfl⟩

theorem CmpKeyMetadata.bytes_inj {x y : CmpKeyMetadata}
    (hx : ∀ p ∈ x.playersInfo.toList, CmpPlayerInfo.Sized p)
    (hy : ∀ p ∈ y.playersInfo.toList, CmpPlayerInfo.Sized p)
    (hplayers : x.playersInfo.toList.map CmpPlayerInfo.kinds =
      y.playersInfo.toList.map CmpPlayerInfo.kinds) {s t : Bytes}
    (h : x.bytes ++ s = y.bytes ++ t) : x = y ∧ s = t := by
  obtain ⟨xkey, xalg, xt, xn, xflags, xttl, xseed, xplayers⟩ := x
  obtain ⟨ykey, yalg, yt, yn, yflags, yttl, yseed, yplayers⟩ := y
  simp only [CmpKeyMetadata.bytes, List.append_assoc, be64_append_inj, vector_append_inj,
    flatMap_append_inj_of CmpPlayerInfo.bytes_inj hx hy hplayers,
    Std.ExtTreeMap.toList_inj] at h
  obtain ⟨rfl, rfl, rfl, rfl, rfl, rfl, rfl, rfl, rfl⟩ := h
  exact ⟨rfl, rfl⟩

theorem metadata_inj {a b : Option CmpKeyMetadata}
    (ha : ∀ md ∈ a, ∀ p ∈ md.playersInfo.toList, CmpPlayerInfo.Sized p)
    (hb : ∀ md ∈ b, ∀ p ∈ md.playersInfo.toList, CmpPlayerInfo.Sized p)
    (hsome : a.isSome = b.isSome)
    (hplayers : (a.map fun md => md.playersInfo.toList.map CmpPlayerInfo.kinds).getD [] =
      (b.map fun md => md.playersInfo.toList.map CmpPlayerInfo.kinds).getD []) {s t : Bytes}
    (h : (a.map CmpKeyMetadata.bytes).getD [] ++ s = (b.map CmpKeyMetadata.bytes).getD [] ++ t) :
    a = b ∧ s = t := by
  rcases a with _ | a
  · rcases b with _ | b
    · exact ⟨rfl, h⟩
    · cases hsome
  · rcases b with _ | b
    · cases hsome
    · obtain ⟨hab, hst⟩ := CmpKeyMetadata.bytes_inj (ha a rfl) (hb b rfl) hplayers h
      exact ⟨by rw [hab], hst⟩

/-- An auxiliary key of a given kind is what is written of it and of whether there is one. -/
theorem publicHalf_inj {a b : Option PrivateKey} (ha : Sized (written (halfOf a)))
    (hb : Sized (written (halfOf b))) (hsome : a.isSome = b.isSome)
    (hkind : kind (halfOf a) = kind (halfOf b)) {s t : Bytes}
    (h : publicHalf a ++ s = publicHalf b ++ t) : a = b ∧ s = t := by
  rcases a with _ | ⟨a⟩
  · rcases b with _ | ⟨b⟩
    · exact ⟨rfl, h⟩
    · cases hsome
  · rcases b with _ | ⟨b⟩
    · cases hsome
    · obtain ⟨hw, hst⟩ := (blob_append_inj ha hb).1 h
      have hpublic : a.getPublic = b.getPublic := eq_of_written hkind hw
      obtain ⟨a⟩ := a
      obtain ⟨b⟩ := b
      obtain rfl : a = b := hpublic
      exact ⟨rfl, hst⟩

/-- Keys of one layout can be told apart from their front. -/
theorem RecordedKey.bytes_inj (p q : Bytes × RecordedKey) (hp : RecordedKey.Sized p)
    (hq : RecordedKey.Sized q) (hl : p.2.layout = q.2.layout) (s t : Bytes)
    (h : RecordedKey.bytes p ++ s = RecordedKey.bytes q ++ t) : p = q ∧ s = t := by
  obtain ⟨pid, palg, ppriv, pmd, ⟨ppaillier, prp⟩⟩ := p
  obtain ⟨qid, qalg, qpriv, qmd, ⟨qpaillier, qrp⟩⟩ := q
  obtain ⟨hpid, hpmd, hppaillier, hprp⟩ := hp
  obtain ⟨hqid, hqmd, hqpaillier, hqrp⟩ := hq
  simp only [RecordedKey.layout, KeyLayout.mk.injEq] at hl
  obtain ⟨hplayers, hpaillier, hrp⟩ := hl
  simp only [RecordedKey.bytes, List.append_assoc, blob_append_inj hpid hqid, be64_append_inj,
    vector_append_inj, flag_inj] at h
  obtain ⟨rfl, rfl, rfl, hmd, h⟩ := h
  obtain ⟨rfl, hflags⟩ := metadata_inj hpmd hqmd hmd hplayers h
  simp only [be64_append_inj, flag_inj] at hflags
  obtain ⟨hfirst, hsecond, hhalves⟩ := hflags
  obtain ⟨rfl, hsecondHalf⟩ := publicHalf_inj hppaillier hqpaillier hfirst hpaillier hhalves
  obtain ⟨rfl, hrest⟩ := publicHalf_inj hprp hqrp hsecond hrp hsecondHalf
  exact ⟨rfl, hrest⟩

/-- **When the digest determines what it records.** Of two stores with equal strings: where
the keys, in the order of their ids, have as many players each and the same public keys
absent. -/
theorem recorded_iff_layout {s s' : KeyStore} (hs : s.Sized) (hs' : s'.Sized)
    (h : s.accumulated = s'.accumulated) : s.recorded = s'.recorded ↔ s.layout = s'.layout := by
  refine ⟨fun hr => ?_, fun hl => ?_⟩
  · unfold KeyStore.layout
    rw [hr]
  · rw [KeyStore.accumulated_eq, KeyStore.accumulated_eq] at h
    have happend := (flatMap_append_inj_of RecordedKey.bytes_inj hs hs' hl (s := []) (t := [])).1
      (by rw [h])
    exact Std.ExtTreeMap.toList_inj.1 happend.1

/-! ## Stores of one digest -/

namespace OneKey

/-- A store of one key with metadata. -/
def store (playersInfo : List (UInt64 × CmpPlayerInfo)) (paillier : Option PrivateKey) : KeyStore :=
  let metadata : CmpKeyMetadata :=
    ⟨Vector.replicate 33 0, 0, 2, 2, 0, 0, Vector.replicate 32 0,
      playersInfo.foldl (fun infos p => infos.insert p.1 p.2) ∅⟩
  KeyStore.preloadAux (KeyStore.preloadKey ∅ (str "opus-key") 0 (Vector.replicate 32 0) metadata)
    (str "opus-key") ⟨paillier, none⟩

def key (serialized : Bytes) : PublicKey := ⟨some serialized⟩

def player (share : Bytes) (paillier : Option PublicKey) : CmpPlayerInfo :=
  ⟨memcpy 33 share, paillier, some (key [9])⟩

/-- The tail of a player record, from its share on, and the flags of a key without
auxiliary keys. -/
def tail : Bytes := List.replicate 17 0 ++ (blob [7] ++ (blob [9] ++ List.replicate 16 0))

/-- One player, and an auxiliary key whose public half is `tail`. -/
def onePlayer : KeyStore :=
  store [(0, player [] (some (key [7])))] (some ⟨some (key tail)⟩)

/-- Two players, and no auxiliary keys. -/
def twoPlayers : KeyStore :=
  store [(0, player [] (some (key [7]))), (1, player (be64 0 ++ be64 (sizeT tail)) (some (key [7])))]
    none

theorem sized : onePlayer.Sized ∧ twoPlayers.Sized := by
  unfold KeyStore.Sized RecordedKey.Sized CmpPlayerInfo.Sized Harness.Sized
  decide +kernel

theorem accumulated : onePlayer.accumulated = twoPlayers.accumulated := by decide +kernel

end OneKey

/-- Two stores of one string and of two layouts. -/
theorem recorded_iff_layout_oneKey :
    OneKey.onePlayer.recorded = OneKey.twoPlayers.recorded ↔
      OneKey.onePlayer.layout = OneKey.twoPlayers.layout :=
  recorded_iff_layout OneKey.sized.1 OneKey.sized.2 OneKey.accumulated

/-- Two stores that the digest does not tell apart: one player with an auxiliary key, or two
players; and one player without a public key, or with an empty one. -/
theorem digest_ambiguous :
    (OneKey.onePlayer.accumulated = OneKey.twoPlayers.accumulated ∧
      OneKey.onePlayer.recorded ≠ OneKey.twoPlayers.recorded) ∧
      (OneKey.store [(0, OneKey.player [] none)] none).accumulated =
          (OneKey.store [(0, OneKey.player [] (some (OneKey.key [])))] none).accumulated ∧
        (OneKey.store [(0, OneKey.player [] none)] none).recorded ≠
          (OneKey.store [(0, OneKey.player [] (some (OneKey.key [])))] none).recorded := by
  decide +kernel

end MpcHunt.Harness
