/-
What the state-isolation oracle can see: which fields of a signing record
`append_signing_record` writes, and when equal fingerprints mean equal records.
It writes sizes in place of some contents, and some entries without their
number.
-/
import MpcHunt.Harness.DualSession
import MpcHunt.Lib.Dict

namespace MpcHunt.Harness

open Words

/-! ## What is written of a record -/

structure ShownPublicData where
  A : Point
  B : Point
  Z : Point
  GAMMA : Point
  gammaCommitment : UInt64
deriving DecidableEq

/-- A block of a record with its contents of no fixed size replaced by their sizes, the
path apart. -/
structure ShownSigData where
  flags : UInt32
  message : Scalar
  R : Point
  path : List UInt32
  k : Scalar
  gamma : Scalar
  a : Scalar
  b : Scalar
  delta : Scalar
  chi : Scalar
  GAMMA : Point
  mtaRequest : UInt64
  GProofs : List (UInt64 × UInt64)
  publicData : List (UInt64 × ShownPublicData)
deriving DecidableEq

structure ShownRecord where
  keyId : Bytes
  chaincode : HDChaincode
  ack : CommitmentsSha256
  version : UInt64
  signersIds : List UInt64
  sigData : List ShownSigData
deriving DecidableEq

def EcdsaSigningPublicData.shown (pd : EcdsaSigningPublicData) : ShownPublicData :=
  ⟨pd.A, pd.B, pd.Z, pd.GAMMA, sizeT pd.gammaCommitment⟩

def EcdsaSigningData.shown (sd : EcdsaSigningData) : ShownSigData where
  flags := sd.flags
  message := sd.message
  R := sd.R
  path := sd.path
  k := sd.k
  gamma := sd.gamma
  a := sd.a
  b := sd.b
  delta := sd.delta
  chi := sd.chi
  GAMMA := sd.GAMMA
  mtaRequest := sizeT sd.mtaRequest
  GProofs := sd.GProofs.toList.map fun p => (p.1, sizeT p.2)
  publicData := sd.publicData.toList.map fun p => (p.1, p.2.shown)

/-- What `append_signing_record` writes of a record. -/
def CmpSigningMetadata.shown (md : CmpSigningMetadata) : ShownRecord :=
  ⟨md.keyId, md.chaincode, md.ack, md.version, md.signersIds, md.sigData.map EcdsaSigningData.shown⟩

/-! ## How it is written -/

def ShownPublicData.bytes (p : UInt64 × ShownPublicData) : Bytes :=
  be64 p.1 ++ (p.2.A.toList ++ (p.2.B.toList ++ (p.2.Z.toList ++ (p.2.GAMMA.toList ++
    be64 p.2.gammaCommitment))))

def ShownSigData.bytes (sd : ShownSigData) : Bytes :=
  be64 sd.flags.toUInt64 ++ (sd.message.toList ++ (sd.R.toList ++ (be64 (sizeT sd.path) ++
    (sd.path.flatMap (fun p => be64 p.toUInt64) ++ (sd.k.toList ++ (sd.gamma.toList ++
      (sd.a.toList ++ (sd.b.toList ++ (sd.delta.toList ++ (sd.chi.toList ++ (sd.GAMMA.toList ++
        (be64 sd.mtaRequest ++ (sd.GProofs.flatMap (fun p => be64 p.1 ++ be64 p.2) ++
          sd.publicData.flatMap ShownPublicData.bytes)))))))))))))

/-- The bytes after the txid. -/
def ShownRecord.bytes (r : ShownRecord) : Bytes :=
  be64 (sizeT r.keyId) ++ (r.keyId ++ (r.chaincode.toList ++ (r.ack.toList ++ (be64 r.version ++
    (r.signersIds.flatMap be64 ++ (be64 (sizeT r.sigData) ++ r.sigData.flatMap ShownSigData.bytes))))))

theorem foldl_append {α : Type} {g : Bytes → α → Bytes} {f : α → Bytes}
    (h : ∀ acc x, g acc x = acc ++ f x) (acc : Bytes) (l : List α) :
    l.foldl g acc = acc ++ l.flatMap f := by
  induction l generalizing acc with
  | nil => simp
  | cons x l ih => rw [List.foldl_cons, ih, h, List.flatMap_cons, List.append_assoc]

theorem appendSigData_eq (acc : Bytes) (sd : EcdsaSigningData) :
    appendSigData acc sd = acc ++ sd.shown.bytes := by
  have hpath : ∀ acc (p : UInt32), appendU64 acc p.toUInt64 = acc ++ be64 p.toUInt64 :=
    fun _ _ => rfl
  have hproof : ∀ acc p, appendGProof acc p = acc ++ (be64 p.1 ++ be64 (sizeT p.2)) := by
    intro acc p
    exact List.append_assoc _ _ _
  have hpublic : ∀ acc p, appendPublicData acc p =
      acc ++ ShownPublicData.bytes (p.1, p.2.shown) := by
    intro acc p
    simp only [appendPublicData, appendU64, appendBytes, ShownPublicData.bytes,
      EcdsaSigningPublicData.shown, List.append_assoc]
  unfold appendSigData
  simp only [foldl_append hpath, foldl_append hproof, foldl_append hpublic]
  simp only [appendU64, appendBytes, ShownSigData.bytes, EcdsaSigningData.shown, List.append_assoc,
    List.flatMap_map]

/-- What is written is what is shown. -/
theorem appendSigningRecord_eq (acc txid : Bytes) (md : CmpSigningMetadata) :
    appendSigningRecord acc txid md =
      acc ++ (be64 (sizeT txid) ++ (txid ++ md.shown.bytes)) := by
  have hid : ∀ acc id, appendU64 acc id = acc ++ be64 id := fun _ _ => rfl
  unfold appendSigningRecord
  simp only [foldl_append hid, foldl_append appendSigData_eq]
  simp only [appendBlob, appendU64, appendBytes, ShownRecord.bytes, CmpSigningMetadata.shown,
    List.append_assoc, List.flatMap_map, sizeT, List.length_map]

/-! ## Layouts -/

/-- The numbers of entries of a block. -/
structure BlockLayout where
  path : Nat
  GProofs : Nat
  publicData : Nat
deriving DecidableEq

/-- The numbers of bytes of the key id, of signers and of the entries of each block. -/
structure Layout where
  keyId : Nat
  signersIds : Nat
  sigData : List BlockLayout
deriving DecidableEq

def ShownSigData.layout (sd : ShownSigData) : BlockLayout :=
  ⟨sd.path.length, sd.GProofs.length, sd.publicData.length⟩

def ShownRecord.layout (r : ShownRecord) : Layout :=
  ⟨r.keyId.length, r.signersIds.length, r.sigData.map ShownSigData.layout⟩

def EcdsaSigningData.layout (sd : EcdsaSigningData) : BlockLayout :=
  ⟨sd.path.length, sd.GProofs.toList.length, sd.publicData.toList.length⟩

def CmpSigningMetadata.layout (md : CmpSigningMetadata) : Layout :=
  ⟨md.keyId.length, md.signersIds.length, md.sigData.map EcdsaSigningData.layout⟩

theorem layout_shown (md : CmpSigningMetadata) : md.shown.layout = md.layout := by
  simp only [ShownRecord.layout, CmpSigningMetadata.shown, CmpSigningMetadata.layout, List.map_map]
  congr 1
  refine List.map_congr_left fun sd _ => ?_
  simp only [Function.comp_apply, ShownSigData.layout, EcdsaSigningData.shown,
    EcdsaSigningData.layout, List.length_map]

/-- The contents of a block that only their sizes are written of. -/
structure Unshown where
  mtaRequest : Bytes
  GProofs : List Bytes
  gammaCommitments : List Bytes
deriving DecidableEq

def EcdsaSigningData.unshown (sd : EcdsaSigningData) : Unshown where
  mtaRequest := sd.mtaRequest
  GProofs := sd.GProofs.toList.map Prod.snd
  gammaCommitments := sd.publicData.toList.map fun p => p.2.gammaCommitment

def CmpSigningMetadata.unshown (md : CmpSigningMetadata) : List Unshown :=
  md.sigData.map EcdsaSigningData.unshown

/-- Lists that agree in two respects, which together determine an element. -/
theorem eq_of_maps {α β γ : Type} {f : α → β} {g : α → γ}
    (hinj : ∀ a b, f a = f b → g a = g b → a = b) {l l' : List α} (hf : l.map f = l'.map f)
    (hg : l.map g = l'.map g) : l = l' := by
  induction l generalizing l' with
  | nil => exact (List.map_eq_nil_iff.1 hf.symm).symm
  | cons a l ih =>
    cases l' with
    | nil => cases hf
    | cons b l' =>
      obtain ⟨hfa, hf⟩ := List.cons.inj hf
      obtain ⟨hga, hg⟩ := List.cons.inj hg
      rw [hinj a b hfa hga, ih hf hg]

/-- A block is what is shown of it and what is not. -/
theorem EcdsaSigningData.eq_of_shown {x y : EcdsaSigningData} (h : x.shown = y.shown)
    (hu : x.unshown = y.unshown) : x = y := by
  obtain ⟨_, _, _, _, _, _, _, _, _, _, _, _, xproofs, xpublic⟩ := x
  obtain ⟨_, _, _, _, _, _, _, _, _, _, _, _, yproofs, ypublic⟩ := y
  simp only [EcdsaSigningData.shown, ShownSigData.mk.injEq] at h
  simp only [EcdsaSigningData.unshown, Unshown.mk.injEq] at hu
  obtain ⟨rfl, rfl, rfl, rfl, rfl, rfl, rfl, rfl, rfl, rfl, rfl, -, hproofs, hpublic⟩ := h
  obtain ⟨rfl, hproofs', hpublic'⟩ := hu
  have eproofs : xproofs = yproofs := Std.ExtTreeMap.toList_inj.1 <|
    eq_of_maps (fun a b h h' => Prod.ext (Prod.mk.inj h).1 h') hproofs hproofs'
  have epublic : xpublic = ypublic := by
    refine Std.ExtTreeMap.toList_inj.1 (eq_of_maps (fun a b h h' => ?_) hpublic hpublic')
    obtain ⟨hid, hpd⟩ := Prod.mk.inj h
    simp only [EcdsaSigningPublicData.shown, ShownPublicData.mk.injEq] at hpd
    obtain ⟨hA, hB, hZ, hG, -⟩ := hpd
    refine Prod.ext hid ?_
    obtain ⟨_, ⟨_, _, _, _, _⟩⟩ := a
    obtain ⟨_, ⟨_, _, _, _, _⟩⟩ := b
    exact EcdsaSigningPublicData.mk.injEq .. ▸ ⟨hA, hB, hZ, hG, h'⟩
  rw [eproofs, epublic]

theorem CmpSigningMetadata.eq_of_shown {x y : CmpSigningMetadata} (h : x.shown = y.shown)
    (hu : x.unshown = y.unshown) : x = y := by
  obtain ⟨_, _, _, _, _, xblocks⟩ := x
  obtain ⟨_, _, _, _, _, yblocks⟩ := y
  simp only [CmpSigningMetadata.shown, ShownRecord.mk.injEq] at h
  obtain ⟨rfl, rfl, rfl, rfl, rfl, hblocks⟩ := h
  obtain rfl : xblocks = yblocks :=
    eq_of_maps (fun _ _ => EcdsaSigningData.eq_of_shown) hblocks hu
  rfl

theorem map_const_of_length {α β : Type} {l l' : List α} {c : β} (h : l.length = l'.length) :
    l.map (fun _ => c) = l'.map (fun _ => c) := by
  rw [List.map_const', List.map_const', h]

theorem ShownPublicData.bytes_inj (p q : UInt64 × ShownPublicData) (s t : Bytes)
    (h : ShownPublicData.bytes p ++ s = ShownPublicData.bytes q ++ t) : p = q ∧ s = t := by
  obtain ⟨pid, ⟨pA, pB, pZ, pG, pc⟩⟩ := p
  obtain ⟨qid, ⟨qA, qB, qZ, qG, qc⟩⟩ := q
  simp only [ShownPublicData.bytes, List.append_assoc, be64_append_inj, vector_append_inj] at h
  obtain ⟨rfl, rfl, rfl, rfl, rfl, rfl, rfl⟩ := h
  exact ⟨rfl, rfl⟩

/-- Blocks of one layout can be told apart from their front. -/
theorem ShownSigData.bytes_inj (x y : ShownSigData) (hl : x.layout = y.layout) (s t : Bytes)
    (h : x.bytes ++ s = y.bytes ++ t) : x = y ∧ s = t := by
  simp only [ShownSigData.layout, BlockLayout.mk.injEq] at hl
  obtain ⟨hpath, hproofs, hpublic⟩ := hl
  have ipath : ∀ a b : UInt32, () = () → ∀ s t, be64 a.toUInt64 ++ s = be64 b.toUInt64 ++ t →
      a = b ∧ s = t := by
    intro a b _ s t h
    rw [be64_append_inj] at h
    exact ⟨UInt32.toUInt64_inj.1 h.1, h.2⟩
  have iproofs : ∀ a b : UInt64 × UInt64, () = () → ∀ s t,
      (be64 a.1 ++ be64 a.2) ++ s = (be64 b.1 ++ be64 b.2) ++ t → a = b ∧ s = t := by
    intro a b _ s t h
    simp only [List.append_assoc, be64_append_inj] at h
    exact ⟨Prod.ext h.1 h.2.1, h.2.2⟩
  have ipublic : ∀ a b : UInt64 × ShownPublicData, () = () → ∀ s t,
      ShownPublicData.bytes a ++ s = ShownPublicData.bytes b ++ t → a = b ∧ s = t :=
    fun a b _ s t h => ShownPublicData.bytes_inj a b s t h
  obtain ⟨_, _, _, _, _, _, _, _, _, _, _, _, _, _⟩ := x
  obtain ⟨_, _, _, _, _, _, _, _, _, _, _, _, _, _⟩ := y
  simp only [ShownSigData.bytes, List.append_assoc, be64_append_inj, vector_append_inj,
    UInt32.toUInt64_inj, flatMap_append_inj ipath (map_const_of_length hpath),
    flatMap_append_inj iproofs (map_const_of_length hproofs),
    flatMap_append_inj ipublic (map_const_of_length hpublic)] at h
  obtain ⟨rfl, rfl, rfl, -, rfl, rfl, rfl, rfl, rfl, rfl, rfl, rfl, rfl, rfl, rfl, rfl⟩ := h
  exact ⟨rfl, rfl⟩

/-- Records of one layout that are written alike show the same. -/
theorem ShownRecord.bytes_inj {x y : ShownRecord} (hl : x.layout = y.layout)
    (h : x.bytes = y.bytes) : x = y := by
  simp only [ShownRecord.layout, Layout.mk.injEq] at hl
  obtain ⟨hkey, hsigners, hblocks⟩ := hl
  have iid : ∀ a b : UInt64, () = () → ∀ s t, be64 a ++ s = be64 b ++ t → a = b ∧ s = t :=
    fun a b _ s t h => be64_append_inj.1 h
  have h' : x.bytes ++ [] = y.bytes ++ [] := by rw [h]
  obtain ⟨_, _, _, _, _, _⟩ := x
  obtain ⟨_, _, _, _, _, _⟩ := y
  simp only [ShownRecord.bytes, List.append_assoc, be64_append_inj, vector_append_inj,
    append_inj_of_length hkey, flatMap_append_inj iid (map_const_of_length hsigners),
    flatMap_append_inj ShownSigData.bytes_inj hblocks] at h'
  obtain ⟨-, rfl, rfl, rfl, rfl, rfl, -, rfl, -⟩ := h'
  rfl

/-- Records of one layout are written alike where they show the same. -/
theorem appendSigningRecord_iff_shown {txid : Bytes} {md md' : CmpSigningMetadata}
    (hl : md.layout = md'.layout) :
    appendSigningRecord [] txid md = appendSigningRecord [] txid md' ↔ md.shown = md'.shown := by
  simp only [appendSigningRecord_eq, List.nil_append, List.append_cancel_left_eq]
  refine ⟨fun h => ShownRecord.bytes_inj ?_ h, fun h => by rw [h]⟩
  rw [layout_shown, layout_shown, hl]

/-! ## Fingerprints -/

namespace Dual

section
variable (H : Hashes)

/-- `sha256_hex` of a digest already taken. -/
def hexOf (digest : Vector UInt8 32) : Bytes :=
  digest.toList.flatMap fun (c : UInt8) =>
    [hexmap.getD (c >>> 4).toNat 0, hexmap.getD (c &&& 0x0F).toNat 0]

theorem hexmap_inj : ∀ i j : Fin 16, hexmap.getD i 0 = hexmap.getD j 0 → i = j := by decide

/-- The two digits of a byte determine it. -/
theorem hexDigits_inj {c d : UInt8}
    (hhi : hexmap.getD (c >>> 4).toNat 0 = hexmap.getD (d >>> 4).toNat 0)
    (hlo : hexmap.getD (c &&& 0x0F).toNat 0 = hexmap.getD (d &&& 0x0F).toNat 0) : c = d := by
  have hi : ∀ x : UInt8, (x >>> 4).toNat = x.toNat / 16 := fun x => by
    rw [UInt8.toNat_shiftRight, Nat.shiftRight_eq_div_pow]
    rfl
  have lo : ∀ x : UInt8, (x &&& 0x0F).toNat = x.toNat % 16 := fun x => by
    rw [UInt8.toNat_and]
    exact Nat.and_two_pow_sub_one_eq_mod x.toNat 4
  have hlt : ∀ x : UInt8, x.toNat < 256 := fun x => x.toNat_lt
  rw [hi, hi] at hhi
  rw [lo, lo] at hlo
  have ehi := hexmap_inj ⟨c.toNat / 16, by have := hlt c; omega⟩
    ⟨d.toNat / 16, by have := hlt d; omega⟩ hhi
  have elo := hexmap_inj ⟨c.toNat % 16, by omega⟩ ⟨d.toNat % 16, by omega⟩ hlo
  simp only [Fin.mk.injEq] at ehi elo
  refine UInt8.toNat_inj.1 ?_
  omega

theorem hexOf_append_inj {u v : Vector UInt8 32} {s t : Bytes} :
    hexOf u ++ s = hexOf v ++ t ↔ u = v ∧ s = t := by
  have hdigits : ∀ c d : UInt8, () = () → ∀ s t,
      [hexmap.getD (c >>> 4).toNat 0, hexmap.getD (c &&& 0x0F).toNat 0] ++ s =
        [hexmap.getD (d >>> 4).toNat 0, hexmap.getD (d &&& 0x0F).toNat 0] ++ t →
      c = d ∧ s = t := by
    intro c d _ s t h
    simp only [List.cons_append, List.nil_append, List.cons.injEq] at h
    exact ⟨hexDigits_inj h.1 h.2.1, h.2.2⟩
  unfold hexOf
  rw [flatMap_append_inj hdigits (map_const_of_length (by simp)), Vector.toList_inj]

/-- What a fingerprint says of one player. -/
def fingerprintEntry (p : UInt64 × Option (Vector UInt8 32)) : Bytes :=
  toStr p.1.toNat ++ ((match p.2 with
    | some digest => str ":1:" ++ hexOf digest
    | none => str ":0") ++ str ",")

/-- The digest of a player's record. -/
def digestOf (txid : Bytes) (s : SigningStore) : Option (Vector UInt8 32) :=
  s[txid]?.map fun md => H.sha256 (appendSigningRecord [] txid md)

theorem recordFingerprint_eq (players : IdMap SigningStore) (txid : Bytes) :
    recordFingerprint H players txid =
      (players.toList.map fun p => (p.1, digestOf H txid p.2)).flatMap fingerprintEntry := by
  unfold recordFingerprint
  refine (foldl_append (f := fun p => fingerprintEntry (p.1, digestOf H txid p.2))
    (fun acc p => ?_) [] players.toList).trans ?_
  · unfold SigningStore.digestForTxid fingerprintEntry digestOf
    cases p.2[txid]? with
    | none => simp only [Option.map_none, List.append_assoc]
    | some md =>
      simp only [Option.map_some, List.append_assoc]
      rfl
  · rw [List.nil_append, List.flatMap_map]

/-- The entries of one player can be told apart from their front. -/
theorem fingerprintEntry_inj (p q : UInt64 × Option (Vector UInt8 32)) (hid : p.1 = q.1)
    (s t : Bytes) (h : fingerprintEntry p ++ s = fingerprintEntry q ++ t) : p = q ∧ s = t := by
  obtain ⟨id, d⟩ := p
  obtain ⟨id', e⟩ := q
  obtain rfl : id = id' := hid
  have htag : str ":0" = [58, 48] ∧ str ":1:" = [58, 49, 58] := by decide
  unfold fingerprintEntry at h
  simp only [List.append_assoc, List.append_cancel_left_eq] at h
  cases d with
  | none =>
    cases e with
    | none =>
      simp only [List.append_cancel_left_eq] at h
      exact ⟨rfl, h⟩
    | some e =>
      dsimp only at h
      rw [htag.1, htag.2] at h
      simp at h
  | some d =>
    cases e with
    | none =>
      dsimp only at h
      rw [htag.1, htag.2] at h
      simp at h
    | some e =>
      simp only [List.append_assoc, List.append_cancel_left_eq, hexOf_append_inj] at h
      obtain ⟨rfl, rfl⟩ := h
      exact ⟨rfl, rfl⟩

/-- A relation between each player's stores before and after. -/
def EachPlayer (before after : IdMap SigningStore) (R : SigningStore → SigningStore → Prop) : Prop :=
  ∀ (id : UInt64) (s s' : SigningStore), before[id]? = some s → after[id]? = some s' → R s s'

/-- Equal fingerprints: equal digests, player by player. -/
theorem recordFingerprint_eq_iff {before after : IdMap SigningStore} {txid : Bytes}
    (hplayers : before.keys = after.keys) :
    recordFingerprint H before txid = recordFingerprint H after txid ↔
      EachPlayer before after fun s s' => digestOf H txid s = digestOf H txid s' := by
  have hids : Dict.keys before.toList = Dict.keys after.toList := by
    unfold Dict.keys
    rw [Std.ExtTreeMap.map_fst_toList_eq_keys, Std.ExtTreeMap.map_fst_toList_eq_keys, hplayers]
  have hnodup : (Dict.keys before.toList).Nodup := by
    unfold Dict.keys
    rw [Std.ExtTreeMap.map_fst_toList_eq_keys]
    exact Std.ExtTreeMap.nodup_keys
  have hshape : (before.toList.map fun p => (p.1, digestOf H txid p.2)).map Prod.fst =
      (after.toList.map fun p => (p.1, digestOf H txid p.2)).map Prod.fst := by
    rw [List.map_map, List.map_map]
    exact hids
  have happend := flatMap_append_inj fingerprintEntry_inj hshape (s := []) (t := [])
  rw [List.append_nil, List.append_nil] at happend
  rw [recordFingerprint_eq, recordFingerprint_eq, happend, Dict.map_eq_map_iff hids hnodup]
  simp only [Std.ExtTreeMap.mem_toList_iff_getElem?_eq_some, and_true, EachPlayer]

/-! ## What the oracle sees -/

/-- The state-isolation oracle has no blind spot on two states of a set of players: equal
fingerprints mean the same record at every player. -/
def Isolates (before after : IdMap SigningStore) (txid : Bytes) : Prop :=
  recordFingerprint H before txid = recordFingerprint H after txid →
    EachPlayer before after fun s s' => s[txid]? = s'[txid]?

/-- SHA-256 tells the strings apart that the fingerprints compare. -/
def DigestsInjective (before after : IdMap SigningStore) (txid : Bytes) : Prop :=
  EachPlayer before after fun s s' => ∀ md md' : CmpSigningMetadata,
    s[txid]? = some md → s'[txid]? = some md' →
      H.sha256 (appendSigningRecord [] txid md) = H.sha256 (appendSigningRecord [] txid md') →
        appendSigningRecord [] txid md = appendSigningRecord [] txid md'

/-- Records of every player that are written alike make equal fingerprints, whatever the hash. -/
theorem fingerprint_of_strings {before after : IdMap SigningStore} {txid : Bytes}
    (hplayers : before.keys = after.keys)
    (h : EachPlayer before after fun s s' => s[txid]?.map (appendSigningRecord [] txid) =
      s'[txid]?.map (appendSigningRecord [] txid)) :
    recordFingerprint H before txid = recordFingerprint H after txid := by
  rw [recordFingerprint_eq_iff H hplayers]
  intro id s s' hs hs'
  have hdigest : ∀ s : SigningStore, digestOf H txid s =
      (s[txid]?.map (appendSigningRecord [] txid)).map H.sha256 := fun s =>
    (Option.map_map ..).symm
  rw [hdigest, hdigest, h id s s' hs hs']

/-- Equal fingerprints come of records that are written alike at every player. -/
theorem strings_of_fingerprint {before after : IdMap SigningStore} {txid : Bytes}
    (hplayers : before.keys = after.keys) (hinj : DigestsInjective H before after txid)
    (h : recordFingerprint H before txid = recordFingerprint H after txid) :
    EachPlayer before after fun s s' => s[txid]?.map (appendSigningRecord [] txid) =
      s'[txid]?.map (appendSigningRecord [] txid) := by
  rw [recordFingerprint_eq_iff H hplayers] at h
  intro id s s' hs hs'
  have hdigest : digestOf H txid s = digestOf H txid s' := h id s s' hs hs'
  unfold digestOf at hdigest
  cases hmd : s[txid]? with
  | none =>
    rw [hmd, Option.map_none, eq_comm, Option.map_eq_none_iff] at hdigest
    rw [hdigest]
  | some md =>
    cases hmd' : s'[txid]? with
    | none =>
      rw [hmd, hmd'] at hdigest
      cases hdigest
    | some md' =>
      rw [hmd, hmd', Option.map_some, Option.map_some, Option.some.injEq] at hdigest
      exact congrArg some (hinj id s s' hs hs' md md' hmd hmd' hdigest)

/-- **When the state-isolation oracle has no blind spot.** Of two states of one set of players with
equal fingerprints: where the records of each player have the same numbers of entries and the same
contents of those that only the sizes are written of. -/
theorem isolated_iff_layout (before after : IdMap SigningStore) (txid : Bytes)
    (hplayers : before.keys = after.keys) (hinj : DigestsInjective H before after txid)
    (h : recordFingerprint H before txid = recordFingerprint H after txid) :
    (EachPlayer before after fun s s' => s[txid]? = s'[txid]?) ↔
      EachPlayer before after fun s s' =>
        s[txid]?.map CmpSigningMetadata.layout = s'[txid]?.map CmpSigningMetadata.layout ∧
        s[txid]?.map CmpSigningMetadata.unshown = s'[txid]?.map CmpSigningMetadata.unshown := by
  have hstrings := strings_of_fingerprint H hplayers hinj h
  constructor
  · intro hsame id s s' hs hs'
    have heq : s[txid]? = s'[txid]? := hsame id s s' hs hs'
    rw [heq]
    exact ⟨rfl, rfl⟩
  · intro hcond id s s' hs hs'
    obtain ⟨hlayout, hunshown⟩ := hcond id s s' hs hs'
    have hstring : s[txid]?.map (appendSigningRecord [] txid) =
        s'[txid]?.map (appendSigningRecord [] txid) := hstrings id s s' hs hs'
    cases hmd : s[txid]? with
    | none =>
      rw [hmd, Option.map_none, eq_comm, Option.map_eq_none_iff] at hlayout
      rw [hlayout]
    | some md =>
      cases hmd' : s'[txid]? with
      | none =>
        rw [hmd, hmd'] at hlayout
        cases hlayout
      | some md' =>
        simp only [hmd, hmd', Option.map_some, Option.some.injEq] at hlayout hunshown hstring
        have hshown := (appendSigningRecord_iff_shown hlayout).1 hstring
        rw [CmpSigningMetadata.eq_of_shown hshown hunshown]

end

/-! ## Records of a calibration -/

namespace Calibration

/-- A record with no blocks. -/
def record (version : UInt64) : CmpSigningMetadata :=
  ⟨str "calibration-key", Vector.replicate 32 0, Vector.replicate 32 0, version, [], []⟩

/-- A record of one block, empty but for its MtA request. -/
def recordWith (mtaRequest : Bytes) : CmpSigningMetadata :=
  let scalar : Scalar := Vector.replicate 32 0
  let point : Point := Vector.replicate 33 0
  { record 1 with
    sigData := [⟨0, scalar, point, [], scalar, scalar, scalar, scalar, scalar, scalar, point,
      mtaRequest, ∅, ∅⟩] }

/-- One player, with one record. -/
def players (md : CmpSigningMetadata) : IdMap SigningStore :=
  Std.ExtTreeMap.insert ∅ 1 (Std.ExtTreeMap.insert ∅ (str "tx-a") md)

theorem eachPlayer_iff {md md' : CmpSigningMetadata} {R : SigningStore → SigningStore → Prop} :
    EachPlayer (players md) (players md') R ↔
      R (Std.ExtTreeMap.insert ∅ (str "tx-a") md) (Std.ExtTreeMap.insert ∅ (str "tx-a") md') := by
  constructor
  · intro h
    exact h 1 _ _ Std.ExtTreeMap.getElem?_insert_self Std.ExtTreeMap.getElem?_insert_self
  · intro h id s s' hs hs'
    unfold players at hs hs'
    rw [Std.ExtTreeMap.getElem?_insert] at hs hs'
    by_cases hid : compare 1 id = .eq
    · rw [if_pos hid] at hs hs'
      cases hs
      cases hs'
      exact h
    · rw [if_neg hid, Std.ExtTreeMap.getElem?_empty] at hs
      cases hs

theorem keys_players (md md' : CmpSigningMetadata) : (players md).keys = (players md').keys := by
  unfold players
  rfl

theorem strings_iff {md md' : CmpSigningMetadata} :
    (EachPlayer (players md) (players md') fun s s' =>
      s[str "tx-a"]?.map (appendSigningRecord [] (str "tx-a")) =
        s'[str "tx-a"]?.map (appendSigningRecord [] (str "tx-a"))) ↔
      appendSigningRecord [] (str "tx-a") md = appendSigningRecord [] (str "tx-a") md' := by
  rw [eachPlayer_iff, Std.ExtTreeMap.getElem?_insert_self, Std.ExtTreeMap.getElem?_insert_self,
    Option.map_some, Option.map_some, Option.some.injEq]

theorem injective_of_strings (H : Hashes) {md md' : CmpSigningMetadata}
    (h : appendSigningRecord [] (str "tx-a") md = appendSigningRecord [] (str "tx-a") md') :
    DigestsInjective H (players md) (players md') (str "tx-a") := by
  refine eachPlayer_iff.2 fun x y hx hy _ => ?_
  rw [Std.ExtTreeMap.getElem?_insert_self] at hx hy
  cases hx
  cases hy
  exact h

/-- A record of one block, given its signers, and the flags, the point and the path of the
block. -/
def recordOf (signersIds : List UInt64) (flags : UInt32) (R : Point) (path : List UInt32) :
    CmpSigningMetadata :=
  let scalar : Scalar := Vector.replicate 32 0
  let point : Point := Vector.replicate 33 0
  { record 1 with
    signersIds := signersIds
    sigData := [⟨flags, scalar, R, path, scalar, scalar, scalar, scalar, scalar, scalar, point, [], ∅,
      ∅⟩] }

/-- No signers, and a path of one step. -/
def stepped : CmpSigningMetadata := recordOf [] 1 (Vector.replicate 33 0) [0]

/-- One signer, and no path: its id stands where the number of blocks stood, and the tail of the
point where the length of the path did. -/
def signed : CmpSigningMetadata := recordOf [1] 0 ((Vector.replicate 32 0).push 1) []

/-- SHA-256 on the string of `stepped`. -/
def sha256 (input : Bytes) : Vector UInt8 32 :=
  if input = appendSigningRecord [] (str "tx-a") stepped then
    #v[0xd2, 0xd3, 0x38, 0x90, 0xcc, 0x76, 0xb7, 0x76, 0x71, 0x0e, 0x2e, 0x6c, 0xe3, 0x16, 0xab, 0xb1,
      0xb8, 0x91, 0x99, 0x01, 0x3d, 0xd9, 0x22, 0xa0, 0x66, 0xba, 0xc6, 0x0b, 0xbd, 0x28, 0x61, 0x42]
  else Vector.replicate 32 0

def hashes : Hashes := ⟨sha256, fun _ => Vector.replicate 64 0⟩

end Calibration

open Calibration

/-- A signer runs on into a block. -/
theorem isolated_iff_layout_signed :
    recordFingerprint hashes (players stepped) (str "tx-a") =
      recordFingerprint hashes (players signed) (str "tx-a") ∧
    ¬ EachPlayer (players stepped) (players signed) fun s s' => s[str "tx-a"]? = s'[str "tx-a"]? := by
  have hstrings : appendSigningRecord [] (str "tx-a") stepped =
      appendSigningRecord [] (str "tx-a") signed := by decide +kernel
  have hfp := fingerprint_of_strings hashes (keys_players stepped signed) (strings_iff.2 hstrings)
  refine ⟨hfp, fun hsame => ?_⟩
  have hlayout := eachPlayer_iff.1 ((isolated_iff_layout hashes _ _ _ (keys_players stepped signed)
    (injective_of_strings hashes hstrings) hfp).1 hsame)
  rw [Std.ExtTreeMap.getElem?_insert_self, Std.ExtTreeMap.getElem?_insert_self] at hlayout
  exact absurd hlayout.1 (by decide)

/-- The contents of a request are not seen: one byte of it changes, and the fingerprint
stays the same under any hash. -/
theorem mtaRequest_unseen :
    (players (recordWith [0])).keys = (players (recordWith [1])).keys ∧ ∀ H : Hashes,
      DigestsInjective H (players (recordWith [0])) (players (recordWith [1])) (str "tx-a") ∧
        ¬ Isolates H (players (recordWith [0])) (players (recordWith [1])) (str "tx-a") := by
  have hstrings : appendSigningRecord [] (str "tx-a") (recordWith [0]) =
      appendSigningRecord [] (str "tx-a") (recordWith [1]) := rfl
  refine ⟨keys_players _ _, fun H => ⟨injective_of_strings H hstrings, fun h => ?_⟩⟩
  have hsame := h (fingerprint_of_strings H (keys_players _ _) (strings_iff.2 hstrings))
  have heq := eachPlayer_iff.1 hsame
  rw [Std.ExtTreeMap.getElem?_insert_self, Std.ExtTreeMap.getElem?_insert_self] at heq
  exact absurd heq (by decide)

end Dual

end MpcHunt.Harness
