/-
The frame of a mutation: what of the maps a viewer receives `apply_r1` to
`apply_r4` can change, and what `view_r1` to `view_r4` deliver.
-/
import MpcHunt.Harness.AppliedChanges

namespace MpcHunt.Harness

/-! ## What an apply function may change -/

/-- The field a first-round mutation names, and for the proofs the viewer's entry. -/
def CmpMtaRequest.ChangedIn (field : WireField) (viewer : UInt64) (req req' : CmpMtaRequest) : Prop :=
  match field with
  | .r1MtaMessage => ∃ v, req' = { req with mta.message := v }
  | .r1MtaCommitment => ∃ v, req' = { req with mta.commitment := v }
  | .r1MtaProof => ∃ v, req' = { req with mta.proof := v }
  | .r1MtaProofsEntry => viewer ∈ req.mtaProofs ∧
      ∃ v, req' = { req with mtaProofs := req.mtaProofs.insert viewer v }
  | .r1PointA => ∃ v, req' = { req with A := v }
  | .r1PointB => ∃ v, req' = { req with B := v }
  | .r1PointZ => ∃ v, req' = { req with Z := v }
  | _ => req' = req

/-- The field a second-round mutation names, and for the maps the viewer's entry. -/
def CmpMtaResponse.ChangedIn (field : WireField) (viewer : UInt64) (resp resp' : CmpMtaResponse) :
    Prop :=
  match field with
  | .r2KGammaMtaMessage => ∃ e v, resp.kGammaMta[viewer]? = some e ∧
      resp' = { resp with kGammaMta := resp.kGammaMta.insert viewer { e with message := v } }
  | .r2KXMtaMessage => ∃ e v, resp.kXMta[viewer]? = some e ∧
      resp' = { resp with kXMta := resp.kXMta.insert viewer { e with message := v } }
  | .r2Gamma => ∃ v, resp' = { resp with GAMMA := v }
  | .r2GammaProofsEntry => viewer ∈ resp.gammaProofs ∧
      ∃ v, resp' = { resp with gammaProofs := resp.gammaProofs.insert viewer v }
  | _ => resp' = resp

/-- The acknowledgement, which no block holds, or the field in the block. -/
def CmpMtaResponses.ChangedIn (m : Mutation) (viewer : UInt64) (r r' : CmpMtaResponses) : Prop :=
  if m.field = .r2Ack then ∃ v, r' = { r with ack := v }
  else ∃ resp resp', r.response[m.block]? = some resp ∧ resp.ChangedIn m.field viewer resp' ∧
    r' = { r with response := r.response.set m.block resp' }

def CmpMtaDeltas.ChangedIn (field : WireField) (d d' : CmpMtaDeltas) : Prop :=
  match field with
  | .r3Delta => ∃ v, d' = { d with delta := v }
  | .r3DeltaPoint => ∃ v, d' = { d with DELTA := v }
  | .r3Proof => ∃ v, d' = { d with proof := v }
  | _ => d' = d

/-- One entry of a map is changed, as `R` says. -/
def EntryChanged {β : Type} (key : UInt64) (R : β → β → Prop) (sent received : IdMap β) : Prop :=
  ∃ e e', sent[key]? = some e ∧ R e e' ∧ received = sent.insert key e'

/-- One block of the attacker's slot is changed, as `R` says. -/
def BlockChanged {β : Type} (m : Mutation) (R : β → β → Prop) : IdMap (List β) → IdMap (List β) → Prop :=
  EntryChanged m.attacker fun blocks blocks' =>
    ∃ b b', blocks[m.block]? = some b ∧ R b b' ∧ blocks' = blocks.set m.block b'

def ChangedR1 (m : Mutation) (viewer : UInt64) :
    IdMap (List CmpMtaRequest) → IdMap (List CmpMtaRequest) → Prop :=
  BlockChanged m (CmpMtaRequest.ChangedIn m.field viewer)

def ChangedR2 (m : Mutation) (viewer : UInt64) : IdMap CmpMtaResponses → IdMap CmpMtaResponses → Prop :=
  EntryChanged m.attacker (CmpMtaResponses.ChangedIn m viewer)

def ChangedR3 (m : Mutation) : IdMap (List CmpMtaDeltas) → IdMap (List CmpMtaDeltas) → Prop :=
  BlockChanged m (CmpMtaDeltas.ChangedIn m.field)

/-- A scalar of the block, or one entry more, of a zero scalar. -/
def ChangedR4 (m : Mutation) (sent received : IdMap (List Scalar)) : Prop :=
  m.field = .r4Si ∧
    if m.op = .extraMapKey then
      ∃ extra, extra ∉ sent ∧ received = sent.insert extra [Vector.replicate 32 0]
    else BlockChanged m (fun _ _ => True) sent received

/-! ## The answer of an apply function -/

variable {β γ : Type}

/-- A change that has changed nothing where it answers false, and what `R` allows elsewhere. -/
structure Framed (f : β → Bool × β) (R : β → β → Prop) : Prop where
  reports : ∀ b, (f b).1 = false → (f b).2 = b
  frames : ∀ b, (f b).2 = b ∨ R b (f b).2

theorem Framed.refused (R : β → β → Prop) : Framed (fun b => (false, b)) R :=
  ⟨fun _ _ => rfl, fun _ => .inl rfl⟩

theorem Framed.mono {f : β → Bool × β} {R S : β → β → Prop} (hf : Framed f R)
    (h : ∀ b b', R b b' → S b b') : Framed f S :=
  ⟨hf.reports, fun b => (hf.frames b).imp_right (h b _)⟩

/-- A change of one part of a record. -/
theorem Framed.field {f : γ → Bool × γ} {R : γ → γ → Prop} (hf : Framed f R) (get : β → γ)
    (set : β → γ → β) (hset : ∀ b, set b (get b) = b) :
    Framed (fun b => ((f (get b)).1, set b (f (get b)).2))
      (fun b b' => ∃ v, R (get b) v ∧ b' = set b v) where
  reports := by
    intro b h
    dsimp only at h ⊢
    rw [hf.reports _ h, hset]
  frames := by
    intro b
    rcases hf.frames (get b) with h | h
    · left
      dsimp only
      rw [h, hset]
    · exact .inr ⟨_, h, rfl⟩

theorem flipIn_framed (idx : Nat) (bit : UInt8) :
    Framed (fun v => flipIn v idx bit) (fun _ _ => True) where
  reports := by
    intro v h
    by_cases hv : v = []
    · simp [flipIn, hv]
    · simp [flipIn, hv] at h
  frames := fun _ => .inr trivial

theorem zeroIn_framed : Framed zeroIn (fun _ _ => True) where
  reports := by
    intro v h
    by_cases hv : v = []
    · simp [zeroIn, hv]
    · simp [zeroIn, hv] at h
  frames := fun _ => .inr trivial

theorem applyToBytes_framed (m : Mutation) : Framed (applyToBytes m) (fun _ _ => True) where
  reports := by
    intro v h
    cases hop : m.op with
    | flipBit =>
      simp only [applyToBytes, hop] at h ⊢
      exact (flipIn_framed _ _).reports v h
    | zero =>
      simp only [applyToBytes, hop] at h ⊢
      exact zeroIn_framed.reports v h
    | truncate =>
      by_cases hv : v = []
      · simp [applyToBytes, hop, hv]
      · simp [applyToBytes, hop, hv] at h
    | none => simp only [applyToBytes, hop]
    | extraMapKey => simp only [applyToBytes, hop]
  frames := fun _ => .inr trivial

theorem applyToArray_framed {n : Nat} (m : Mutation) :
    Framed (applyToArray m : Vector UInt8 n → Bool × Vector UInt8 n) (fun _ _ => True) where
  reports := by
    intro v h
    cases hop : m.op with
    | flipBit =>
      by_cases hn : n = 0
      · simp [applyToArray, hop, flipArray, hn]
      · simp [applyToArray, hop, flipArray, hn] at h
    | zero =>
      by_cases hn : n = 0
      · simp [applyToArray, hop, zeroArray, hn]
      · simp [applyToArray, hop, zeroArray, hn] at h
    | truncate => simp only [applyToArray, hop]
    | none => simp only [applyToArray, hop]
    | extraMapKey => simp only [applyToArray, hop]
  frames := fun _ => .inr trivial

/-! ## Entries and blocks -/

theorem applyToEntry_eq {entries : IdMap β} {key : UInt64} {f : β → Bool × β} {e : β}
    (h : entries[key]? = some e) :
    applyToEntry entries key f = ((f e).1, entries.insert key (f e).2) := by
  unfold applyToEntry
  rw [h]

theorem applyToEntry_none {entries : IdMap β} {key : UInt64} {f : β → Bool × β}
    (h : entries[key]? = none) : applyToEntry entries key f = (false, entries) := by
  unfold applyToEntry
  rw [h]

theorem applyToEntry_framed {f : β → Bool × β} {R : β → β → Prop} (hf : Framed f R) (key : UInt64) :
    Framed (fun entries => applyToEntry entries key f) (EntryChanged key R) where
  reports := by
    intro entries h
    cases he : entries[key]? with
    | none => rw [applyToEntry_none he]
    | some e =>
      rw [applyToEntry_eq he] at h ⊢
      dsimp only at h ⊢
      rw [hf.reports e h, insert_of_getElem? he]
  frames := by
    intro entries
    cases he : entries[key]? with
    | none =>
      rw [applyToEntry_none he]
      exact .inl rfl
    | some e =>
      rw [applyToEntry_eq he]
      rcases hf.frames e with h | h
      · left
        dsimp only
        rw [h, insert_of_getElem? he]
      · exact .inr ⟨e, _, he, h, rfl⟩

theorem applyToBlock_framed {f : β → Bool × β} {R : β → β → Prop} (hf : Framed f R) (m : Mutation) :
    Framed (fun slots => applyToBlock m slots f) (BlockChanged m R) := by
  unfold applyToBlock BlockChanged
  refine applyToEntry_framed ⟨fun blocks h => ?_, fun blocks => ?_⟩ m.attacker
  · cases hb : blocks[m.block]? with
    | none => rfl
    | some b =>
      rw [hb] at h
      dsimp only at h ⊢
      rw [hf.reports b h, set_of_getElem? hb]
  · cases hb : blocks[m.block]? with
    | none => exact .inl rfl
    | some b =>
      dsimp only
      rcases hf.frames b with h | h
      · left
        rw [h, set_of_getElem? hb]
      · exact .inr ⟨b, _, rfl, h, rfl⟩

/-! ## The four rounds -/

/-- A part any value of which is allowed. -/
theorem Framed.part {f : γ → Bool × γ} (hf : Framed f (fun _ _ => True)) (get : β → γ)
    (set : β → γ → β) (hset : ∀ b, set b (get b) = b) :
    Framed (fun b => ((f (get b)).1, set b (f (get b)).2)) (fun b b' => ∃ v, b' = set b v) :=
  (hf.field get set hset).mono fun _ _ ⟨v, _, h⟩ => ⟨v, h⟩

/-- An entry of a part, any value of which is allowed. -/
theorem Framed.entry {f : γ → Bool × γ} (hf : Framed f (fun _ _ => True)) (key : UInt64)
    (get : β → IdMap γ) (set : β → IdMap γ → β) (hset : ∀ b, set b (get b) = b) :
    Framed (fun b => ((applyToEntry (get b) key f).1, set b (applyToEntry (get b) key f).2))
      (fun b b' => key ∈ get b ∧ ∃ v, b' = set b ((get b).insert key v)) := by
  refine ((applyToEntry_framed hf key).field get set hset).mono ?_
  rintro b _ ⟨_, ⟨e, e', he, _, rfl⟩, rfl⟩
  exact ⟨Std.ExtTreeMap.mem_iff_isSome_getElem?.2 (by simp [he]), e', rfl⟩

/-- The message of an entry of a part. -/
theorem Framed.message {f : Bytes → Bool × Bytes} (hf : Framed f (fun _ _ => True)) (key : UInt64)
    (get : β → IdMap CmpMtaMessage) (set : β → IdMap CmpMtaMessage → β)
    (hset : ∀ b, set b (get b) = b) :
    Framed
      (fun b =>
        let r := applyToEntry (get b) key fun e =>
          let r := f e.message; (r.1, { e with message := r.2 })
        (r.1, set b r.2))
      (fun b b' => ∃ e v, (get b)[key]? = some e ∧
        b' = set b ((get b).insert key { e with message := v })) := by
  have entry := hf.part CmpMtaMessage.message (fun e v => { e with message := v }) fun _ => rfl
  refine ((applyToEntry_framed entry key).field get set hset).mono ?_
  rintro b _ ⟨_, ⟨e, _, he, ⟨v, rfl⟩, rfl⟩, rfl⟩
  exact ⟨e, v, he, rfl⟩

theorem applyR1_framed (m : Mutation) (viewer : UInt64) :
    Framed (fun requests => applyR1 m requests viewer) (ChangedR1 m viewer) := by
  have bytes := applyToBytes_framed m
  have point := applyToArray_framed (n := 33) m
  unfold applyR1 ChangedR1
  by_cases hm : m.round ≠ 1 ∨ ¬ m.enabled
  · simp only [if_pos hm]
    exact .refused _
  simp only [if_neg hm]
  refine applyToBlock_framed ?_ m
  cases m.field with
  | r1MtaMessage =>
    exact bytes.part (fun req : CmpMtaRequest => req.mta.message) (fun req v => { req with mta.message := v })
      fun _ => rfl
  | r1MtaCommitment =>
    exact bytes.part (fun req : CmpMtaRequest => req.mta.commitment) (fun req v => { req with mta.commitment := v })
      fun _ => rfl
  | r1MtaProof =>
    exact bytes.part (fun req : CmpMtaRequest => req.mta.proof) (fun req v => { req with mta.proof := v })
      fun _ => rfl
  | r1MtaProofsEntry =>
    exact bytes.entry viewer CmpMtaRequest.mtaProofs (fun req v => { req with mtaProofs := v })
      fun _ => rfl
  | r1PointA => exact point.part CmpMtaRequest.A (fun req v => { req with A := v }) fun _ => rfl
  | r1PointB => exact point.part CmpMtaRequest.B (fun req v => { req with B := v }) fun _ => rfl
  | r1PointZ => exact point.part CmpMtaRequest.Z (fun req v => { req with Z := v }) fun _ => rfl
  | _ => exact .refused _

theorem applyToResponse_framed (m : Mutation) (viewer : UInt64) :
    Framed (applyToResponse m viewer) (CmpMtaResponse.ChangedIn m.field viewer) := by
  have bytes := applyToBytes_framed m
  have point := applyToArray_framed (n := 33) m
  unfold applyToResponse
  cases m.field with
  | r2KGammaMtaMessage =>
    exact bytes.message viewer CmpMtaResponse.kGammaMta (fun resp v => { resp with kGammaMta := v })
      fun _ => rfl
  | r2KXMtaMessage =>
    exact bytes.message viewer CmpMtaResponse.kXMta (fun resp v => { resp with kXMta := v })
      fun _ => rfl
  | r2Gamma =>
    exact point.part CmpMtaResponse.GAMMA (fun resp v => { resp with GAMMA := v }) fun _ => rfl
  | r2GammaProofsEntry =>
    exact bytes.entry viewer CmpMtaResponse.gammaProofs
      (fun resp v => { resp with gammaProofs := v }) fun _ => rfl
  | _ => exact .refused _

theorem applyR2_framed (m : Mutation) (viewer : UInt64) :
    Framed (fun responses => applyR2 m responses viewer) (ChangedR2 m viewer) := by
  have resp := applyToResponse_framed m viewer
  unfold applyR2 ChangedR2
  by_cases hm : m.round ≠ 2 ∨ ¬ m.enabled
  · simp only [if_pos hm]
    exact .refused _
  simp only [if_neg hm]
  refine applyToEntry_framed ?_ m.attacker
  by_cases hack : m.field = .r2Ack
  · simp only [if_pos hack]
    refine ((applyToArray_framed (n := 32) m).part CmpMtaResponses.ack
      (fun r v => { r with ack := v }) fun _ => rfl).mono fun r r' h => ?_
    rw [CmpMtaResponses.ChangedIn, if_pos hack]
    exact h
  simp only [if_neg hack]
  refine ⟨fun r h => ?_, fun r => ?_⟩
  · cases hb : r.response[m.block]? with
    | none => rfl
    | some b =>
      rw [hb] at h
      dsimp only at h ⊢
      rw [resp.reports b h, set_of_getElem? hb]
  · cases hb : r.response[m.block]? with
    | none => exact .inl rfl
    | some b =>
      dsimp only
      rcases resp.frames b with h | h
      · left
        rw [h, set_of_getElem? hb]
      · right
        rw [CmpMtaResponses.ChangedIn, if_neg hack]
        exact ⟨b, _, hb, h, rfl⟩

theorem applyR3_framed (m : Mutation) : Framed (applyR3 m) (ChangedR3 m) := by
  have scalar := applyToArray_framed (n := 32) m
  have point := applyToArray_framed (n := 33) m
  unfold applyR3 ChangedR3
  by_cases hm : m.round ≠ 3 ∨ ¬ m.enabled
  · simp only [if_pos hm]
    exact .refused _
  simp only [if_neg hm]
  refine applyToBlock_framed ?_ m
  cases m.field with
  | r3Delta => exact scalar.part CmpMtaDeltas.delta (fun d v => { d with delta := v }) fun _ => rfl
  | r3DeltaPoint =>
    exact point.part CmpMtaDeltas.DELTA (fun d v => { d with DELTA := v }) fun _ => rfl
  | r3Proof =>
    exact (applyToBytes_framed m).part CmpMtaDeltas.proof (fun d v => { d with proof := v })
      fun _ => rfl
  | _ => exact .refused _

theorem applyR4_framed (m : Mutation) (fixturePlayerIds signerIds : List UInt64) :
    Framed (fun sis => applyR4 m sis fixturePlayerIds signerIds) (ChangedR4 m) := by
  unfold applyR4 ChangedR4
  by_cases hm : m.round ≠ 4 ∨ ¬ m.enabled
  · simp only [if_pos hm]
    exact .refused _
  simp only [if_neg hm]
  by_cases hfield : m.field = .r4Si
  swap
  · simp only [ne_eq, hfield, not_false_eq_true, if_true]
    exact .refused _
  have hne : ¬ m.field ≠ .r4Si := not_not.2 hfield
  simp only [if_neg hne]
  by_cases hop : m.op = .extraMapKey
  · simp only [if_pos hop]
    cases setDifference (sortIds fixturePlayerIds) (sortIds signerIds) with
    | nil => exact .refused _
    | cons extra _ =>
      by_cases hmem : extra ∉ sortIds fixturePlayerIds
      · simp only [if_pos hmem]
        exact .refused _
      simp only [if_neg hmem]
      refine ⟨fun sis h => ?_, fun sis => ?_⟩
      · by_cases hc : sis.contains extra
        · simp only [if_pos hc]
        · simp only [if_neg hc] at h
          cases h
      · by_cases hc : sis.contains extra
        · left
          simp only [if_pos hc]
        · simp only [if_neg hc]
          exact .inr ⟨hfield, extra, fun h => hc (Std.ExtTreeMap.contains_iff_mem.2 h), rfl⟩
  · simp only [if_neg hop]
    refine (applyToBlock_framed ((applyToArray_framed (n := 32) m)) m).mono fun sis sis' h => ?_
    exact ⟨hfield, h⟩

/-! ## Deliveries -/

namespace Driver

/-- What a viewer may receive of the honest outputs `sent` of the round before: an attacker
exactly these, an honest signer these but for what the first enabled mutation of the round
may change, and for nothing where the apply function answers false. -/
structure Delivered {α : Type} (cfg : RunConfig) (round : Int) (apply : Mutation → UInt64 → α → Bool × α)
    (Changed : Mutation → UInt64 → α → α → Prop) (sent : α) (viewer : UInt64) (received : α) :
    Prop where
  malicious : viewer ∈ cfg.maliciousIds → received = sent
  unmutated : findMut cfg round = none → received = sent
  refused : ∀ m, findMut cfg round = some m → (apply m viewer sent).1 = false → received = sent
  framed : ∀ m, findMut cfg round = some m → received = sent ∨ Changed m viewer sent received

/-- The apply function was called for this viewer and returned true. -/
def applied {α : Type} (cfg : RunConfig) (round : Int) (apply : Mutation → UInt64 → α → Bool × α)
    (sent : α) (viewer : UInt64) : Bool :=
  ¬ cfg.maliciousIds.contains viewer &&
    (findMut cfg round).any fun m => (apply m viewer sent).1

variable {α : Type} {cfg : RunConfig} {round : Int} {apply : Mutation → UInt64 → α → Bool × α}
  {Changed : Mutation → UInt64 → α → α → Prop}

theorem view_delivered (h : ∀ m viewer, Framed (apply m viewer) (Changed m viewer)) (sent : α)
    (viewer : UInt64) :
    Delivered cfg round apply Changed sent viewer (view cfg round apply sent viewer).1 := by
  unfold view
  by_cases hv : cfg.maliciousIds.contains viewer
  · rw [if_pos hv]
    exact ⟨fun _ => rfl, fun _ => rfl, fun _ _ _ => rfl, fun _ _ => .inl rfl⟩
  · rw [if_neg hv]
    have hmem : viewer ∉ cfg.maliciousIds := fun hm => hv (Std.ExtTreeSet.contains_iff_mem.2 hm)
    cases hm : findMut cfg round with
    | none =>
      refine ⟨fun h => absurd h hmem, fun _ => rfl, ?_, ?_⟩
      · intro m hsome
        cases hm.symm.trans hsome
      · intro m hsome
        cases hm.symm.trans hsome
    | some m =>
      refine ⟨fun h => absurd h hmem, ?_, ?_, ?_⟩
      · intro hnone
        cases hm.symm.trans hnone
      · intro m' hsome hfalse
        cases hm.symm.trans hsome
        exact (h m viewer).reports sent hfalse
      · intro m' hsome
        cases hm.symm.trans hsome
        exact (h m viewer).frames sent

theorem view_applied (cfg : RunConfig) (round : Int) (apply : Mutation → UInt64 → α → Bool × α)
    (sent : α) (viewer : UInt64) :
    (view cfg round apply sent viewer).2 = if applied cfg round apply sent viewer then 1 else 0 := by
  unfold view applied
  by_cases hv : cfg.maliciousIds.contains viewer
  · simp [hv]
  · cases hm : findMut cfg round with
    | none => simp [hv]
    | some m => simp [hv]

end Driver

end MpcHunt.Harness
