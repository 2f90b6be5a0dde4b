/-
Whether a mutation that the mutators report as applied changed the messages.
It did, unless it writes zeros over a field that is zeros already.
-/
import MpcHunt.Harness.Driver

namespace MpcHunt.Harness

/-- An answer that reports a change comes with one. -/
def Changed {β : Type} (answer : Bool × β) (before : β) : Prop :=
  answer.1 = true → answer.2 ≠ before

/-- The mutation overwrites with zeros a field of zeros only. -/
def ZeroesZeros (m : Mutation) (field : Bytes) : Prop :=
  m.op = .zero ∧ field ≠ [] ∧ ∀ b ∈ field, b = 0

/-! ## The fields -/

theorem bitMask_ne_zero (bit : UInt8) : bitMask bit ≠ 0 := by
  have h : ∀ b : Fin 256, bitMask (UInt8.ofNat b) ≠ 0 := by decide +kernel
  have hbit : UInt8.ofNat (⟨bit.toNat, bit.toNat_lt⟩ : Fin 256) = bit := by simp
  exact hbit ▸ h _

theorem replicate_eq_iff (v : Bytes) : List.replicate v.length 0 = v ↔ ∀ b ∈ v, b = 0 := by
  rw [eq_comm, List.eq_replicate_iff]
  simp

theorem flipIn_changed (v : Bytes) (idx : Nat) (bit : UInt8) : Changed (flipIn v idx bit) v := by
  by_cases hv : v = []
  · simp [Changed, flipIn, hv]
  · intro _ h
    have hlt : idx % v.length < v.length := Nat.mod_lt _ (List.length_pos_iff.2 hv)
    have hbyte := congrArg (·[idx % v.length]?) h
    simp [flipIn, hv, hlt] at hbyte
    exact bitMask_ne_zero bit hbyte

theorem changed_bytes_iff (m : Mutation) (v : Bytes) :
    Changed (applyToBytes m v) v ↔ ¬ ZeroesZeros m v := by
  cases hop : m.op with
  | none => simp [Changed, applyToBytes, ZeroesZeros, hop]
  | extraMapKey => simp [Changed, applyToBytes, ZeroesZeros, hop]
  | flipBit =>
    have h := flipIn_changed v m.byteIndex m.bit
    simpa [applyToBytes, ZeroesZeros, hop] using h
  | zero =>
    by_cases hv : v = []
    · simp [Changed, applyToBytes, zeroIn, ZeroesZeros, hv, hop]
    · have h := replicate_eq_iff v
      simp [Changed, applyToBytes, zeroIn, ZeroesZeros, hv, hop, h]
  | truncate =>
    by_cases hv : v = []
    · simp [Changed, applyToBytes, ZeroesZeros, hv, hop]
    · have hlt : m.byteIndex % v.length < v.length := Nat.mod_lt _ (List.length_pos_iff.2 hv)
      have hne : v.take (m.byteIndex % v.length) ≠ v := by
        intro h
        have hlen := congrArg List.length h
        rw [List.length_take] at hlen
        omega
      simp [Changed, applyToBytes, ZeroesZeros, hv, hop, hne]

theorem flipArray_changed {n : Nat} (v : Vector UInt8 n) (idx : Nat) (bit : UInt8) :
    Changed (flipArray v idx bit) v := by
  by_cases hn : n = 0
  · simp [Changed, flipArray, hn]
  · intro _ h
    have hlt : idx % n < n := Nat.mod_lt _ (Nat.pos_of_ne_zero hn)
    have hbyte := congrArg (·[idx % n]?) h
    simp [flipArray, hn, hlt] at hbyte
    exact bitMask_ne_zero bit hbyte

theorem replicate_eq_vector_iff {n : Nat} (v : Vector UInt8 n) :
    Vector.replicate n 0 = v ↔ ∀ b ∈ v.toList, b = 0 := by
  rw [← Vector.toList_inj, Vector.toList_replicate, eq_comm, List.eq_replicate_iff]
  simp

theorem changed_array_iff {n : Nat} (m : Mutation) (v : Vector UInt8 n) :
    Changed (applyToArray m v) v ↔ ¬ ZeroesZeros m v.toList := by
  cases hop : m.op with
  | none => simp [Changed, applyToArray, ZeroesZeros, hop]
  | extraMapKey => simp [Changed, applyToArray, ZeroesZeros, hop]
  | truncate => simp [Changed, applyToArray, ZeroesZeros, hop]
  | flipBit =>
    have h := flipArray_changed v m.byteIndex m.bit
    simpa [applyToArray, ZeroesZeros, hop] using h
  | zero =>
    have hlen : v.toList = [] ↔ n = 0 := by rw [← List.length_eq_zero_iff, Vector.length_toList]
    by_cases hn : n = 0
    · simp [Changed, applyToArray, zeroArray, ZeroesZeros, hop, hn, hlen]
    · have h := replicate_eq_vector_iff v
      simp [Changed, applyToArray, zeroArray, ZeroesZeros, hop, hn, hlen, h]

/-! ## The messages -/

/-- A change of a part is a change of the whole. -/
theorem changed_part_iff {α β : Type} {put : α → β} (hput : Function.Injective put) {whole : β}
    {part : α} (hwhole : put part = whole) {answer : Bool × α} :
    Changed (answer.1, put answer.2) whole ↔ Changed answer part := by
  unfold Changed
  rw [← hwhole, hput.ne_iff]

theorem insert_of_getElem? {β : Type} {entries : IdMap β} {key : UInt64} {e : β}
    (h : entries[key]? = some e) : entries.insert key e = entries := by
  refine Std.ExtTreeMap.ext_getElem? fun k => ?_
  rw [Std.ExtTreeMap.getElem?_insert]
  split
  · next heq => rw [← Std.LawfulEqCmp.eq_of_compare heq, h]
  · rfl

theorem changed_entry_iff {β : Type} (entries : IdMap β) (key : UInt64) (f : β → Bool × β) :
    Changed (applyToEntry entries key f) entries ↔ ∀ e, entries[key]? = some e → Changed (f e) e := by
  unfold applyToEntry
  cases hkey : entries[key]? with
  | none => simp [Changed]
  | some e =>
    have hput : Function.Injective (entries.insert key) := by
      intro a b h
      have hsame := congrArg (·[key]?) h
      simpa using hsame
    simp only [Option.some.injEq, forall_eq']
    exact changed_part_iff hput (insert_of_getElem? hkey)

theorem set_injective {β : Type} {blocks : List β} {i : Nat} {b : β} (h : blocks[i]? = some b) :
    Function.Injective (blocks.set i) := by
  obtain ⟨hlt, -⟩ := List.getElem?_eq_some_iff.1 h
  intro x y hset
  have hsame := congrArg (·[i]?) hset
  simpa [hlt] using hsame

theorem set_of_getElem? {β : Type} {blocks : List β} {i : Nat} {b : β} (h : blocks[i]? = some b) :
    blocks.set i b = blocks := by
  obtain ⟨hlt, hb⟩ := List.getElem?_eq_some_iff.1 h
  rw [← hb, List.set_getElem_self]

theorem changed_block_iff {β : Type} (m : Mutation) (slots : IdMap (List β)) (f : β → Bool × β) :
    Changed (applyToBlock m slots f) slots ↔
      ∀ blocks, slots[m.attacker]? = some blocks → ∀ b, blocks[m.block]? = some b →
        Changed (f b) b := by
  unfold applyToBlock
  rw [changed_entry_iff]
  refine forall₂_congr fun blocks _ => ?_
  cases hblock : blocks[m.block]? with
  | none => simp [Changed]
  | some b =>
    simp only [Option.some.injEq, forall_eq']
    exact changed_part_iff (set_injective hblock) (set_of_getElem? hblock)

/-! ## The rounds -/

/-- The field of a request that a mutation addresses. -/
def requestField (m : Mutation) (victim : UInt64) (req : CmpMtaRequest) : Option Bytes :=
  match m.field with
  | .r1MtaMessage => some req.mta.message
  | .r1MtaCommitment => some req.mta.commitment
  | .r1MtaProof => some req.mta.proof
  | .r1MtaProofsEntry => req.mtaProofs[victim]?
  | .r1PointA => some req.A.toList
  | .r1PointB => some req.B.toList
  | .r1PointZ => some req.Z.toList
  | _ => none

/-- The field of a response that a mutation addresses. -/
def responseField (m : Mutation) (victim : UInt64) (resp : CmpMtaResponse) : Option Bytes :=
  match m.field with
  | .r2KGammaMtaMessage => resp.kGammaMta[victim]?.map (·.message)
  | .r2KXMtaMessage => resp.kXMta[victim]?.map (·.message)
  | .r2Gamma => some resp.GAMMA.toList
  | .r2GammaProofsEntry => resp.gammaProofs[victim]?
  | _ => none

/-- The field of a delta that a mutation addresses. -/
def deltaField (m : Mutation) (d : CmpMtaDeltas) : Option Bytes :=
  match m.field with
  | .r3Delta => some d.delta.toList
  | .r3DeltaPoint => some d.DELTA.toList
  | .r3Proof => some d.proof
  | _ => none

def addressedR1 (m : Mutation) (requests : IdMap (List CmpMtaRequest)) (victim : UInt64) :
    Option Bytes :=
  if m.round = 1 then
    requests[m.attacker]?.bind fun blocks => blocks[m.block]?.bind (requestField m victim)
  else none

def addressedR2 (m : Mutation) (responses : IdMap CmpMtaResponses) (victim : UInt64) :
    Option Bytes :=
  if m.round = 2 then
    responses[m.attacker]?.bind fun r =>
      if m.field = .r2Ack then some r.ack.toList
      else r.response[m.block]?.bind (responseField m victim)
  else none

def addressedR3 (m : Mutation) (deltas : IdMap (List CmpMtaDeltas)) : Option Bytes :=
  if m.round = 3 then
    deltas[m.attacker]?.bind fun blocks => blocks[m.block]?.bind (deltaField m)
  else none

def addressedR4 (m : Mutation) (sis : IdMap (List Scalar)) : Option Bytes :=
  if m.round = 4 ∧ m.field = .r4Si then
    sis[m.attacker]?.bind fun blocks => blocks[m.block]?.map (·.toList)
  else none

theorem not_zeroes_of_not_enabled {m : Mutation} (hround : m.round ≠ 0) (h : ¬ m.enabled = true)
    (field : Bytes) : ¬ ZeroesZeros m field := by
  have hop : m.op = .none := by simpa [Mutation.enabled, hround] using h
  simp [ZeroesZeros, hop]

theorem bind_forall_iff {α β : Type} {o : Option α} {g : α → Option β} {P : β → Prop} :
    (∀ b, o.bind g = some b → P b) ↔ ∀ a, o = some a → ∀ b, g a = some b → P b := by
  cases o <;> simp

section
variable {β : Type} {m : Mutation} {whole : β}

theorem changed_bytes_put (put : Bytes → β) (hput : Function.Injective put) {v : Bytes}
    (hwhole : put v = whole) : Changed ((applyToBytes m v).1, put (applyToBytes m v).2) whole ↔
      ∀ field, some v = some field → ¬ ZeroesZeros m field := by
  rw [changed_part_iff hput hwhole, changed_bytes_iff]
  simp

theorem changed_array_put {n : Nat} (put : Vector UInt8 n → β) (hput : Function.Injective put)
    {v : Vector UInt8 n} (hwhole : put v = whole) :
    Changed ((applyToArray m v).1, put (applyToArray m v).2) whole ↔
      ∀ field, some v.toList = some field → ¬ ZeroesZeros m field := by
  rw [changed_part_iff hput hwhole, changed_array_iff]
  simp

theorem changed_entry_put {ε : Type} (put : IdMap ε → β) (hput : Function.Injective put)
    {entries : IdMap ε} (hwhole : put entries = whole) {key : UInt64} {f : ε → Bool × ε}
    {get : ε → Bytes} (hf : ∀ e, Changed (f e) e ↔ ¬ ZeroesZeros m (get e)) :
    Changed ((applyToEntry entries key f).1, put (applyToEntry entries key f).2) whole ↔
      ∀ e, entries[key]? = some e → ¬ ZeroesZeros m (get e) := by
  rw [changed_part_iff hput hwhole, changed_entry_iff]
  simp only [hf]

end

theorem changed_requests_iff (m : Mutation) (requests : IdMap (List CmpMtaRequest))
    (victim : UInt64) : Changed (applyR1 m requests victim) requests ↔
      ∀ field, addressedR1 m requests victim = some field → ¬ ZeroesZeros m field := by
  unfold applyR1 addressedR1
  by_cases hround : m.round = 1
  · by_cases hen : m.enabled = true
    · rw [if_neg (by simp [hround, hen]), if_pos hround, changed_block_iff, bind_forall_iff]
      refine forall₂_congr fun blocks _ => ?_
      rw [bind_forall_iff]
      refine forall₂_congr fun req _ => ?_
      unfold requestField
      cases m.field with
      | r1MtaMessage =>
        exact changed_bytes_put (fun v => { req with mta.message := v }) (fun a b h => by
          simpa using h) rfl
      | r1MtaCommitment =>
        exact changed_bytes_put (fun v => { req with mta.commitment := v }) (fun a b h => by
          simpa using h) rfl
      | r1MtaProof =>
        exact changed_bytes_put (fun v => { req with mta.proof := v }) (fun a b h => by
          simpa using h) rfl
      | r1MtaProofsEntry =>
        exact changed_entry_put (fun v => { req with mtaProofs := v }) (fun a b h => by
          simpa using h) rfl (changed_bytes_iff m)
      | r1PointA =>
        exact changed_array_put (fun v => { req with A := v }) (fun a b h => by simpa using h) rfl
      | r1PointB =>
        exact changed_array_put (fun v => { req with B := v }) (fun a b h => by simpa using h) rfl
      | r1PointZ =>
        exact changed_array_put (fun v => { req with Z := v }) (fun a b h => by simpa using h) rfl
      | _ => simp [Changed]
    · have hquiet := not_zeroes_of_not_enabled (by omega) hen
      simp [hround, hen, Changed, hquiet]
  · simp [hround, Changed]

theorem changed_response_iff (m : Mutation) (victim : UInt64) (resp : CmpMtaResponse) :
    Changed (applyToResponse m victim resp) resp ↔
      ∀ field, responseField m victim resp = some field → ¬ ZeroesZeros m field := by
  have hmessage : ∀ e : CmpMtaMessage, Changed ((applyToBytes m e.message).1,
      { e with message := (applyToBytes m e.message).2 }) e ↔ ¬ ZeroesZeros m e.message := by
    intro e
    refine (changed_bytes_put (fun v => { e with message := v }) (fun a b h => by
      simpa using h) rfl).trans ?_
    simp
  unfold applyToResponse responseField
  cases m.field with
  | r2KGammaMtaMessage =>
    refine (changed_entry_put (fun v => { resp with kGammaMta := v }) (fun a b h => by
      simpa using h) rfl hmessage).trans ?_
    simp
  | r2KXMtaMessage =>
    refine (changed_entry_put (fun v => { resp with kXMta := v }) (fun a b h => by
      simpa using h) rfl hmessage).trans ?_
    simp
  | r2Gamma =>
    exact changed_array_put (fun v => { resp with GAMMA := v }) (fun a b h => by simpa using h) rfl
  | r2GammaProofsEntry =>
    exact changed_entry_put (fun v => { resp with gammaProofs := v }) (fun a b h => by
      simpa using h) rfl (changed_bytes_iff m)
  | _ => simp [Changed]

theorem changed_responses_iff (m : Mutation) (responses : IdMap CmpMtaResponses)
    (victim : UInt64) : Changed (applyR2 m responses victim) responses ↔
      ∀ field, addressedR2 m responses victim = some field → ¬ ZeroesZeros m field := by
  unfold applyR2 addressedR2
  by_cases hround : m.round = 2
  · by_cases hen : m.enabled = true
    · rw [if_neg (by simp [hround, hen]), if_pos hround, changed_entry_iff, bind_forall_iff]
      refine forall₂_congr fun r _ => ?_
      by_cases hack : m.field = .r2Ack
      · rw [if_pos hack, if_pos hack]
        exact changed_array_put (fun v => { r with ack := v }) (fun a b h => by simpa using h) rfl
      · rw [if_neg hack, if_neg hack, bind_forall_iff]
        cases hblock : r.response[m.block]? with
        | none => simp [Changed]
        | some resp =>
          have hput : Function.Injective fun v => { r with response := r.response.set m.block v } := by
            intro a b h
            exact set_injective hblock (CmpMtaResponses.mk.inj h).2
          have hwhole : { r with response := r.response.set m.block resp } = r := by
            rw [set_of_getElem? hblock]
          refine (changed_part_iff hput hwhole).trans ((changed_response_iff m victim resp).trans ?_)
          simp
    · have hquiet := not_zeroes_of_not_enabled (by omega) hen
      simp [hround, hen, Changed, hquiet]
  · simp [hround, Changed]

theorem changed_deltas_iff (m : Mutation) (deltas : IdMap (List CmpMtaDeltas)) :
    Changed (applyR3 m deltas) deltas ↔
      ∀ field, addressedR3 m deltas = some field → ¬ ZeroesZeros m field := by
  unfold applyR3 addressedR3
  by_cases hround : m.round = 3
  · by_cases hen : m.enabled = true
    · rw [if_neg (by simp [hround, hen]), if_pos hround, changed_block_iff, bind_forall_iff]
      refine forall₂_congr fun blocks _ => ?_
      rw [bind_forall_iff]
      refine forall₂_congr fun d _ => ?_
      unfold deltaField
      cases m.field with
      | r3Delta =>
        exact changed_array_put (fun v => { d with delta := v }) (fun a b h => by simpa using h) rfl
      | r3DeltaPoint =>
        exact changed_array_put (fun v => { d with DELTA := v }) (fun a b h => by simpa using h) rfl
      | r3Proof =>
        exact changed_bytes_put (fun v => { d with proof := v }) (fun a b h => by simpa using h) rfl
      | _ => simp [Changed]
    · have hquiet := not_zeroes_of_not_enabled (by omega) hen
      simp [hround, hen, Changed, hquiet]
  · simp [hround, Changed]

/-- An entry for a new id is a change. -/
theorem extraMapKey_changed (m : Mutation) (hop : m.op = .extraMapKey) (sis : IdMap (List Scalar))
    (playerIds signerIds : List UInt64) : Changed (applyR4 m sis playerIds signerIds) sis := by
  unfold applyR4
  split
  · simp [Changed]
  · split
    · simp [Changed]
    · split
      · simp [Changed]
      · next extra _ _ =>
        by_cases hplayer : extra ∈ sortIds playerIds
        · by_cases hmem : extra ∈ sis
          · simp [Changed, hplayer, hmem]
          · have hnew : sis.insert extra [Vector.replicate 32 0] ≠ sis := by
              intro h
              exact hmem (h ▸ Std.ExtTreeMap.mem_insert_self)
            simp [Changed, hplayer, hmem, hnew]
        · simp [Changed, hplayer]

theorem changed_sis_iff (m : Mutation) (sis : IdMap (List Scalar))
    (playerIds signerIds : List UInt64) : Changed (applyR4 m sis playerIds signerIds) sis ↔
      ∀ field, addressedR4 m sis = some field → ¬ ZeroesZeros m field := by
  by_cases hop : m.op = .extraMapKey
  · have hchanged := extraMapKey_changed m hop sis playerIds signerIds
    simp [hchanged, ZeroesZeros, hop]
  unfold applyR4 addressedR4
  by_cases hround : m.round = 4
  · by_cases hen : m.enabled = true
    · by_cases hfield : m.field = .r4Si
      · rw [if_neg (by simp [hround, hen]), if_neg (not_not.2 hfield), if_neg hop,
          if_pos ⟨hround, hfield⟩, changed_block_iff, bind_forall_iff]
        refine forall₂_congr fun blocks _ => ?_
        simp [applyToScalar, changed_array_iff]
      · simp [hround, hfield, Changed]
    · have hquiet := not_zeroes_of_not_enabled (by omega) hen
      simp [hround, hen, Changed, hquiet]
  · simp [hround, Changed]

/-! ## What is counted -/

/-- A session counts a mutation where an honest viewer receives its result. -/
theorem view_counts {α : Type} (cfg : Driver.RunConfig) (round : Int)
    (apply : Mutation → UInt64 → α → Bool × α) (sent : α) (viewer : UInt64)
    (h : 0 < (Driver.view cfg round apply sent viewer).2) :
    cfg.maliciousIds.contains viewer = false ∧ ∃ m ∈ cfg.mutations,
      apply m viewer sent = (true, (Driver.view cfg round apply sent viewer).1) := by
  unfold Driver.view at h ⊢
  by_cases hmal : cfg.maliciousIds.contains viewer = true
  · simp [hmal] at h
  · rw [if_neg hmal] at h ⊢
    cases hfind : Driver.findMut cfg round with
    | none => simp [hfind] at h
    | some m =>
      have happlied : (apply m viewer sent).1 = true := by
        by_contra hnot
        simp [hfind, hnot] at h
      refine ⟨Bool.eq_false_of_not_eq_true hmal, m, List.mem_of_find?_eq_some hfind, ?_⟩
      exact Prod.ext happlied rfl

/-- A mutator's true answer comes with a change, unless the mutation writes zeros over a
field that is all zeros; and what a session counts are such answers, given to honest
viewers. -/
theorem applied_changed_iff (m : Mutation) (victim : UInt64)
    (requests : IdMap (List CmpMtaRequest)) (responses : IdMap CmpMtaResponses)
    (deltas : IdMap (List CmpMtaDeltas)) (sis : IdMap (List Scalar))
    (playerIds signerIds : List UInt64) :
    (Changed (applyR1 m requests victim) requests ↔
      ∀ field, addressedR1 m requests victim = some field → ¬ ZeroesZeros m field) ∧
    (Changed (applyR2 m responses victim) responses ↔
      ∀ field, addressedR2 m responses victim = some field → ¬ ZeroesZeros m field) ∧
    (Changed (applyR3 m deltas) deltas ↔
      ∀ field, addressedR3 m deltas = some field → ¬ ZeroesZeros m field) ∧
    (Changed (applyR4 m sis playerIds signerIds) sis ↔
      ∀ field, addressedR4 m sis = some field → ¬ ZeroesZeros m field) ∧
    ∀ (α : Type) (cfg : Driver.RunConfig) (round : Int) (apply : Mutation → UInt64 → α → Bool × α)
      (sent : α) (viewer : UInt64), 0 < (Driver.view cfg round apply sent viewer).2 →
      cfg.maliciousIds.contains viewer = false ∧ ∃ m ∈ cfg.mutations,
        apply m viewer sent = (true, (Driver.view cfg round apply sent viewer).1) :=
  ⟨changed_requests_iff m requests victim, changed_responses_iff m responses victim,
    changed_deltas_iff m deltas, changed_sis_iff m sis playerIds signerIds, fun _ => view_counts⟩

/-- Player 1's share is zero, and is zeroed. -/
theorem zeroed_zero_counted :
    ¬ ∀ (m : Mutation) (sis : IdMap (List Scalar)) (playerIds signerIds : List UInt64),
      Changed (applyR4 m sis playerIds signerIds) sis := by
  intro h
  have hchanged := h ⟨4, 1, .r4Si, .zero, 0, 0, 0⟩
    (Std.ExtTreeMap.insert ∅ 1 [Vector.replicate 32 0]) [1, 2] [1, 2]
  rw [changed_sis_iff] at hchanged
  refine hchanged (List.replicate 32 0) ?_ ⟨rfl, by simp, fun _ => List.eq_of_mem_replicate⟩
  simp [addressedR4]

end MpcHunt.Harness
