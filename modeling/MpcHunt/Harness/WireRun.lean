/-
The wire of a session: a run against the library that records what each call
received and returned, and what the record says of every delivery.
-/
import MpcHunt.Harness.Tap
import MpcHunt.Harness.Wire

namespace MpcHunt.Harness

/-! ## The record -/

/-- One call of the library: the signer, what it received, and what it returned if it did. -/
structure Heard (α β : Type) where
  viewer : UInt64
  received : α
  returned : Option β

/-- The calls of a run, method by method and in order. -/
structure Record where
  startSigning : List (Heard Unit (List CmpMtaRequest))
  mtaResponse : List (Heard (IdMap (List CmpMtaRequest)) CmpMtaResponses)
  mtaVerify : List (Heard (IdMap CmpMtaResponses) (List CmpMtaDeltas))
  getSi : List (Heard (IdMap (List CmpMtaDeltas)) (List Scalar))
  getCmpSignature : List (Heard (IdMap (List Scalar)) (List RecoverableSignature))

def Record.empty : Record := ⟨[], [], [], [], []⟩

variable {η α β : Type}

/-- The library with its calls on record. -/
def Library.tapped (lib : Library η) : Library (η × Record) where
  maxBlocksToSign := lib.maxBlocksToSign
  makeService id := tapService (lib.makeService id)
  startSigning id keyId txid algorithm data metadataJson playersStr playersIds :=
    tapCall (fun out r => { r with startSigning := r.startSigning ++ [⟨id, (), out.toOption⟩] })
      (lib.startSigning id keyId txid algorithm data metadataJson playersStr playersIds)
  mtaResponse id txid requests :=
    tapCall (fun out r => { r with mtaResponse := r.mtaResponse ++ [⟨id, requests, out.toOption⟩] })
      (lib.mtaResponse id txid requests)
  mtaVerify id txid responses :=
    tapCall (fun out r => { r with mtaVerify := r.mtaVerify ++ [⟨id, responses, out.toOption⟩] })
      (lib.mtaVerify id txid responses)
  getSi id txid deltas :=
    tapCall (fun out r => { r with getSi := r.getSi ++ [⟨id, deltas, out.toOption⟩] })
      (lib.getSi id txid deltas)
  getCmpSignature id txid sis :=
    tapCall
      (fun out r => { r with getCmpSignature := r.getCmpSignature ++ [⟨id, sis, out.toOption⟩] })
      (lib.getCmpSignature id txid sis)
  now s := lib.now s.1

namespace Driver

/-! ## The loop over the signers -/

section
variable (H : Hashes) {received : UInt64 → α × Nat} {call : UInt64 → α → Call η β} {id : UInt64}
  {ids : List UInt64} {outs : IdMap β} {k : Nat} {p p' : Proc η}

theorem eachSigner_error {e : Thrown} (h : invoke H (call id (received id).1) p = (.error e, p')) :
    eachSigner H received call (id :: ids) outs k p =
      ((.error (id, guarded e), k + (received id).2), p') := by
  simp only [eachSigner, bind, StateT.bind, h]
  rfl

theorem eachSigner_ok {out : β} (h : invoke H (call id (received id).1) p = (.ok out, p')) :
    eachSigner H received call (id :: ids) outs k p =
      eachSigner H received call ids (outs.insert id out) (k + (received id).2) p' := by
  simp only [eachSigner, bind, StateT.bind, h]

end

/-- The outputs of the signers that returned, by signer. -/
def outputs (heard : List (Heard α β)) (outs : IdMap β) : IdMap β :=
  heard.foldl (fun outs h => match h.returned with
    | some out => outs.insert h.viewer out
    | none => outs) outs

/-- Every call on this list returned. -/
def Returned (heard : List (Heard α β)) : Prop := ∀ h ∈ heard, h.returned.isSome = true

/-- The signers that were called. -/
def viewers (heard : List (Heard α β)) : List UInt64 := heard.map Heard.viewer

/-- A call of `eachSigner` that goes on record in one list of it. -/
structure Notes (add : Record → List (Heard α β) → Record) : Prop where
  nil : ∀ r, add r [] = r
  cons : ∀ r h hs, add (add r [h]) hs = add r (h :: hs)

/-- What the loop leaves on record: each signer called received its view; where all calls return
every signer was called, and the maps of the loop are the outputs on record. -/
theorem eachSigner_tapped (H : Hashes) {add : Record → List (Heard α β) → Record} (hadd : Notes add)
    (received : UInt64 → α × Nat) (call : UInt64 → α → Call η β) (ids : List UInt64)
    (outs : IdMap β) (k : Nat) (p : Proc (η × Record)) :
    let r := eachSigner H received
      (fun id a => tapCall (fun out rec => add rec [⟨id, a, out.toOption⟩]) (call id a)) ids outs k p
    ∃ hs : List (Heard α β), r.2.record = add p.record hs ∧
      (∀ h ∈ hs, h.received = (received h.viewer).1) ∧
      r.1.2 = k + (hs.map fun h => (received h.viewer).2).sum ∧
      (∀ e, r.1.1 = .error e → ¬ Returned hs) ∧
      (∀ outs', r.1.1 = .ok outs' → outs' = outputs hs outs ∧ viewers hs = ids) := by
  induction ids generalizing outs k p with
  | nil =>
    refine ⟨[], (hadd.nil _).symm, by simp, rfl, fun e h => ?_, fun outs' h => ?_⟩
    · cases h
    · exact ⟨(Except.ok.inj h).symm, rfl⟩
  | cons id ids ih =>
    have hinvoke := invoke_tapCall H (fun out rec => add rec [⟨id, (received id).1, out.toOption⟩])
      (call id (received id).1) p
    cases hout : (invoke H (call id (received id).1) p.untap).1 with
    | error e =>
      rw [hout] at hinvoke
      rw [eachSigner_error H hinvoke]
      refine ⟨[⟨id, (received id).1, none⟩], rfl, by simp, by simp, fun _ _ hall => ?_, ?_⟩
      · exact absurd (hall _ (List.mem_singleton.2 rfl)) (by simp)
      · intro outs' h
        cases h
    | ok out =>
      rw [hout] at hinvoke
      dsimp only [Except.toOption] at hinvoke
      rw [eachSigner_ok H hinvoke]
      obtain ⟨hs, hrecord, hreceived, hsum, hno, houts⟩ := ih (outs.insert id out) (k + (received id).2)
        ((invoke H (call id (received id).1) p.untap).2.tap
          (add p.record [⟨id, (received id).1, some out⟩]))
      refine ⟨⟨id, (received id).1, some out⟩ :: hs, ?_, ?_, ?_, fun e he hall => ?_,
        fun outs' h => ?_⟩
      · rw [hrecord, Proc.record_tap, hadd.cons]
      · intro h hmem
        rcases List.mem_cons.1 hmem with rfl | hmem
        · rfl
        · exact hreceived h hmem
      · rw [hsum, List.map_cons, List.sum_cons, Nat.add_assoc]
      · exact hno e he fun h hmem => hall h (List.mem_cons_of_mem _ hmem)
      · obtain ⟨rfl, hviewers⟩ := houts outs' h
        exact ⟨rfl, congrArg (id :: ·) hviewers⟩

theorem untaps_eachSigner (H : Hashes) {note : UInt64 → α → Except Thrown β → Record → Record}
    (received : UInt64 → α × Nat) (call : UInt64 → α → Call η β) (ids : List UInt64)
    (outs : IdMap β) (k : Nat) :
    Untaps (eachSigner H received (fun id a => tapCall (note id a) (call id a)) ids outs k)
      (eachSigner H received call ids outs k) := by
  induction ids generalizing outs k with
  | nil => exact .pure _
  | cons id ids ih =>
    refine .bind (.invoke H _ _) fun r => ?_
    cases r with
    | error e => exact .pure _
    | ok out => exact ih _ _

/-! ## The wire of a run -/

/-- The deliveries to which the apply function was applied. -/
def appliedCount (cfg : RunConfig) (round : Int) (apply : Mutation → UInt64 → α → Bool × α) (sent : α)
    (heard : List (Heard α β)) : Nat :=
  heard.countP fun h => applied cfg round apply sent h.viewer

def applyTo1 (m : Mutation) (viewer : UInt64) (requests : IdMap (List CmpMtaRequest)) :
    Bool × IdMap (List CmpMtaRequest) :=
  applyR1 m requests viewer

def applyTo2 (m : Mutation) (viewer : UInt64) (responses : IdMap CmpMtaResponses) :
    Bool × IdMap CmpMtaResponses :=
  applyR2 m responses viewer

def applyTo3 (m : Mutation) (_ : UInt64) (deltas : IdMap (List CmpMtaDeltas)) :
    Bool × IdMap (List CmpMtaDeltas) :=
  applyR3 m deltas

def applyTo4 (s : Session) (cfg : RunConfig) (m : Mutation) (_ : UInt64) (sis : IdMap (List Scalar)) :
    Bool × IdMap (List Scalar) :=
  applyR4 m sis s.ids (signersOf s cfg)

/-- What a record says of the wire: every input of a round is delivered from the outputs of
the round before, and the mutations counted are those applied on the way. -/
structure WireFramed (s : Session) (cfg : RunConfig) (r : Record) (mutationsApplied : Nat) : Prop where
  round1 : ∀ h ∈ r.mtaResponse, Delivered cfg 1 applyTo1 ChangedR1 (outputs r.startSigning ∅)
    h.viewer h.received
  round2 : ∀ h ∈ r.mtaVerify, Delivered cfg 2 applyTo2 ChangedR2 (outputs r.mtaResponse ∅)
    h.viewer h.received
  round3 : ∀ h ∈ r.getSi, Delivered cfg 3 applyTo3 (fun m _ => ChangedR3 m) (outputs r.mtaVerify ∅)
    h.viewer h.received
  round4 : ∀ h ∈ r.getCmpSignature, Delivered cfg 4 (applyTo4 s cfg) (fun m _ => ChangedR4 m)
    (outputs r.getSi ∅) h.viewer h.received
  count : mutationsApplied =
    appliedCount cfg 1 applyTo1 (outputs r.startSigning ∅) r.mtaResponse +
    appliedCount cfg 2 applyTo2 (outputs r.mtaResponse ∅) r.mtaVerify +
    appliedCount cfg 3 applyTo3 (outputs r.mtaVerify ∅) r.getSi +
    appliedCount cfg 4 (applyTo4 s cfg) (outputs r.getSi ∅) r.getCmpSignature

/-- A round whose calls all return delivers to every signer, and the next one begins; the last
call is the observer's. -/
def Delivers (s : Session) (cfg : RunConfig) (r : Record) : Prop :=
  Returned r.startSigning → viewers r.startSigning = signersOf s cfg ∧
    (Returned r.mtaResponse → viewers r.mtaResponse = signersOf s cfg ∧
      (Returned r.mtaVerify → viewers r.mtaVerify = signersOf s cfg ∧
        (Returned r.getSi → viewers r.getSi = signersOf s cfg ∧
          viewers r.getCmpSignature = [observerOf s cfg])))

theorem sum_view_applied (cfg : RunConfig) (round : Int) (apply : Mutation → UInt64 → α → Bool × α)
    (sent : α) (heard : List (Heard α β)) :
    (heard.map fun h => (view cfg round apply sent h.viewer).2).sum =
      appliedCount cfg round apply sent heard := by
  unfold appliedCount
  induction heard with
  | nil => rfl
  | cons h hs ih =>
    rw [List.map_cons, List.sum_cons, ih, view_applied, List.countP_cons, Nat.add_comm]

theorem notes_startSigning :
    Notes fun r hs => { r with startSigning := r.startSigning ++ hs } :=
  ⟨fun _ => by simp, fun _ _ _ => by simp⟩

theorem notes_mtaResponse : Notes fun r hs => { r with mtaResponse := r.mtaResponse ++ hs } :=
  ⟨fun _ => by simp, fun _ _ _ => by simp⟩

theorem notes_mtaVerify : Notes fun r hs => { r with mtaVerify := r.mtaVerify ++ hs } :=
  ⟨fun _ => by simp, fun _ _ _ => by simp⟩

theorem notes_getSi : Notes fun r hs => { r with getSi := r.getSi ++ hs } :=
  ⟨fun _ => by simp, fun _ _ _ => by simp⟩

@[simp] theorem appliedCount_nil (cfg : RunConfig) (round : Int)
    (apply : Mutation → UInt64 → α → Bool × α) (sent : α) :
    appliedCount cfg round apply sent ([] : List (Heard α β)) = 0 := rfl

/-- The deliveries of one round, from what the loop left on record. -/
theorem delivered_of_view {cfg : RunConfig} {round : Int} (apply : Mutation → UInt64 → α → Bool × α)
    {Changed : Mutation → UInt64 → α → α → Prop}
    (hf : ∀ m viewer, Framed (apply m viewer) (Changed m viewer)) {sent : α}
    {heard : List (Heard α β)}
    (h : ∀ h ∈ heard, h.received = (view cfg round apply sent h.viewer).1) :
    ∀ h ∈ heard, Delivered cfg round apply Changed sent h.viewer h.received := by
  intro d hd
  rw [h d hd]
  exact view_delivered hf sent d.viewer

variable (H : Hashes) (lib : Library η) (s : Session) (cfg : RunConfig)

/-- The record and the count a computation ends with. -/
def EndsFramed (r : (α × Nat) × Proc (η × Record)) : Prop :=
  WireFramed s cfg r.2.record r.1.2 ∧ Delivers s cfg r.2.record

/-- The wire of the five rounds, whatever the library does. -/
theorem rounds_tapped (p : Proc η) : EndsFramed s cfg (rounds H lib.tapped s cfg (p.tap Record.empty)) := by
  have h1 := eachSigner_tapped H notes_startSigning (fun _ => ((), 0))
    (fun id _ => lib.startSigning id s.keyId cfg.txid 0 (signingData cfg) cfg.metadataJson
      ((signersOf s cfg).foldl (fun ids id => ids.insert (toStr id.toNat)) ∅)
      ((signersOf s cfg).foldl (fun ids id => ids.insert id) ∅)) (signersOf s cfg) ∅ 0 (p.tap Record.empty)
  unfold rounds
  simp only [bind, StateT.bind, Library.tapped]
  generalize eachSigner H _ _ _ _ _ (p.tap Record.empty) = r1 at h1 ⊢
  obtain ⟨⟨res1, k1⟩, p1⟩ := r1
  obtain ⟨heard1, hrec1, -, hk1, hno1, hout1⟩ := h1
  obtain rfl : k1 = 0 := by simpa using hk1
  replace hrec1 : p1.record = { Record.empty with startSigning := heard1 } := hrec1
  rcases res1 with ⟨id, o⟩ | requests
  · -- a call of the first round threw
    show WireFramed s cfg p1.record 0 ∧ Delivers s cfg p1.record
    rw [hrec1]
    exact ⟨⟨by simp [Record.empty], by simp [Record.empty], by simp [Record.empty],
      by simp [Record.empty], rfl⟩, fun h => absurd h (hno1 _ rfl)⟩
  obtain ⟨rfl, hall1⟩ := hout1 _ rfl
  have h2 := eachSigner_tapped H notes_mtaResponse (viewR1 cfg (outputs heard1 ∅))
    (fun id => lib.mtaResponse id cfg.txid) (signersOf s cfg) ∅ 0 p1
  simp only [bind, StateT.bind]
  generalize eachSigner H _ _ _ _ _ p1 = r2 at h2 ⊢
  obtain ⟨⟨res2, k2⟩, p2⟩ := r2
  obtain ⟨heard2, hrec2, hin2, hk2, hno2, hout2⟩ := h2
  replace hrec2 : p2.record = { Record.empty with startSigning := heard1, mtaResponse := heard2 } := by
    refine hrec2.trans ?_
    rw [hrec1]
    rfl
  have hround1 := delivered_of_view applyTo1 applyR1_framed hin2
  obtain rfl : k2 = appliedCount cfg 1 applyTo1 (outputs heard1 ∅) heard2 := by
    refine hk2.trans ?_
    rw [Nat.zero_add]
    exact sum_view_applied cfg 1 applyTo1 _ heard2
  rcases res2 with ⟨id, o⟩ | responses
  · show WireFramed s cfg p2.record _ ∧ Delivers s cfg p2.record
    rw [hrec2]
    exact ⟨⟨hround1, by simp [Record.empty], by simp [Record.empty], by simp [Record.empty], rfl⟩,
      fun _ => ⟨hall1, fun h => absurd h (hno2 _ rfl)⟩⟩
  obtain ⟨rfl, hall2⟩ := hout2 _ rfl
  have h3 := eachSigner_tapped H notes_mtaVerify (viewR2 cfg (outputs heard2 ∅))
    (fun id => lib.mtaVerify id cfg.txid) (signersOf s cfg) ∅
    (appliedCount cfg 1 applyTo1 (outputs heard1 ∅) heard2) p2
  simp only [bind, StateT.bind]
  generalize eachSigner H _ _ _ _ _ p2 = r3 at h3 ⊢
  obtain ⟨⟨res3, k3⟩, p3⟩ := r3
  obtain ⟨heard3, hrec3, hin3, hk3, hno3, hout3⟩ := h3
  replace hrec3 : p3.record = { Record.empty with
      startSigning := heard1, mtaResponse := heard2, mtaVerify := heard3 } := by
    refine hrec3.trans ?_
    rw [hrec2]
    rfl
  have hround2 := delivered_of_view applyTo2 applyR2_framed hin3
  have hsum3 := sum_view_applied cfg 2 applyTo2 (outputs heard2 ∅) heard3
  rcases res3 with ⟨id, o⟩ | deltas
  · show WireFramed s cfg p3.record k3 ∧ Delivers s cfg p3.record
    rw [hrec3]
    refine ⟨⟨hround1, hround2, by simp [Record.empty], by simp [Record.empty], ?_⟩,
      fun _ => ⟨hall1, fun _ => ⟨hall2, fun h => absurd h (hno3 _ rfl)⟩⟩⟩
    refine hk3.trans ?_
    rw [← hsum3]
    rfl
  obtain ⟨rfl, hall3⟩ := hout3 _ rfl
  have h4 := eachSigner_tapped H notes_getSi (viewR3 cfg (outputs heard3 ∅))
    (fun id => lib.getSi id cfg.txid) (signersOf s cfg) ∅ k3 p3
  simp only [bind, StateT.bind]
  generalize eachSigner H _ _ _ _ _ p3 = r4 at h4 ⊢
  obtain ⟨⟨res4, k4⟩, p4⟩ := r4
  obtain ⟨heard4, hrec4, hin4, hk4, hno4, hout4⟩ := h4
  replace hrec4 : p4.record = { Record.empty with
      startSigning := heard1, mtaResponse := heard2, mtaVerify := heard3, getSi := heard4 } := by
    refine hrec4.trans ?_
    rw [hrec3]
    rfl
  have hround3 := delivered_of_view applyTo3 (fun m _ => applyR3_framed m) hin4
  have hsum4 := sum_view_applied cfg 3 applyTo3 (outputs heard3 ∅) heard4
  have hcount4 : k4 = appliedCount cfg 1 applyTo1 (outputs heard1 ∅) heard2 +
      appliedCount cfg 2 applyTo2 (outputs heard2 ∅) heard3 +
      appliedCount cfg 3 applyTo3 (outputs heard3 ∅) heard4 := by
    refine hk4.trans ?_
    rw [← hsum3, ← hsum4]
    exact congrArg (· + _) hk3
  rcases res4 with ⟨id, o⟩ | sis
  · show WireFramed s cfg p4.record k4 ∧ Delivers s cfg p4.record
    rw [hrec4]
    exact ⟨⟨hround1, hround2, hround3, by simp [Record.empty], hcount4⟩, fun _ => ⟨hall1, fun _ =>
      ⟨hall2, fun _ => ⟨hall3, fun h => absurd h (hno4 _ rfl)⟩⟩⟩⟩
  obtain ⟨rfl, hall4⟩ := hout4 _ rfl
  simp only [bind, StateT.bind]
  rw [invoke_tapCall]
  generalize invoke H _ p4.untap = r5
  obtain ⟨res5, p5⟩ := r5
  have hframed : WireFramed s cfg
      { Record.empty with
        startSigning := heard1, mtaResponse := heard2, mtaVerify := heard3, getSi := heard4
        getCmpSignature := [⟨observerOf s cfg, (viewR4 s cfg (outputs heard4 ∅) (observerOf s cfg)).1,
          res5.toOption⟩] }
      (k4 + (viewR4 s cfg (outputs heard4 ∅) (observerOf s cfg)).2) := by
    refine ⟨hround1, hround2, hround3, ?_, ?_⟩
    · refine delivered_of_view (applyTo4 s cfg)
        (fun m _ => applyR4_framed m s.ids (signersOf s cfg)) ?_
      intro h hmem
      rw [List.mem_singleton.1 hmem]
      rfl
    · rw [hcount4]
      refine congrArg (_ + ·) ((view_applied cfg 4 (applyTo4 s cfg) _ _).trans ?_)
      rw [appliedCount, List.countP_singleton]
  have hdelivers : Delivers s cfg
      { Record.empty with
        startSigning := heard1, mtaResponse := heard2, mtaVerify := heard3, getSi := heard4
        getCmpSignature := [⟨observerOf s cfg, (viewR4 s cfg (outputs heard4 ∅) (observerOf s cfg)).1,
          res5.toOption⟩] } :=
    fun _ => ⟨hall1, fun _ => ⟨hall2, fun _ => ⟨hall3, fun _ => ⟨hall4, rfl⟩⟩⟩⟩
  rcases res5 with e | sigs
  · show WireFramed s cfg (p5.tap _).record _ ∧ Delivers s cfg (p5.tap _).record
    rw [Proc.record_tap, hrec4]
    exact ⟨hframed, hdelivers⟩
  · show WireFramed s cfg (p5.tap _).record _ ∧ Delivers s cfg (p5.tap _).record
    rw [Proc.record_tap, hrec4]
    exact ⟨hframed, hdelivers⟩

/-! ## The run -/

theorem untaps_rounds : Untaps (rounds H lib.tapped s cfg) (rounds H lib s cfg) := by
  unfold rounds
  simp only [Library.tapped]
  refine .bind (untaps_eachSigner H _ _ _ _ _) fun r1 => ?_
  rcases r1 with ⟨⟨id, o⟩ | requests, k1⟩
  · exact .pure _
  refine .bind (untaps_eachSigner H _ _ _ _ _) fun r2 => ?_
  rcases r2 with ⟨⟨id, o⟩ | responses, k2⟩
  · exact .pure _
  refine .bind (untaps_eachSigner H _ _ _ _ _) fun r3 => ?_
  rcases r3 with ⟨⟨id, o⟩ | deltas, k3⟩
  · exact .pure _
  refine .bind (untaps_eachSigner H _ _ _ _ _) fun r4 => ?_
  rcases r4 with ⟨⟨id, o⟩ | sis, k4⟩
  · exact .pure _
  refine .bind (.invoke H _ _) fun r5 => ?_
  cases r5 with
  | error e => exact .pure _
  | ok sigs => exact .pure _

theorem untaps_start : Untaps (start H lib.tapped s cfg) (start H lib s cfg) := by
  refine .bind (fun p => ⟨rfl, rfl⟩) fun _ => .bind (fun p => ⟨rfl, rfl⟩) fun _ => ?_
  exact untaps_makePlayers H (fun _ => rfl) s.ids

/-- `start` makes no call that goes on record. -/
theorem start_tapped (p : Proc η) :
    (start H lib.tapped s cfg (p.tap Record.empty)).2 = (start H lib s cfg p).2.tap Record.empty := by
  have hproc := (untaps_start H lib s cfg (p.tap Record.empty)).2
  have hrecord : (start H lib.tapped s cfg (p.tap Record.empty)).2.record = Record.empty :=
    record_makePlayers H (fun _ => rfl) s.ids _
  rw [Proc.untap_tap] at hproc
  rw [← Proc.tap_untap (start H lib.tapped s cfg (p.tap Record.empty)).2, hproc, hrecord]

variable (A : Algebra)

/-- At `p` the two computations only read the process, and come to one result, with `k`
mutations. -/
def Agree (k : Nat) (p : Proc (η × Record)) (x : Run (η × Record) RunResult) (y : Run η RunResult) :
    Prop :=
  ((x p).1 = (y p.untap).1 ∧ (x p).1.mutationsApplied = k) ∧ (x p).2 = p ∧ (y p.untap).2 = p.untap

section
variable {k : Nat} {p : Proc (η × Record)}

theorem Agree.pure {r : RunResult} (h : r.mutationsApplied = k) :
    Agree k p (Pure.pure r) (Pure.pure r) :=
  ⟨⟨rfl, h⟩, rfl, rfl⟩

theorem Agree.get {f : Proc (η × Record) → Run (η × Record) RunResult} {g : Proc η → Run η RunResult}
    (h : Agree k p (f p) (g p.untap)) : Agree k p (get >>= f) (get >>= g) := h

theorem Agree.ite {c : Prop} [Decidable c] {x x' : Run (η × Record) RunResult} {y y' : Run η RunResult}
    (h : Agree k p x y) (h' : Agree k p x' y') :
    Agree k p (if c then x else x') (if c then y else y') := by
  by_cases hc : c
  · rw [if_pos hc, if_pos hc]
    exact h
  · rw [if_neg hc, if_neg hc]
    exact h'

theorem Agree.framed {x : Run (η × Record) RunResult} {y : Run η RunResult} (h : Agree k p x y)
    (hw : WireFramed s cfg p.record k ∧ Delivers s cfg p.record) :
    (x p).1 = (y p.untap).1 ∧ (x p).2.untap = (y p.untap).2 ∧
      WireFramed s cfg (x p).2.record (x p).1.mutationsApplied ∧
      Delivers s cfg (x p).2.record := by
  obtain ⟨⟨hr, hk⟩, hp, hp'⟩ := h
  rw [hk, hp, hp']
  exact ⟨hr, rfl, hw⟩

end

/-- The oracles see no difference. -/
theorem judge_tapped (t0 applied : Nat) (before : Bytes) (sigs : List RecoverableSignature)
    (p : Proc (η × Record)) :
    Agree applied p (judge H A lib.tapped s cfg t0 applied before sigs)
      (judge H A lib s cfg t0 applied before sigs) := by
  refine Agree.get (Agree.get (Agree.get (.ite (.pure rfl) (.ite (.pure rfl) (.ite (.pure rfl) ?_)))))
  cases judgeBlocks A s cfg 0 sigs with
  | some detail => exact .pure rfl
  | none => exact .ite (.pure rfl) (.pure rfl)

theorem throwExit_tapped (observer : UInt64) (t0 round applied : Nat) (before : Bytes) (id : UInt64)
    (o : CallOutcome) (p : Proc (η × Record)) :
    Agree applied p (throwExit H lib.tapped cfg observer t0 round applied before id o)
      (throwExit H lib cfg observer t0 round applied before id o) :=
  Agree.get (Agree.get (.pure rfl))

/-- A run that begins, against the recording library. -/
theorem run_tapped {s : Session} {cfg : RunConfig} (hg : guard lib.maxBlocksToSign s cfg = none)
    (p : Proc η) :
    let r := run H A lib.tapped s cfg (p.tap Record.empty)
    r.1 = (run H A lib s cfg p).1 ∧ r.2.untap = (run H A lib s cfg p).2 ∧
      WireFramed s cfg r.2.record r.1.mutationsApplied ∧ Delivers s cfg r.2.record := by
  have hg' : guard lib.tapped.maxBlocksToSign s cfg = none := hg
  rw [run_of_start H A lib hg, run_of_start H A lib.tapped hg', start_tapped]
  have hframed := rounds_tapped H lib s cfg (start H lib s cfg p).2
  obtain ⟨hres, hproc⟩ := untaps_rounds H lib s cfg ((start H lib s cfg p).2.tap Record.empty)
  rw [Proc.untap_tap] at hres hproc
  generalize rounds H lib.tapped s cfg ((start H lib s cfg p).2.tap Record.empty) = r at hframed hres hproc ⊢
  generalize rounds H lib s cfg (start H lib s cfg p).2 = r' at hres hproc ⊢
  obtain ⟨⟨res, applied⟩, p1⟩ := r
  obtain ⟨⟨res', applied'⟩, p1'⟩ := r'
  cases hres
  cases hproc
  rcases res with ⟨round, id, o⟩ | sigs
  · exact (throwExit_tapped H lib cfg (observerOf s cfg) (lib.now p.world.lib) round applied
      (digestAt H (observerOf s cfg) (start H lib s cfg p).2) id o p1).framed s cfg hframed
  · exact (judge_tapped H lib s cfg A (lib.now p.world.lib) applied
      (digestAt H (observerOf s cfg) (start H lib s cfg p).2) sigs p1).framed s cfg hframed

/-- A run that begins delivers: round by round to every signer, as long as the calls return. -/
theorem run_delivers {s : Session} {cfg : RunConfig} (hg : guard lib.maxBlocksToSign s cfg = none)
    (p : Proc η) : Delivers s cfg (run H A lib.tapped s cfg (p.tap Record.empty)).2.record :=
  (run_tapped H lib A hg p).2.2.2

/-- **The wire of a session.** Whatever the library does, a run against the recording library
is the run, and on its record a malicious signer receives the honest outputs of the round
before, an honest one these but for what the first enabled mutation of the round may change;
the mutations counted are the deliveries it was applied to. -/
theorem run_wire_framed (s : Session) (cfg : RunConfig) (p : Proc η) :
    let r := run H A lib.tapped s cfg (p.tap Record.empty)
    r.1 = (run H A lib s cfg p).1 ∧ r.2.untap = (run H A lib s cfg p).2 ∧
      WireFramed s cfg r.2.record r.1.mutationsApplied := by
  cases hg : guard lib.maxBlocksToSign s cfg with
  | some detail =>
    have hg' : guard lib.tapped.maxBlocksToSign s cfg = some detail := hg
    rw [run_of_guard H A lib hg, run_of_guard H A lib.tapped hg']
    exact ⟨rfl, rfl, by simp [Record.empty], by simp [Record.empty], by simp [Record.empty],
      by simp [Record.empty], rfl⟩
  | none =>
    obtain ⟨hres, hproc, hframed, -⟩ := run_tapped H lib A hg p
    exact ⟨hres, hproc, hframed⟩

end Driver

end MpcHunt.Harness
