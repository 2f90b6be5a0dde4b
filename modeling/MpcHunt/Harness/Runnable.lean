/-
When the configuration an input decodes to passes the guards of `session::run`,
for the snapshots `verify_snapshot` accepts; and what the entry points do with
the harness fault it is when it does not.
-/
import MpcHunt.Harness.CleanVerdict
import MpcHunt.Harness.Replay

namespace MpcHunt.Harness

open Triples

theorem IdSet.mem_singleton {a id : UInt64} : id ∈ ({a} : IdSet) ↔ id = a := by
  rw [Std.ExtTreeSet.singleton_eq_insert, Std.ExtTreeSet.mem_insert]
  simp only [Std.ExtTreeSet.not_mem_empty, or_false, Std.LawfulEqCmp.compare_eq_iff_eq]
  exact eq_comm

theorem getD_mod_mem {α : Type} {l : List α} (hl : 0 < l.length) (i : Nat) (d : α) :
    l.getD (i % l.length) d ∈ l := by
  rw [List.getD_eq_getElem _ _ (Nat.mod_lt i hl)]
  exact List.getElem_mem _

/-! ## The guards -/

namespace Driver

variable {maxBlocks : Nat} {s : Session} {cfg : RunConfig} {attacker : UInt64}

/-- Two distinct signers: one of them is not the attacker. -/
theorem honestOf_ne_nil (hmal : cfg.maliciousIds = {attacker}) (htwo : 2 ≤ (signersOf s cfg).length)
    (hnodup : (signersOf s cfg).Nodup) : honestOf s cfg ≠ [] := by
  intro hnil
  have hall : ∀ id ∈ signersOf s cfg, id = attacker := by
    intro id hid
    have hout := List.filter_eq_nil_iff.1 hnil id hid
    rw [hmal] at hout
    refine IdSet.mem_singleton.1 (Std.ExtTreeSet.contains_iff_mem.1 ?_)
    simpa using hout
  match hsig : signersOf s cfg, htwo with
  | a :: b :: rest, _ =>
    rw [hsig] at hall hnodup
    have hab : a = b := (hall a (by simp)).trans (hall b (by simp)).symm
    exact (List.nodup_cons.1 hnodup).1 (by simp [hab])

/-- A configuration with one attacker, at least two signers and at least one block passes
the guards where its signers are distinct and as many as the threshold, and the library
takes that many blocks. -/
theorem guard_eq_none_iff (hmal : cfg.maliciousIds = {attacker}) (hatt : attacker ∈ s.ids)
    (hids : ∀ id ∈ signersOf s cfg, id ∈ s.ids) (htwo : 2 ≤ (signersOf s cfg).length)
    (hblocks : 0 < cfg.blocks) :
    guard maxBlocks s cfg = none ↔ (signersOf s cfg).Nodup ∧
      (signersOf s cfg).length = s.snap.t.toNat ∧ cfg.blocks ≤ maxBlocks := by
  have hne : signersOf s cfg ≠ [] := fun hnil => by simp [hnil] at htwo
  have hsigners : (signersOf s cfg).find? (· ∉ s.ids) = none := by
    refine List.find?_eq_none.2 fun id hid => ?_
    simp [hids id hid]
  have hmalicious : cfg.maliciousIds.toList.find? (· ∉ s.ids) = none := by
    refine List.find?_eq_none.2 fun id hid => ?_
    rw [hmal, Std.ExtTreeSet.mem_toList] at hid
    simp [IdSet.mem_singleton.1 hid, hatt]
  unfold guard
  dsimp only
  rw [if_neg hne, hsigners, hmalicious]
  by_cases hnodup : (signersOf s cfg).Nodup
  · rw [if_neg (not_not.2 hnodup), if_neg (honestOf_ne_nil hmal htwo hnodup)]
    by_cases hlen : (signersOf s cfg).length = s.snap.t.toNat
    · by_cases hmax : cfg.blocks ≤ maxBlocks
      · simp [hnodup, hlen, hmax, Nat.pos_iff_ne_zero.1 hblocks]
      · simp [hlen, hmax, Nat.lt_of_not_le hmax]
    · simp [hlen]
  · simp [hnodup]

/-- Past the guards, a run with an attacker is no harness fault. -/
theorem run_ne_harnessFault {η : Type} (H : Hashes) (A : Algebra) (lib : Library η) {p : Proc η}
    (hguard : guard lib.maxBlocksToSign s cfg = none) (hon : cfg.honestOnly = false) :
    (run H A lib s cfg p).1.v ≠ .harnessFault := by
  rw [run_of_start H A lib hguard]
  rcases rounds H lib s cfg (start H lib s cfg p).2 with ⟨⟨⟨round, id, o⟩ | sigs, applied⟩, p'⟩
  · obtain ⟨-, -, hv⟩ := throwExit_spec H lib cfg (p := p') (observerOf s cfg)
      (lib.now p.world.lib) round applied
      (digestAt H (observerOf s cfg) (start H lib s cfg p).2) id o
    rw [hon] at hv
    dsimp only
    rw [hv]
    cases o.fatal with
    | false => exact Verdict.noConfusion
    | true => exact Verdict.noConfusion
  · exact (judge_spec H A lib s cfg (p := p') (lib.now p.world.lib) applied
      (digestAt H (observerOf s cfg) (start H lib s cfg p).2) sigs).2.2.2

end Driver

/-! ## Snapshots that pass the checks -/

section
variable {C : SnapshotCurve} {K : KeyCodec} {snap : Snapshot} {keyId data : Bytes} {shardSeed : UInt64}
  {maxBlocks : Nat}

theorem verifySnapshot_bounds (h : verifySnapshot C K snap = .ok ()) :
    2 ≤ snap.t.toNat ∧ snap.t.toNat ≤ snap.players.length ∧ snap.n.toNat = snap.players.length := by
  unfold verifySnapshot at h
  by_cases hplayers : snap.players.length < 2
  · rw [if_pos hplayers] at h
    cases h
  rw [if_neg hplayers] at h
  by_cases ht : snap.t.toNat < 2 ∨ snap.t.toNat > snap.players.length
  · rw [if_pos ht] at h
    cases h
  rw [if_neg ht] at h
  by_cases hn : snap.n.toNat ≠ snap.players.length
  · rw [if_pos hn] at h
    cases h
  omega

@[simp] theorem Session.ids_make : (Session.make K snap keyId).1.ids = snap.playerIds := rfl

@[simp] theorem Session.snap_make : (Session.make K snap keyId).1.snap = snap := rfl

/-- The signers of an input at cmp_r4_tn: the first `t` players. -/
theorem R4.signersOf_decode (K : KeyCodec) (keyId : Bytes) (shardSeed : UInt64) (data : Bytes)
    (ht : snap.t.toNat ≤ snap.players.length) (htwo : 2 ≤ snap.t.toNat) :
    Driver.signersOf (Session.make K snap keyId).1
        (R4.decode (Session.make K snap keyId).1 shardSeed data) =
      snap.playerIds.take snap.t.toNat := by
  have hlen : snap.playerIds.length = snap.players.length := List.length_map _
  show (if R4.designatedSigners (Session.make K snap keyId).1 = [] then snap.playerIds
    else R4.designatedSigners (Session.make K snap keyId).1) = _
  unfold R4.designatedSigners
  rw [Session.ids_make, Session.snap_make]
  by_cases hless : snap.t.toNat < snap.playerIds.length
  · have hne : snap.playerIds.take snap.t.toNat ≠ [] := by
      intro hnil
      have hzero := congrArg List.length hnil
      simp only [List.length_take, List.length_nil] at hzero
      omega
    rw [if_pos hless, if_neg hne]
  · rw [if_neg hless, if_pos rfl, List.take_of_length_le (by omega)]

/-- The attacker of an input at cmp_r4_tn is one of its signers. -/
theorem R4.maliciousIds_decode (s : Session) (shardSeed : UInt64) (data : Bytes) :
    (R4.decode s shardSeed data).maliciousIds =
      {(Driver.signersOf s (R4.decode s shardSeed data)).getD ((General.at_ data 2).toNat %
        (Driver.signersOf s (R4.decode s shardSeed data)).length) 0} := rfl

/-- **When an input decodes to a runnable case** at cmp_r4_tn: on a snapshot that passes the
checks, where its first `t` player ids are distinct, which no check says. -/
theorem r4_runnable_iff (h : verifySnapshot C K snap = .ok ()) (hmax : 5 ≤ maxBlocks)
    (keyId : Bytes) (shardSeed : UInt64) (data : Bytes) :
    Driver.guard maxBlocks (Session.make K snap keyId).1
        (R4.decode (Session.make K snap keyId).1 shardSeed data) = none ↔
      (snap.playerIds.take snap.t.toNat).Nodup := by
  obtain ⟨htwo, ht, -⟩ := verifySnapshot_bounds h
  have hsigners := R4.signersOf_decode K keyId shardSeed data ht htwo
  have hmal := R4.maliciousIds_decode (Session.make K snap keyId).1 shardSeed data
  rw [hsigners] at hmal
  have hlen : (snap.playerIds.take snap.t.toNat).length = snap.t.toNat := by
    have hids : snap.playerIds.length = snap.players.length := List.length_map _
    rw [List.length_take]
    omega
  have hblocks : 0 < (R4.decode (Session.make K snap keyId).1 shardSeed data).blocks ∧
      (R4.decode (Session.make K snap keyId).1 shardSeed data).blocks ≤ 5 := by
    show 0 < 1 + (General.at_ data 1).toNat % 5 ∧ 1 + (General.at_ data 1).toNat % 5 ≤ 5
    omega
  have hids : ∀ id ∈ snap.playerIds.take snap.t.toNat, id ∈ snap.playerIds :=
    fun id hid => List.mem_of_mem_take hid
  rw [Driver.guard_eq_none_iff hmal, hsigners]
  · exact ⟨fun hg => hg.1, fun hnodup => ⟨hnodup, hlen, Nat.le_trans hblocks.2 hmax⟩⟩
  · exact hids _ (getD_mod_mem (by omega) _ _)
  · rw [hsigners]
    exact hids
  · rw [hsigners]
    omega
  · exact hblocks.1

end

/-! ## Sessions of an accepted snapshot -/

section
variable {η τ : Type} {P : Platform η τ} {env : Environment} {e : EntryPoint}

/-- The session of a process is that of a snapshot that passed the checks. -/
def Accepted (P : Platform η τ) (f : Fuzz η τ) : Prop :=
  ∃ snap, verifySnapshot P.C P.K snap = .ok () ∧
    f.session = some (Session.make P.K snap (str "opus-key")).1

theorem steady_accepted : Steady (Accepted P) := fun _ _ hf => hf

theorem keepsE_onProc_accepted {α : Type} (x : Run η α) : KeepsE (Accepted P) (onProc x) :=
  fun _ hf => hf

/-- What says nothing of the state holds all the way. -/
theorem returns_const {α : Type} {p : Prop} (x : Entry η τ α) :
    Returns (fun _ => p) x fun _ _ => p := fun _ hp _ _ _ => hp

theorem returns_loadSnapshot :
    Returns (fun _ => True) (loadSnapshot P env) fun snap _ => verifySnapshot P.C P.K snap = .ok () := by
  unfold loadSnapshot
  rcases env.snapshotPath with _ | _ | file
  · exact Returns.throw _ _
  · exact Returns.throw _ _
  · cases hread : readSnapshot file with
    | error e => simp only [hread]; exact Returns.throw _ _
    | ok snap =>
      cases hver : verifySnapshot P.C P.K snap with
      | error e => simp only [hread, hver]; exact Returns.throw _ _
      | ok u => simp only [hread, hver]; exact Returns.pure fun _ _ => hver

theorem returns_makeSession_accepted (snap : Snapshot) :
    Returns (fun _ => verifySnapshot P.C P.K snap = .ok ()) (makeSession P env snap)
      fun _ => Accepted P := by
  intro f hver ok f' hr
  cases hr
  exact ⟨snap, hver, rfl⟩

theorem General.returns_accepted :
    Returns (fun _ => True) (General.llvmFuzzerInitialize P env) fun _ => Accepted P := by
  unfold General.llvmFuzzerInitialize
  refine Returns.bind (returns_const _) fun r => returns_unless fun _ => ?_
  refine Returns.bind returns_loadSnapshot fun snap => ?_
  refine Returns.bind (returns_const _) fun effective => ?_
  refine returns_unless fun _ => returns_unless fun _ => ?_
  refine Returns.bind (returns_makeSession_accepted snap) fun ok => ?_
  exact Returns.ite (fun _ => Returns.throw _ _) fun _ => Returns.pure fun _ hf => hf

theorem R4.returns_accepted :
    Returns (fun _ => True) (R4.llvmFuzzerInitialize P env) fun _ => Accepted P := by
  unfold R4.llvmFuzzerInitialize
  refine Returns.bind (returns_const _) fun r => returns_unless fun _ => ?_
  refine Returns.bind returns_loadSnapshot fun snap => ?_
  refine Returns.bind (returns_const _) fun effective => ?_
  refine returns_unless fun _ => returns_unless fun _ => ?_
  refine Returns.bind (returns_makeSession_accepted snap) fun ok => ?_
  exact returns_unless fun _ => (keepsE_configureTelemetry steady_accepted _).returns

theorem Dual.returns_accepted :
    Returns (fun _ => True) (Dual.llvmFuzzerInitialize P env) fun _ => Accepted P := by
  unfold Dual.llvmFuzzerInitialize
  refine Returns.bind returns_loadSnapshot fun snap => ?_
  refine Returns.bind (returns_makeSession_accepted snap) fun ok => ?_
  refine returns_unless fun _ => ?_
  refine Returns.bind KeepsE.get.returns fun f => ?_
  cases f.session with
  | none => exact Returns.throw _ _
  | some s =>
    refine Returns.bind (keepsE_onProc_accepted _).returns fun control => ?_
    exact returns_unless fun _ => (keepsE_configureTelemetry steady_accepted _).returns

/-- Going on past a check that stops the process, with what holds all the way. -/
theorem keepsE_unlessFailed {α β : Type} {I : Fuzz η τ → Prop} {c : Prop} [Decidable c]
    {reason : String} {k : α → Entry η τ β} {y : Entry η τ β} (hy : KeepsE I y) :
    KeepsE I (if c then failClosed reason >>= k else y) :=
  KeepsE.ite (fun _ _ hf => hf) fun _ => hy

/-- No case touches the session. -/
theorem EntryPoint.keepsE_testOneInput (data : Bytes) :
    KeepsE (Accepted P) (e.testOneInput P data) := by
  cases e with
  | cmpGeneral =>
    refine KeepsE.ite (fun _ => KeepsE.pure _) fun _ => KeepsE.bind KeepsE.get fun f => ?_
    cases f.session with
    | none => exact KeepsE.throw _
    | some s =>
      refine KeepsE.bind (keepsE_onProc_accepted _) fun result => ?_
      exact KeepsE.ite (fun _ => KeepsE.pure _) fun _ => keepsE_endCase _
  | cmpR4Tn =>
    refine KeepsE.ite (fun _ => keepsE_doorReject steady_accepted) fun _ => ?_
    refine KeepsE.bind KeepsE.get fun f => ?_
    cases f.session with
    | none => exact KeepsE.throw _
    | some s =>
      refine keepsE_unlessFailed (KeepsE.bind (keepsE_onProc_accepted _) fun result => ?_)
      refine keepsE_unlessFailed (KeepsE.ite (fun _ => ?_) fun _ => ?_)
      · exact keepsE_recordCase steady_accepted _ _ _
      · exact KeepsE.bind (keepsE_recordCase steady_accepted _ _ _) fun _ => keepsE_endCase _
  | cmpDual =>
    refine KeepsE.ite (fun _ => keepsE_doorReject steady_accepted) fun _ => ?_
    refine KeepsE.bind KeepsE.get fun f => ?_
    cases f.session with
    | none => exact KeepsE.throw _
    | some s =>
      refine KeepsE.bind (keepsE_onProc_accepted _) fun r => ?_
      refine keepsE_unlessFailed (KeepsE.bind (keepsE_recordCase steady_accepted _ _ _) fun _ => ?_)
      exact KeepsE.ite (fun _ => Dual.keepsE_signalFindings _) fun _ => KeepsE.pure _

theorem Reachable.accepted {f : Fuzz η τ} (h : Reachable e P env f) : Accepted P f := by
  induction h with
  | initialized hi =>
    cases e with
    | cmpGeneral => exact General.returns_accepted _ trivial _ _ hi
    | cmpR4Tn => exact R4.returns_accepted _ trivial _ _ hi
    | cmpDual => exact Dual.returns_accepted _ trivial _ _ hi
  | @tested f f' data _ ht ih =>
    have hcase : Accepted P (e.testOneInput P data f).2 := EntryPoint.keepsE_testOneInput data f ih
    rw [ht] at hcase
    exact hcase

/-! ## Harness faults -/

/-- Whether the door of an entry point lets an input in. -/
def EntryPoint.door (e : EntryPoint) (data : Bytes) : Bool :=
  match e with
  | .cmpGeneral | .cmpR4Tn => General.door data
  | .cmpDual => Dual.door data

/-- Whether the run an input leads to yields a harness fault. -/
def EntryPoint.faults (e : EntryPoint) (P : Platform η τ) (data : Bytes) (f : Fuzz η τ) : Prop :=
  ∃ s, f.session = some s ∧
    match e with
    | .cmpGeneral =>
      (Driver.run P.H P.A P.lib s (General.decode s f.shardSeed data) f.proc).1.v = .harnessFault
    | .cmpR4Tn =>
      (Driver.run P.H P.A P.lib s (R4.decode s f.shardSeed data) f.proc).1.v = .harnessFault
    | .cmpDual =>
      (Dual.dualRun P.H P.lib P.A s (f.shardSeed ^^^ fnv1a64 data) data f.proc).1.verdict.harnessFault
        = true

/-- A harness fault of an input does not pass for a clean execution: the process stops. -/
def EntryPoint.StopsOnFault (e : EntryPoint) (P : Platform η τ) (data : Bytes) (f : Fuzz η τ) : Prop :=
  e.faults P data f → ∃ reason, (e.testOneInput P data f).1 = .error (.failClosed reason)

variable {f : Fuzz η τ} {s : Session} {data : Bytes}

theorem General.guard_iff (hsnap : verifySnapshot P.C P.K s.snap = .ok ())
    (hids : s.ids = s.snap.playerIds) :
    Driver.guard P.lib.maxBlocksToSign s (General.decode s f.shardSeed data) = none ↔
      s.snap.playerIds.Nodup ∧ s.snap.t.toNat = s.snap.players.length ∧
        1 + (General.at_ data 1).toNat % 5 ≤ P.lib.maxBlocksToSign := by
  obtain ⟨htwo, ht, -⟩ := verifySnapshot_bounds hsnap
  have hlen : s.snap.playerIds.length = s.snap.players.length := List.length_map _
  have hsigners : Driver.signersOf s (General.decode s f.shardSeed data) = s.snap.playerIds := hids
  have hatt : s.snap.playerIds.getD ((General.at_ data 2).toNat % s.snap.players.length) 0 ∈
      s.snap.playerIds := by
    rw [← hlen]
    exact getD_mod_mem (by omega) _ _
  have hmal : (General.decode s f.shardSeed data).maliciousIds =
      {s.snap.playerIds.getD ((General.at_ data 2).toNat % s.snap.players.length) 0} := rfl
  rw [Driver.guard_eq_none_iff hmal, hsigners, hlen]
  · exact ⟨fun hg => ⟨hg.1, hg.2.1.symm, hg.2.2⟩, fun hc => ⟨hc.1, hc.2.1.symm, hc.2.2⟩⟩
  · rw [hids]
    exact hatt
  · rw [hsigners, hids]
    exact fun _ hid => hid
  · rw [hsigners]
    omega
  · show 0 < 1 + (General.at_ data 1).toNat % 5
    omega

/-- cmp_general lets go of a run the guards refuse: nothing was applied. -/
theorem General.stopsOnFault_iff (hs : f.session = some s) (hdoor : General.door data = true) :
    EntryPoint.cmpGeneral.StopsOnFault P data f ↔
      Driver.guard P.lib.maxBlocksToSign s (General.decode s f.shardSeed data) = none := by
  cases hguard : Driver.guard P.lib.maxBlocksToSign s (General.decode s f.shardSeed data) with
  | none =>
    refine ⟨fun _ => rfl, fun _ hfault => ?_⟩
    obtain ⟨s', hs', hv⟩ := hfault
    rw [hs] at hs'
    cases hs'
    exact absurd hv (Driver.run_ne_harnessFault P.H P.A P.lib hguard rfl)
  | some detail =>
    have hrun := Driver.run_of_guard P.H P.A P.lib (p := f.proc) hguard
    refine ⟨fun hstops => ?_, fun hno => by cases hno⟩
    obtain ⟨reason, hstop⟩ := hstops ⟨s, hs, by rw [hrun]; rfl⟩
    have hreturn : (General.llvmFuzzerTestOneInput P data f).1 = .ok () := by
      unfold General.llvmFuzzerTestOneInput
      rw [if_neg (not_not.2 hdoor), getE_bind, hs]
      dsimp only
      rw [onProc_bind, hrun]
      rfl
    exact absurd (hreturn.symm.trans hstop) (fun he => by cases he)

theorem R4.stopsOnFault (hdoor : General.door data = true) :
    EntryPoint.cmpR4Tn.StopsOnFault P data f := by
  rintro ⟨s, hs, hv⟩
  show ∃ reason, (R4.llvmFuzzerTestOneInput P data f).1 = .error (.failClosed reason)
  unfold R4.llvmFuzzerTestOneInput
  rw [if_neg (not_not.2 hdoor), getE_bind, hs]
  dsimp only
  by_cases hplayers : s.ids.length < 2
  · rw [if_pos hplayers]
    exact ⟨_, rfl⟩
  · rw [if_neg hplayers, onProc_bind, if_pos hv]
    exact ⟨_, rfl⟩

theorem Dual.stopsOnFault (hdoor : Dual.door data = true) :
    EntryPoint.cmpDual.StopsOnFault P data f := by
  rintro ⟨s, hs, hv⟩
  show ∃ reason, (Dual.llvmFuzzerTestOneInput P data f).1 = .error (.failClosed reason)
  unfold Dual.llvmFuzzerTestOneInput
  rw [if_neg (not_not.2 hdoor), getE_bind, hs]
  dsimp only
  rw [onProc_bind, if_pos hv]
  exact ⟨_, rfl⟩

/-- **When a harness fault stops the process.** In every state of a process: always at
cmp_r4_tn and cmp_dual, which look at the fault before anything else; at cmp_general, which
looks at what was applied first, only where there is none: the players of the snapshot have
distinct ids and all sign, and the library takes as many blocks as the input asks for. -/
theorem harnessFault_stops_iff (h : Reachable e P env f) (hs : f.session = some s)
    (hdoor : e.door data = true) :
    e.StopsOnFault P data f ↔ (e = .cmpGeneral →
      s.snap.playerIds.Nodup ∧ s.snap.t.toNat = s.snap.players.length ∧
        1 + (General.at_ data 1).toNat % 5 ≤ P.lib.maxBlocksToSign) := by
  cases e with
  | cmpGeneral =>
    obtain ⟨snap, hsnap, hsession⟩ := h.accepted
    rw [hs] at hsession
    cases hsession
    rw [General.stopsOnFault_iff hs hdoor, General.guard_iff hsnap rfl]
    exact ⟨fun hc _ => hc, fun hc => hc rfl⟩
  | cmpR4Tn => exact ⟨fun _ he => EntryPoint.noConfusion he, fun _ => R4.stopsOnFault hdoor⟩
  | cmpDual => exact ⟨fun _ he => EntryPoint.noConfusion he, fun _ => Dual.stopsOnFault hdoor⟩

end

/-! ## Snapshots of three players -/

namespace ThreePlayers

/-- Three players of whom any two sign. -/
def snapshot (first second third : UInt64) : Snapshot :=
  ⟨0, 2 :: Unseeded.share 3, List.replicate 32 0, 2, 3,
    [Unseeded.player first 1, Unseeded.player second 2, Unseeded.player third 3]⟩

theorem verified : verifySnapshot Unseeded.curve Unseeded.codec (snapshot 1 2 3) = .ok () := by
  decide +kernel

theorem verified_repeated : verifySnapshot Unseeded.curve Unseeded.codec (snapshot 1 1 2) = .ok () := by
  decide +kernel

/-- A library whose `start_signing` sends the nonce it draws. -/
def library : Library Unseeded.Records :=
  { Unseeded.library with
    startSigning _ _ _ _ _ _ _ _ w :=
      .rand 32 fun
        | none => .done (.error (.cosignerException []), w)
        | some nonce =>
          let origin : Point := Vector.replicate 33 0
          .done (.ok [⟨⟨nonce, [], []⟩, ∅, origin, origin, origin⟩], w) }

def platform : Platform Unseeded.Records Unit :=
  ⟨⟨fun _ => Vector.replicate 32 0, memcpy 64⟩, Unseeded.algebra, library, Unseeded.codec,
    Unseeded.curve, Unseeded.recorder⟩

def environment : Environment :=
  ⟨some (some (writeSnapshot (snapshot 1 2 3))), none, 0, false, false, none⟩

/-- The process after its start-up. -/
def started : Fuzz Unseeded.Records Unit :=
  (General.llvmFuzzerInitialize platform environment (.initial [] () true fun n => .ofNat n)).2

def session : Session := (Session.make Unseeded.codec (snapshot 1 2 3) (str "opus-key")).1

theorem start_up :
    (General.llvmFuzzerInitialize platform environment (.initial [] () true fun n => .ofNat n)).1 =
        .ok () ∧ started.session = some session := by decide +kernel

theorem started_ok :
    General.llvmFuzzerInitialize platform environment (.initial [] () true fun n => .ofNat n) =
      (.ok (), started) :=
  Prod.ext start_up.1 (by simp only [started])

/-- Eight zero bytes. -/
def zeros : Bytes := List.replicate 8 0

end ThreePlayers

/-- Three players with distinct ids: an input is runnable. -/
theorem r4_runnable_three :
    Driver.guard 5 (Session.make Unseeded.codec (ThreePlayers.snapshot 1 2 3) []).1
        (R4.decode (Session.make Unseeded.codec (ThreePlayers.snapshot 1 2 3) []).1 0
          ThreePlayers.zeros) = none ↔
      ((ThreePlayers.snapshot 1 2 3).playerIds.take 2).Nodup :=
  r4_runnable_iff ThreePlayers.verified (Nat.le_refl 5) [] 0 ThreePlayers.zeros

/-- A snapshot that passes the checks with one id for two of its three players: every input
is refused. -/
theorem r4_refused_repeated :
    verifySnapshot Unseeded.curve Unseeded.codec (ThreePlayers.snapshot 1 1 2) = .ok () ∧
      3 ≤ (ThreePlayers.snapshot 1 1 2).players.length ∧
        General.door ThreePlayers.zeros = true ∧
          Driver.guard 5 (Session.make Unseeded.codec (ThreePlayers.snapshot 1 1 2) []).1
            (R4.decode (Session.make Unseeded.codec (ThreePlayers.snapshot 1 1 2) []).1 0
              ThreePlayers.zeros) = some (str "duplicate signer id in signers_ids") :=
  ⟨ThreePlayers.verified_repeated, by decide, by decide, by decide +kernel⟩

/-- A process of cmp_general over a snapshot of which two players of three sign. -/
theorem harnessFault_stops_three :
    EntryPoint.cmpGeneral.StopsOnFault ThreePlayers.platform ThreePlayers.zeros
        ThreePlayers.started ↔
      (EntryPoint.cmpGeneral = .cmpGeneral →
        ThreePlayers.session.snap.playerIds.Nodup ∧
          ThreePlayers.session.snap.t.toNat = ThreePlayers.session.snap.players.length ∧
            1 + (General.at_ ThreePlayers.zeros 1).toNat % 5 ≤ 5) :=
  harnessFault_stops_iff (.initialized ThreePlayers.started_ok) ThreePlayers.start_up.2 (by decide)

/-- In it, an input whose run is a harness fault returns 0. -/
theorem general_fault_returns :
    Reachable .cmpGeneral ThreePlayers.platform ThreePlayers.environment ThreePlayers.started ∧
      EntryPoint.cmpGeneral.door ThreePlayers.zeros = true ∧
        ¬ EntryPoint.cmpGeneral.StopsOnFault ThreePlayers.platform ThreePlayers.zeros
          ThreePlayers.started := by
  refine ⟨.initialized ThreePlayers.started_ok, by decide, fun hstops => ?_⟩
  have hguard := (General.stopsOnFault_iff ThreePlayers.start_up.2 (by decide)).1 hstops
  have hids := (General.guard_iff (P := ThreePlayers.platform) (s := ThreePlayers.session)
    ThreePlayers.verified rfl).1 hguard
  exact absurd hids.2.1 (by decide)

end MpcHunt.Harness
