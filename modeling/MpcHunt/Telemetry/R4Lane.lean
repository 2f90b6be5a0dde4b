/-
The job processes of the lane cmp_r4_tn: what each tells the recorder, from
its start-up to its last input, and the telemetry of a campaign of them. The
cells they select are four of the seven.
-/
import MpcHunt.Harness.Replay
import MpcHunt.Telemetry.Collisions

namespace MpcHunt.Telemetry

open Digits Processes Harness Triples

deriving instance DecidableEq for Call

/-! ## What a process tells the recorder -/

/-- The code points of an ASCII text. -/
def codes (b : Bytes) : Str := b.map UInt8.toNat

/-- How a process has configured the recorder, and its calls since. -/
structure Tape where
  configured : Option (Bytes × Bytes × Bytes × Int)
  calls : List Call
deriving DecidableEq

/-- A recorder that keeps a tape. Every call on it goes well: where one does not, a process of
the lane ends at once, as one that is killed there. -/
def onTape : Recorder Tape where
  configure buildId compiler sanitizers parallelism t :=
    (true, { t with configured := some (buildId, compiler, sanitizers, parallelism) })
  recordDoorReject t := (true, { t with calls := t.calls ++ [.doorReject] })
  recordCase cell applied verdict t :=
    (true, { t with calls := t.calls ++ [.case (some (codes cell)) applied (verdict.map codes)] })

/-- A process of the lane: what it is built on, its environment, and its inputs. -/
structure R4Job (η : Type) where
  H : Hashes
  A : Algebra
  lib : Library η
  K : KeyCodec
  C : SnapshotCurve
  environment : Environment
  memory : η
  takesMethod : Bool
  entropy : Nat → UInt8
  inputs : List Bytes

section
variable {η : Type}

def R4Job.platform (j : R4Job η) : Platform η Tape := ⟨j.H, j.A, j.lib, j.K, j.C, onTape⟩

/-- `LLVMFuzzerInitialize`, then the inputs one after another. -/
def R4Job.fuzz (j : R4Job η) : Entry η Tape Unit := do
  R4.llvmFuzzerInitialize j.platform j.environment
  j.inputs.forM (R4.llvmFuzzerTestOneInput j.platform)

def R4Job.tape (j : R4Job η) : Tape :=
  (j.fuzz (.initial j.memory ⟨none, []⟩ j.takesMethod j.entropy)).2.telemetry

/-- The arguments `configure` gets, with the directories of the environment. -/
def Tape.config (t : Tape) (dir controlDir : Str) : Config :=
  match t.configured with
  | some (buildId, compiler, sanitizers, parallelism) =>
    ⟨some dir, some controlDir, some (codes buildId), some (codes compiler),
      some (codes sanitizers), parallelism⟩
  | none => ⟨some dir, some controlDir, none, none, none, 1⟩

/-- The processes of a campaign, as the recorder sees them. -/
def r4Inputs {P : Type} (jobs : P → R4Job η) (dir controlDir : Str) (p : P) :
    Config × List Call :=
  ((jobs p).tape.config dir controlDir, (jobs p).tape.calls)

theorem share_r4Inputs {P : Type} (jobs : P → R4Job η) (dir controlDir : Str) :
    Share (r4Inputs jobs dir controlDir) dir controlDir := by
  intro p
  unfold r4Inputs Tape.config
  cases (jobs p).tape.configured with
  | none => exact ⟨rfl, rfl⟩
  | some c => exact ⟨rfl, rfl⟩

/-! ## The cells of the lane -/

/-- The cell an input selects. -/
def laneCell (data : Bytes) : Str := codes (R4.cellKey (R4.selectField data).field (R4.selectOp data))

/-- A call of the lane. -/
def Call.OfLane (c : Call) : Prop :=
  c = .doorReject ∨ ∃ data wasApplied verdict, c = .case (some (laneCell data)) wasApplied verdict

theorem selectField_cases (data : Bytes) :
    R4.selectField data = ⟨1, .r1MtaProofsEntry, true⟩ ∨ R4.selectField data = ⟨4, .r4Si, false⟩ := by
  have hlt : (General.at_ data 0).toNat % R4.fieldsV2.length < 2 := Nat.mod_lt _ (by decide)
  unfold R4.selectField
  generalize (General.at_ data 0).toNat % R4.fieldsV2.length = n at hlt
  interval_cases n
  · exact .inl rfl
  · exact .inr rfl

theorem byteOp_cases (b : UInt8) :
    General.byteOp b = .flipBit ∨ General.byteOp b = .zero ∨ General.byteOp b = .truncate := by
  have hlt : b.toNat % 3 < 3 := Nat.mod_lt _ (by decide)
  unfold General.byteOp
  generalize b.toNat % 3 = n at hlt
  interval_cases n
  · exact .inl rfl
  · exact .inr (.inl rfl)
  · exact .inr (.inr rfl)

theorem codes_str {s : String} (h : ∀ c ∈ s.toList, c.toNat < 256) : codes (str s) = text s := by
  unfold codes str text
  rw [List.map_map]
  exact List.map_congr_left fun c hc => UInt8.toNat_ofNat_of_lt' (h c hc)

/-- The decoder selects the first four cells of the list. -/
theorem laneCell_mem (data : Bytes) : laneCell data ∈ cells.take 4 := by
  have hflip := codes_str (s := "r1.mta_proofs[victim]|flip_bit") (by simp)
  have hzero := codes_str (s := "r1.mta_proofs[victim]|zero") (by simp)
  have htruncate := codes_str (s := "r1.mta_proofs[victim]|truncate") (by simp)
  have hextra := codes_str (s := "r4.si|extra_map_key") (by simp)
  unfold laneCell R4.selectOp
  rcases selectField_cases data with hfield | hfield
  · rw [hfield, if_pos rfl]
    rcases byteOp_cases (General.at_ data 3) with hop | hop | hop
    · rw [hop]
      show codes (str "r1.mta_proofs[victim]|flip_bit") ∈ _
      rw [hflip]
      simp [cells]
    · rw [hop]
      show codes (str "r1.mta_proofs[victim]|zero") ∈ _
      rw [hzero]
      simp [cells]
    · rw [hop]
      show codes (str "r1.mta_proofs[victim]|truncate") ∈ _
      rw [htruncate]
      simp [cells]
  · rw [hfield, if_neg Bool.false_ne_true]
    show codes (str "r4.si|extra_map_key") ∈ _
    rw [hextra]
    simp [cells]

/-- No input selects a cell of the dual lane. -/
theorem laneCell_ne_sequential (data : Bytes) : laneCell data ≠ text "dual.schedule|sequential" := by
  intro h
  have hmem := laneCell_mem data
  rw [h] at hmem
  simp [cells, text] at hmem

/-! ## The calls of a process -/

/-- Every call on the tape is of the lane. -/
def OnLane (f : Fuzz η Tape) : Prop := ∀ c ∈ f.telemetry.calls, c.OfLane

variable {j : R4Job η}

theorem keepsE_onProc_lane {α : Type} (x : Run η α) : KeepsE (OnLane (η := η)) (onProc x) :=
  fun _ hf => hf

theorem keepsE_onTelemetry_lane {α : Type} {x : Tape → α × Tape}
    (h : ∀ t : Tape, (∀ c ∈ t.calls, c.OfLane) → ∀ c ∈ (x t).2.calls, c.OfLane) :
    KeepsE (OnLane (η := η)) (onTelemetry x) :=
  fun f hf => h f.telemetry hf

theorem lane_append {calls : List Call} {last : Call} (h : ∀ c ∈ calls, c.OfLane)
    (hlast : last.OfLane) : ∀ c ∈ calls ++ [last], c.OfLane := by
  intro c hc
  rcases List.mem_append.1 hc with hc | hc
  · exact h c hc
  · rw [List.mem_singleton.1 hc]
    exact hlast

theorem keepsE_doorReject_lane : KeepsE OnLane (doorReject j.platform) := by
  refine KeepsE.bind (keepsE_onTelemetry_lane fun t ht => ?_) fun ok => ?_
  · have hlast : Call.doorReject.OfLane := .inl rfl
    exact lane_append ht hlast
  · exact KeepsE.ite (fun _ => KeepsE.throw _) fun _ => KeepsE.pure _

theorem keepsE_recordCase_lane (data : Bytes) (applied : Bool) (verdict : Option Bytes) :
    KeepsE OnLane (Harness.recordCase j.platform (R4.cellKey (R4.selectField data).field (R4.selectOp data))
      applied verdict) := by
  refine KeepsE.bind (keepsE_onTelemetry_lane fun t ht => ?_) fun ok => ?_
  · have hlast : (Call.case (some (laneCell data)) applied (verdict.map codes)).OfLane :=
      .inr ⟨data, applied, _, rfl⟩
    exact lane_append ht hlast
  · exact KeepsE.ite (fun _ => KeepsE.throw _) fun _ => KeepsE.pure _

/-- Going on past a check that stops the process. -/
theorem keepsE_unless {α β : Type} {I : Fuzz η Tape → Prop} {c : Prop} [Decidable c]
    {reason : String} {k : α → Entry η Tape β} {y : Entry η Tape β} (hy : ¬ c → KeepsE I y) :
    KeepsE I (if c then failClosed reason >>= k else y) := by
  refine KeepsE.ite (fun _ f hf => ?_) hy
  rw [bindE_run]
  exact hf

theorem keepsE_testOneInput_lane (data : Bytes) :
    KeepsE OnLane (R4.llvmFuzzerTestOneInput j.platform data) := by
  unfold R4.llvmFuzzerTestOneInput
  refine KeepsE.ite (fun _ => keepsE_doorReject_lane) fun _ => ?_
  refine KeepsE.bind KeepsE.get fun f => ?_
  cases f.session with
  | none => exact KeepsE.throw _
  | some s =>
    dsimp only
    refine keepsE_unless fun _ => KeepsE.bind (keepsE_onProc_lane _) fun result => ?_
    refine keepsE_unless fun _ => KeepsE.ite (fun _ => keepsE_recordCase_lane _ _ _) fun _ => ?_
    exact KeepsE.bind (keepsE_recordCase_lane _ _ _) fun _ => keepsE_endCase _

theorem keepsE_configureTelemetry_lane (environment : Environment) (buildId : String) :
    KeepsE OnLane (configureTelemetry j.platform environment buildId) := by
  unfold configureTelemetry
  refine KeepsE.ite (fun _ => ?_) fun _ => KeepsE.pure _
  refine KeepsE.ite (fun _ => KeepsE.throw _) fun _ => ?_
  refine KeepsE.bind (keepsE_onTelemetry_lane fun _ ht => ht) fun ok => ?_
  exact KeepsE.ite (fun _ => KeepsE.throw _) fun _ => KeepsE.pure _

/-- The start-up calls nothing that records. -/
theorem keepsE_initialize_lane (environment : Environment) :
    KeepsE OnLane (R4.llvmFuzzerInitialize j.platform environment) := by
  unfold R4.llvmFuzzerInitialize
  refine KeepsE.bind (keepsE_onProc_lane _) fun r => keepsE_unless fun _ => ?_
  refine KeepsE.bind keepsE_loadSnapshot fun snap => ?_
  refine KeepsE.bind (keepsE_onProc_lane _) fun effective => ?_
  refine keepsE_unless fun _ => keepsE_unless fun _ => ?_
  refine KeepsE.bind (fun _ hf => hf) fun ok => ?_
  exact keepsE_unless fun _ => keepsE_configureTelemetry_lane _ _

theorem keepsE_inputs_lane (inputs : List Bytes) :
    KeepsE OnLane (inputs.forM (R4.llvmFuzzerTestOneInput j.platform)) := by
  induction inputs with
  | nil => exact KeepsE.pure _
  | cons data inputs ih => exact KeepsE.bind (keepsE_testOneInput_lane data) fun _ => ih

/-- Whatever its platform, its environment and its inputs, a process makes calls of its lane. -/
theorem tape_lane (j : R4Job η) : ∀ c ∈ j.tape.calls, c.OfLane :=
  KeepsE.bind (keepsE_initialize_lane _) (fun _ => keepsE_inputs_lane _)
    (.initial j.memory ⟨none, []⟩ j.takesMethod j.entropy) fun _ hc => (nomatch hc)

/-! ## The counters of the lane -/

/-- A cell of another lane is never selected. -/
theorem tally_lane {calls : List Call} (h : ∀ c ∈ calls, c.OfLane) {cell : Str}
    (hcell : ∀ data, laneCell data ≠ cell) : (tally calls).selected.at cell = 0 := by
  induction calls using List.reverseRecOn with
  | nil => exact CounterMap.at_zero cells
  | append_singleton calls call ih =>
    have hbefore := ih fun c hc => h c (List.mem_append_left _ hc)
    rw [tally_concat]
    rcases (tally_keyed calls).record_cases call with heq | ⟨-, heq⟩ | ⟨cell', -, a, v, rfl, hcase⟩
    · rw [heq, hbefore]
    · rw [heq]
      exact hbefore
    · have hother : cell ≠ cell' := by
        rintro rfl
        rcases h _ (List.mem_append_right _ (List.mem_singleton_self _)) with hc | ⟨data, _, _, hc⟩
        · cases hc
        · cases hc
          exact hcell data rfl
      have hbump := (CounterMap.at_bump_other (m := (tally calls).selected) hother).trans hbefore
      rcases hcase with ⟨heq, -⟩ | ⟨-, ⟨_, -, -, heq⟩ | ⟨-, heq⟩⟩
      all_goals
        rw [heq]
        exact hbump

end

end MpcHunt.Telemetry
