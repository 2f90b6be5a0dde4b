/-
Whether a finding replays from its file: which generator serves what the
library draws while an entry point handles an input, and the stream that two
processes hand it for the same input.
-/
import MpcHunt.Harness.FuzzDualSession
import MpcHunt.Harness.Serving

namespace MpcHunt.Harness

open Triples

/-! ## Processes of an entry point -/

/-- The libFuzzer entry points. -/
inductive EntryPoint where
  | cmpGeneral | cmpR4Tn | cmpDual
deriving DecidableEq, Repr

section
variable {η τ : Type}

/-- `LLVMFuzzerInitialize`. -/
def EntryPoint.initializer (e : EntryPoint) (P : Platform η τ) (env : Environment) :
    Entry η τ Unit :=
  match e with
  | .cmpGeneral => General.llvmFuzzerInitialize P env
  | .cmpR4Tn => R4.llvmFuzzerInitialize P env
  | .cmpDual => Dual.llvmFuzzerInitialize P env

/-- `LLVMFuzzerTestOneInput`. -/
def EntryPoint.testOneInput (e : EntryPoint) (P : Platform η τ) (data : Bytes) : Entry η τ Unit :=
  match e with
  | .cmpGeneral => General.llvmFuzzerTestOneInput P data
  | .cmpR4Tn => R4.llvmFuzzerTestOneInput P data
  | .cmpDual => Dual.llvmFuzzerTestOneInput P data

/-- A process that has just started: what the library and the telemetry are initialised to,
whether OpenSSL takes a method, and its entropy source. -/
def Fuzz.initial (lib : η) (telemetry : τ) (takesMethod : Bool) (entropy : Nat → UInt8) : Fuzz η τ :=
  ⟨⟨⟨lib, ∅, ∅⟩, .initial takesMethod entropy⟩, telemetry, none, 0⟩

/-- The states of a process whose `LLVMFuzzerInitialize` has returned 0. -/
inductive Reachable (e : EntryPoint) (P : Platform η τ) (env : Environment) : Fuzz η τ → Prop where
  | initialized {lib : η} {telemetry : τ} {takesMethod : Bool} {entropy : Nat → UInt8}
      {f : Fuzz η τ} :
      e.initializer P env (.initial lib telemetry takesMethod entropy) = (.ok (), f) →
      Reachable e P env f
  | tested {f f' : Fuzz η τ} {data : Bytes} :
      Reachable e P env f → e.testOneInput P data f = (.ok (), f') → Reachable e P env f'

/-- What the library draws while an input is handled. -/
def draws (e : EntryPoint) (P : Platform η τ) (data : Bytes) (f : Fuzz η τ) : List Served :=
  (e.testOneInput P data f).2.proc.rand.served.drop f.proc.rand.served.length

/-- The bytes of it. -/
def drawn (e : EntryPoint) (P : Platform η τ) (data : Bytes) (f : Fuzz η τ) : Bytes :=
  ((draws e P data f).map Served.out).flatten

end

/-- The key an entry point seeds the generator with, from the input and the shard seed. -/
def replayKey (e : EntryPoint) (H : Hashes) (shardSeed : UInt64) (data : Bytes) :
    Vector UInt8 64 :=
  let seed := fnv1a64 data ^^^ shardSeed
  let label := match e with
    | .cmpGeneral => str "fz-" ++ toStr seed.toNat
    | .cmpR4Tn => str "fz2-" ++ toStr seed.toNat
    | .cmpDual => str "dual"
  H.sha512 (Words.le64 seed ++ label)

/-- Findings replay: for every library, snapshot and shard seed, and in every state of the
process, the harness generator serves each draw, seeded from the input and the shard seed;
and two processes with the same snapshot and shard seed hand out the same bytes, as far as
both draw. -/
structure Replays (e : EntryPoint) (data : Bytes) : Prop where
  served : ∀ {η τ : Type} (P : Platform η τ) (env : Environment) (f : Fuzz η τ),
    Reachable e P env f →
      (∀ d ∈ draws e P data f, d.by_ = .gMethod) ∧
        drawn e P data f = stream P.H.sha512 (replayKey e P.H (env.shardSeed.getD 0) data) 0
          (drawn e P data f).length
  agree : ∀ {η τ : Type} (P : Platform η τ) (env env' : Environment) (f f' : Fuzz η τ),
    env.snapshotPath = env'.snapshotPath → env.shardSeed = env'.shardSeed →
      Reachable e P env f → Reachable e P env' f' →
        drawn e P data f <+: drawn e P data f' ∨ drawn e P data f' <+: drawn e P data f

/-! ## Start-up and cases -/

section
variable {η τ α : Type} {P : Platform η τ} {Q : RandState → Prop} {k : UInt64} {env : Environment}

/-- A process whose generator has `Q`, with the shard seed `k`. -/
def With (Q : RandState → Prop) (k : UInt64) (f : Fuzz η τ) : Prop :=
  Q f.proc.rand ∧ f.shardSeed = k

theorem keepsE_onProc {x : Run η α} (h : Keeps (fun p : Proc η => Q p.rand) x) :
    KeepsE (With (τ := τ) Q k) (onProc x) := by
  intro f hf
  exact ⟨h f.proc hf.1, hf.2⟩

theorem onProc_bind {β : Type} (x : Run η α) (rest : α → Entry η τ β) (f : Fuzz η τ) :
    (onProc x >>= rest) f = rest (x f.proc).1 { f with proc := (x f.proc).2 } := by
  rw [bindE_run]
  rfl

/-- What holds of a process whatever its telemetry does. -/
def Steady (I : Fuzz η τ → Prop) : Prop := ∀ f t, I f → I { f with telemetry := t }

theorem steady_with : Steady (With (η := η) (τ := τ) Q k) := fun _ _ hf => hf

theorem keepsE_onTelemetry {I : Fuzz η τ → Prop} (hI : Steady I) (x : τ → α × τ) :
    KeepsE I (onTelemetry x) :=
  fun f hf => hI f _ hf

theorem keepsE_loadSnapshot {I : Fuzz η τ → Prop} : KeepsE I (loadSnapshot P env) := by
  unfold loadSnapshot
  rcases env.snapshotPath with _ | _ | file
  · exact KeepsE.throw _
  · exact KeepsE.throw _
  · cases hread : readSnapshot file with
    | error e => simp only [hread]; exact KeepsE.throw _
    | ok snap =>
      cases hver : verifySnapshot P.C P.K snap with
      | error e => simp only [hread, hver]; exact KeepsE.throw _
      | ok u => simp only [hread, hver]; exact KeepsE.pure _

theorem returns_makeSession (snap : Snapshot) :
    Returns (With Q 0) (makeSession P env snap) fun _ => With Q (env.shardSeed.getD 0) := by
  intro f hf ok f' hr
  cases hr
  exact ⟨hf.1, congrArg env.shardSeed.getD hf.2⟩

theorem keepsE_configureTelemetry {I : Fuzz η τ → Prop} (hI : Steady I) (buildId : String) :
    KeepsE I (configureTelemetry P env buildId) := by
  unfold configureTelemetry
  refine KeepsE.ite (fun _ => ?_) fun _ => KeepsE.pure _
  refine KeepsE.ite (fun _ => KeepsE.throw _) fun _ => ?_
  refine KeepsE.bind (keepsE_onTelemetry hI _) fun ok => ?_
  exact KeepsE.ite (fun _ => KeepsE.throw _) fun _ => KeepsE.pure _

theorem keepsE_doorReject {I : Fuzz η τ → Prop} (hI : Steady I) : KeepsE I (doorReject P) := by
  unfold doorReject
  refine KeepsE.bind (keepsE_onTelemetry hI _) fun ok => ?_
  exact KeepsE.ite (fun _ => KeepsE.throw _) fun _ => KeepsE.pure _

theorem keepsE_recordCase {I : Fuzz η τ → Prop} (hI : Steady I) (cell : Bytes) (applied : Bool)
    (verdict : Option Bytes) : KeepsE I (recordCase P cell applied verdict) := by
  unfold recordCase
  refine KeepsE.bind (keepsE_onTelemetry hI _) fun ok => ?_
  exact KeepsE.ite (fun _ => KeepsE.throw _) fun _ => KeepsE.pure _

theorem keepsE_endCase {I : Fuzz η τ → Prop} (v : Driver.Verdict) : KeepsE I (endCase v) := by
  cases v with
  | cleanSign => exact KeepsE.pure _
  | cleanReject => exact KeepsE.pure _
  | harnessFault => exact KeepsE.throw _
  | invalidSignature => exact KeepsE.throw _
  | stateCorruption => exact KeepsE.throw _
  | crash => exact KeepsE.throw _
  | timeout => exact KeepsE.throw _

theorem keeps_oneShot (snap : Snapshot) (ids : List UInt64) (stores : IdMap KeyStore)
    (seed : UInt64) :
    Keeps (fun p : Proc η => UsesMethod p.rand) (oneShot P snap ids stores seed) := by
  have hQ : Stable P.H.sha512 UsesMethod := stable_usesMethod
  have hseed : Keeps (fun p : Proc η => UsesMethod p.rand)
      (onRand fun r => ((), reseedWithLabel P.H.sha512 seed (str "rng-probe") r)) :=
    fun _ h => h
  intro p hp
  unfold oneShot
  dsimp only
  refine Leads.bind (R := fun p : Proc η => UsesMethod p.rand) hseed (fun _ => ?_) _ hp
  refine Leads.bind (hQ.makePlayers _) fun _ => ?_
  refine Leads.bind (hQ.invoke _) fun r => ?_
  rcases r with e | _ | ⟨request, _ | ⟨_, _⟩⟩
  · exact Keeps.pure _
  · exact Keeps.pure _
  · exact Keeps.pure _
  · exact Keeps.pure _

theorem keeps_rngIsEffective (snap : Snapshot) :
    Keeps (fun p : Proc η => UsesMethod p.rand) (rngIsEffective P snap) := by
  unfold rngIsEffective
  dsimp only
  refine Leads.ite (fun _ => Keeps.pure _) fun _ => ?_
  rcases installSnapshot P.K snap (str "opus-rng-probe") (emptyStores snap.playerIds) with
    ⟨_ | _, stores⟩
  · exact Keeps.pure _
  refine Leads.bind (keeps_oneShot _ _ _ _) fun a => ?_
  cases a with
  | none => exact Keeps.pure _
  | some a =>
    refine Leads.bind (keeps_oneShot _ _ _ _) fun b => ?_
    cases b with
    | none => exact Keeps.pure _
    | some b =>
      refine Leads.ite (fun _ => Keeps.pure _) fun _ => ?_
      refine Leads.bind (keeps_oneShot _ _ _ _) fun c => ?_
      cases c with
      | none => exact Keeps.pure _
      | some c => exact Keeps.pure _

/-- Going on past a check that stops the process. -/
theorem returns_unless {β : Type} {I : Fuzz η τ → Prop} {R : β → Fuzz η τ → Prop} {c : Prop}
    [Decidable c] {reason : String} {k : α → Entry η τ β} {y : Entry η τ β}
    (hy : ¬ c → Returns I y R) : Returns I (if c then failClosed reason >>= k else y) R :=
  Returns.ite (fun _ => Returns.bind (M := fun _ _ => False) (Returns.throw _ _) fun _ _ hf => hf.elim)
    hy

/-- The start of two of the entry points: the method installed and tested. -/
theorem returns_install :
    Returns (With (fun _ => True) k)
      (onProc do
        let installed ← onRand installDeterministicRand
        if installed then do
          let tested ← onRand (selfTest P.H.sha512)
          pure (installed, tested)
        else pure (false, false) : Entry η τ (Bool × Bool))
      fun r f => ¬ (¬ r.1 = true ∨ ¬ r.2 = true) → With UsesMethod k f := by
  intro f hf r f' hr hok
  cases hi : installDeterministicRand f.proc.rand with
  | mk installed r1 =>
    have hrun : (do
        let installed ← onRand installDeterministicRand
        if installed then do
          let tested ← onRand (selfTest P.H.sha512)
          pure (installed, tested)
        else pure (false, false) : Run η (Bool × Bool)) f.proc =
        if installed then
          ((installed, (selfTest P.H.sha512 r1).1),
            { f.proc with rand := (selfTest P.H.sha512 r1).2 })
        else ((false, false), { f.proc with rand := r1 }) := by
      show (if (installDeterministicRand f.proc.rand).1 then _ else _ : Run η (Bool × Bool))
        { f.proc with rand := (installDeterministicRand f.proc.rand).2 } = _
      rw [hi]
      cases installed with
      | false => rfl
      | true => rfl
    unfold onProc at hr
    rw [hrun] at hr
    cases installed with
    | false =>
      cases hr
      exact absurd (.inl (by simp)) hok
    | true =>
      cases hr
      simp only [not_or, not_not] at hok
      exact ⟨selfTest_usesMethod hok.2, hf.2⟩

theorem General.returns_init :
    Returns (With (fun _ => True) 0) (General.llvmFuzzerInitialize P env)
      fun _ => With UsesMethod (env.shardSeed.getD 0) := by
  unfold General.llvmFuzzerInitialize
  refine Returns.bind returns_install fun r => ?_
  refine returns_unless fun hok => ?_
  refine Returns.mono (I := With UsesMethod 0) ?_ fun f hf => hf hok
  refine Returns.bind keepsE_loadSnapshot.returns fun snap => ?_
  refine Returns.bind (keepsE_onProc (keeps_rngIsEffective snap)).returns fun effective => ?_
  refine returns_unless fun _ => returns_unless fun _ => ?_
  refine Returns.bind (returns_makeSession snap) fun ok => ?_
  exact Returns.ite (fun _ => Returns.throw _ _) fun _ => Returns.pure fun _ hf => hf

theorem R4.returns_init :
    Returns (With (fun _ => True) 0) (R4.llvmFuzzerInitialize P env)
      fun _ => With UsesMethod (env.shardSeed.getD 0) := by
  unfold R4.llvmFuzzerInitialize
  refine Returns.bind returns_install fun r => ?_
  refine returns_unless fun hok => ?_
  refine Returns.mono (I := With UsesMethod 0) ?_ fun f hf => hf hok
  refine Returns.bind keepsE_loadSnapshot.returns fun snap => ?_
  refine Returns.bind (keepsE_onProc (keeps_rngIsEffective snap)).returns fun effective => ?_
  refine returns_unless fun _ => returns_unless fun _ => ?_
  refine Returns.bind (returns_makeSession snap) fun ok => ?_
  exact returns_unless fun _ => (keepsE_configureTelemetry steady_with _).returns

/-- A case of the driver: it draws nothing, or what holds of the seeded generator and no
draw breaks holds at the end. -/
theorem onProc_run (hQ : Stable P.H.sha512 Q) {s : Session} {cfg : Driver.RunConfig}
    {f : Fuzz η τ} (hf : Q (reseedWithLabel P.H.sha512 cfg.seed cfg.txid f.proc.rand)) :
    let f' := (onProc (Driver.run P.H P.A P.lib s cfg) f).2
    f'.shardSeed = f.shardSeed ∧ (f'.proc.rand = f.proc.rand ∨ Q f'.proc.rand) := by
  refine ⟨rfl, ?_⟩
  have hrun : (Driver.run P.H P.A P.lib s cfg f.proc).2 = f.proc ∨
      Q (Driver.run P.H P.A P.lib s cfg f.proc).2.rand := Driver.run_rand hQ hf
  rcases hrun with h | h
  · exact .inl (congrArg Proc.rand h)
  · exact .inr h

/-- How an entry point that installs the method leaves a process: nothing was drawn, or the
stream of the replay key was served. -/
def Handled (e : EntryPoint) (P : Platform η τ) (data : Bytes) (f : Fuzz η τ) : Fuzz η τ → Prop :=
  With (fun r => r = f.proc.rand ∨
    ServesStream P.H.sha512 (replayKey e P.H f.shardSeed data) f.proc.rand.served r) f.shardSeed

theorem handled_self (e : EntryPoint) (data : Bytes) (f : Fuzz η τ) : Handled e P data f f :=
  ⟨.inl rfl, rfl⟩

/-- A case of an entry point: the driver under the replay key, then what keeps the
generator. -/
theorem handled_run {e : EntryPoint} {data : Bytes} {f : Fuzz η τ} (hf : UsesMethod f.proc.rand)
    {s : Session} {cfg : Driver.RunConfig} {rest : Driver.RunResult → Entry η τ Unit}
    (hkey : P.H.sha512 (Words.le64 cfg.seed ++ cfg.txid) = replayKey e P.H f.shardSeed data)
    (hrest : ∀ {Q : RandState → Prop} {k} result, KeepsE (With (η := η) (τ := τ) Q k) (rest result)) :
    Handled e P data f ((onProc (Driver.run P.H P.A P.lib s cfg) >>= rest) f).2 := by
  have hseed : ServesStream P.H.sha512 (P.H.sha512 (Words.le64 cfg.seed ++ cfg.txid))
      f.proc.rand.served (reseedWithLabel P.H.sha512 cfg.seed cfg.txid f.proc.rand) :=
    servesStream_reseed cfg.seed cfg.txid hf
  have hrun := onProc_run (P := P) (s := s) (stable_servesStream f.proc.rand.served) hseed
  rw [hkey] at hrun
  rw [onProc_bind]
  exact hrest _ _ ⟨hrun.2, hrun.1⟩

theorem General.handled {data : Bytes} {f : Fuzz η τ} (hf : UsesMethod f.proc.rand) :
    Handled .cmpGeneral P data f (General.llvmFuzzerTestOneInput P data f).2 := by
  unfold General.llvmFuzzerTestOneInput
  by_cases hdoor : General.door data = true
  · rw [if_neg (not_not.2 hdoor), getE_bind]
    cases f.session with
    | none => exact handled_self _ _ _
    | some s =>
      refine handled_run hf rfl fun result => ?_
      exact KeepsE.ite (fun _ => KeepsE.pure _) fun _ => keepsE_endCase _
  · rw [if_pos hdoor]
    exact handled_self _ _ _

theorem R4.handled {data : Bytes} {f : Fuzz η τ} (hf : UsesMethod f.proc.rand) :
    Handled .cmpR4Tn P data f (R4.llvmFuzzerTestOneInput P data f).2 := by
  unfold R4.llvmFuzzerTestOneInput
  by_cases hdoor : General.door data = true
  · rw [if_neg (not_not.2 hdoor), getE_bind]
    cases f.session with
    | none => exact handled_self _ _ _
    | some s =>
      dsimp only
      by_cases hplayers : s.ids.length < 2
      · rw [if_pos hplayers]
        exact handled_self _ _ _
      · rw [if_neg hplayers]
        refine handled_run hf rfl fun result => ?_
        refine KeepsE.ite (fun _ => KeepsE.bind (KeepsE.throw _) fun _ => ?_) fun _ => ?_
        all_goals
          refine KeepsE.ite (fun _ => keepsE_recordCase steady_with _ _ _) fun _ => ?_
          exact KeepsE.bind (keepsE_recordCase steady_with _ _ _) fun _ => keepsE_endCase _
  · rw [if_pos hdoor]
    exact keepsE_doorReject steady_with f (handled_self _ _ f)

/-- One case of an entry point that installs the method. -/
theorem EntryPoint.handled {e : EntryPoint} (he : e ≠ .cmpDual) {data : Bytes} {f : Fuzz η τ}
    (hf : UsesMethod f.proc.rand) : Handled e P data f (e.testOneInput P data f).2 := by
  cases e with
  | cmpGeneral => exact General.handled hf
  | cmpR4Tn => exact R4.handled hf
  | cmpDual => exact absurd rfl he

theorem Handled.usesMethod {e : EntryPoint} {data : Bytes} {f f' : Fuzz η τ}
    (h : Handled e P data f f') (hf : UsesMethod f.proc.rand) : UsesMethod f'.proc.rand := by
  rcases h.1 with heq | hs
  · rw [heq]
    exact hf
  · exact hs.method

/-- Over a whole run of a process: the method stays in place, and the shard seed is the one
of the environment. -/
theorem Reachable.usesMethod {e : EntryPoint} (he : e ≠ .cmpDual) {f : Fuzz η τ}
    (h : Reachable e P env f) : With UsesMethod (env.shardSeed.getD 0) f := by
  induction h with
  | initialized hi =>
    cases e with
    | cmpGeneral => exact General.returns_init _ ⟨trivial, rfl⟩ _ _ hi
    | cmpR4Tn => exact R4.returns_init _ ⟨trivial, rfl⟩ _ _ hi
    | cmpDual => exact absurd rfl he
  | @tested f f' data _ ht ih =>
    have hcase : Handled e P data f (e.testOneInput P data f).2 := EntryPoint.handled he ih.1
    rw [ht] at hcase
    exact ⟨hcase.usesMethod ih.1, hcase.2.trans ih.2⟩

/-- What such a process draws for an input. -/
theorem Reachable.served {e : EntryPoint} (he : e ≠ .cmpDual) {f : Fuzz η τ} (data : Bytes)
    (h : Reachable e P env f) :
    (∀ d ∈ draws e P data f, d.by_ = .gMethod) ∧
      ∃ n, drawn e P data f =
        stream P.H.sha512 (replayKey e P.H (env.shardSeed.getD 0) data) 0 n := by
  obtain ⟨hmethod, hseed⟩ := h.usesMethod he
  have hcase : Handled e P data f (e.testOneInput P data f).2 := EntryPoint.handled he hmethod
  unfold drawn draws
  rcases hcase.1 with heq | hs
  · rw [heq, List.drop_length]
    exact ⟨fun d hd => absurd hd (List.not_mem_nil), 0, rfl⟩
  · rw [hseed] at hs
    exact hs.drop

end

/-! ## The dual session -/

namespace Dual

section
variable {η τ : Type} {P : Platform η τ} {Q R : RandState → Prop} {k : UInt64} {env : Environment}

theorem returns_init (hQ : Stable P.H.sha512 Q)
    (hseed : ∀ seed r, Q r → Q (reseedWithLabel P.H.sha512 seed (str "dual") r)) :
    Returns (With Q 0) (llvmFuzzerInitialize P env) fun _ => With Q (env.shardSeed.getD 0) := by
  unfold llvmFuzzerInitialize
  refine Returns.bind keepsE_loadSnapshot.returns fun snap => ?_
  refine Returns.bind (returns_makeSession snap) fun ok => ?_
  refine returns_unless fun _ => ?_
  refine Returns.bind KeepsE.get.returns fun f => ?_
  cases f.session with
  | none => exact Returns.throw _ _
  | some s =>
    refine Returns.bind (keepsE_onProc (keeps_dualRun hQ (hseed _))).returns fun control => ?_
    exact returns_unless fun _ => (keepsE_configureTelemetry steady_with _).returns

/-- What ends a case after the run of the dual session. -/
theorem keepsE_signalFindings {I : Fuzz η τ → Prop} (r : DualResult) :
    KeepsE I (signalFindings r) := by
  unfold signalFindings
  refine KeepsE.ite (fun _ => KeepsE.throw _) fun _ => ?_
  refine KeepsE.ite (fun _ => KeepsE.throw _) fun _ => ?_
  refine KeepsE.ite (fun _ => KeepsE.throw _) fun _ => ?_
  refine KeepsE.ite (fun _ => KeepsE.throw _) fun _ => ?_
  refine KeepsE.ite (fun _ => KeepsE.throw _) fun _ => ?_
  exact KeepsE.ite (fun _ => KeepsE.throw _) fun _ => KeepsE.pure _

/-- A case that the door lets in ends where its run of the dual session does. -/
theorem tested_of_door {data : Bytes} (hdoor : door data = true) {f : Fuzz η τ} {s : Session}
    (hs : f.session = some s)
    (hrun : R (dualRun P.H P.lib P.A s (f.shardSeed ^^^ fnv1a64 data) data f.proc).2.rand) :
    R (llvmFuzzerTestOneInput P data f).2.proc.rand := by
  unfold llvmFuzzerTestOneInput
  rw [if_neg (not_not.2 hdoor), getE_bind, hs]
  dsimp only
  rw [onProc_bind]
  refine And.left (b := _ = f.shardSeed) ((?_ : KeepsE (With R f.shardSeed) _) _ ⟨hrun, rfl⟩)
  refine KeepsE.ite (fun _ => KeepsE.bind (KeepsE.throw _) fun _ => ?_) fun _ => ?_
  all_goals
    refine KeepsE.bind (keepsE_recordCase steady_with _ _ _) fun _ => ?_
    exact KeepsE.ite (fun _ => keepsE_signalFindings _) fun _ => KeepsE.pure _

/-- A case that the door refuses draws nothing. -/
theorem tested_of_refused {data : Bytes} (hdoor : ¬ door data = true) (f : Fuzz η τ) :
    (llvmFuzzerTestOneInput P data f).2.proc.rand = f.proc.rand := by
  unfold llvmFuzzerTestOneInput
  rw [if_pos hdoor]
  exact (keepsE_doorReject (steady_with (Q := fun r => r = f.proc.rand)) f ⟨rfl, rfl⟩).1

/-- A process without a session draws nothing. -/
theorem tested_of_none {data : Bytes} {f : Fuzz η τ} (hs : f.session = none) :
    (llvmFuzzerTestOneInput P data f).2.proc.rand = f.proc.rand := by
  by_cases hdoor : door data = true
  · unfold llvmFuzzerTestOneInput
    rw [if_neg (not_not.2 hdoor), getE_bind, hs]
    rfl
  · exact tested_of_refused hdoor f

/-- One case keeps what no draw and no seeding breaks. -/
theorem tested_keeps (hQ : Stable P.H.sha512 Q)
    (hseed : ∀ seed r, Q r → Q (reseedWithLabel P.H.sha512 seed (str "dual") r)) (data : Bytes)
    {f : Fuzz η τ} (hf : Q f.proc.rand) : Q (llvmFuzzerTestOneInput P data f).2.proc.rand := by
  by_cases hdoor : door data = true
  · cases hs : f.session with
    | none =>
      rw [tested_of_none hs]
      exact hf
    | some s => exact tested_of_door hdoor hs (keeps_dualRun hQ (hseed _) f.proc hf)
  · rw [tested_of_refused hdoor]
    exact hf

theorem servesEntropy_reseed {base : List Served} (seed : UInt64) (r : RandState)
    (h : ServesEntropy base r) :
    ServesEntropy base (reseedWithLabel P.H.sha512 seed (str "dual") r) :=
  ⟨h.method, h.served⟩

/-- Over a whole run of a process, its entropy source serves every draw: nothing installs
the method. -/
theorem reachable_servesEntropy {f : Fuzz η τ} (h : Reachable .cmpDual P env f) :
    ServesEntropy [] f.proc.rand := by
  induction h with
  | initialized hi =>
    refine (returns_init (stable_servesEntropy []) servesEntropy_reseed _ ⟨?_, rfl⟩ _ _ hi).1
    exact ⟨rfl, [], rfl, fun d hd => absurd hd List.not_mem_nil⟩
  | @tested f f' data _ ht ih =>
    have hcase := tested_keeps (P := P) (stable_servesEntropy []) servesEntropy_reseed data ih
    have hend : (llvmFuzzerTestOneInput P data f).2 = f' := congrArg Prod.snd ht
    rw [hend] at hcase
    exact hcase

/-- Whatever the library, and whatever an input draws, the entropy source serves it. -/
theorem draws_by_entropy {f : Fuzz η τ} (h : Reachable .cmpDual P env f) (data : Bytes) :
    ∀ d ∈ draws .cmpDual P data f, d.by_ = .builtin := by
  have hstart : ServesEntropy f.proc.rand.served f.proc.rand :=
    ⟨(reachable_servesEntropy h).method, [], by simp, fun d hd => absurd hd List.not_mem_nil⟩
  obtain ⟨new, hserved, hby⟩ :=
    (tested_keeps (P := P) (stable_servesEntropy _) servesEntropy_reseed data hstart).served
  have hdraws : draws .cmpDual P data f = new := by
    unfold draws
    show (llvmFuzzerTestOneInput P data f).2.proc.rand.served.drop _ = _
    rw [hserved, List.drop_left]
  rw [hdraws]
  exact hby

theorem draws_of_refused {data : Bytes} (hdoor : ¬ door data = true) (f : Fuzz η τ) :
    draws .cmpDual P data f = [] := by
  unfold draws
  show (llvmFuzzerTestOneInput P data f).2.proc.rand.served.drop _ = _
  rw [tested_of_refused hdoor, List.drop_length]

end

end Dual

/-! ## A library that draws a nonce -/

namespace Unseeded

/-- The message and the nonce of a signing, by txid. -/
abbrev Records := List (Bytes × Scalar × Scalar)

/-- A library that draws a nonce of 32 bytes when a signing starts, and signs a message by
repeating it. -/
def library : Library Records where
  maxBlocksToSign := 5
  makeService _ w := .done w
  startSigning _ _ txid _ data _ _ _ w :=
    .rand 32 fun
      | none => .done (.error (.cosignerException []), w)
      | some nonce =>
        let message := memcpy 32 (data.blocks.flatMap SigningBlockData.data)
        .done (.ok [], { w with lib := w.lib ++ [(txid, message, memcpy 32 nonce)] })
  mtaResponse _ _ _ w := .done (.ok ⟨Vector.replicate 32 0, []⟩, w)
  mtaVerify _ _ _ w := .done (.ok [], w)
  getSi _ _ _ w := .done (.ok [], w)
  getCmpSignature _ txid _ w :=
    match w.lib.lookup txid with
    | none => .done (.error (.cosignerException []), w)
    | some (message, nonce) => .done (.ok [⟨nonce, message⟩], w)
  now _ := 0

def hashes : Hashes := ⟨fun _ => Vector.replicate 32 0, fun _ => Vector.replicate 64 0⟩

def algebra : Algebra where
  curve _ := some .secp256k1
  derivePublicKey _ root _ _ := .ok (memcpy 33 root)
  verifySignature _ _ msg _ s := if msg = s.toList then 0 else 1

/-- Numbers byte by byte, and a generator whose multiple shows the number. -/
def curve : SnapshotCurve where
  generatorMul x := some (memcpy 33 (2 :: x.toList))
  addScalars x y := some (Vector.zipWith (· + ·) x y)

/-- Private keys written as their public halves. -/
def codec : KeyCodec where
  paillierPublic b := some ⟨some b⟩
  ringPedersenPublic b := some ⟨some b⟩
  paillierPrivate b := some ⟨some ⟨some b⟩⟩
  ringPedersenPrivate b := some ⟨some ⟨some b⟩⟩

/-- No telemetry. -/
def recorder : Recorder Unit := ⟨fun _ _ _ _ t => (true, t), fun t => (true, t), fun _ _ _ t => (true, t)⟩

def platform : Platform Records Unit := ⟨hashes, algebra, library, codec, curve, recorder⟩

def share (x : UInt8) : Bytes := List.replicate 31 0 ++ [x]

def player (id : UInt64) (x : UInt8) : SnapshotPlayer :=
  ⟨id, share x, 2 :: share x, [1], [1], [1], [1]⟩

def snapshot : Snapshot := ⟨0, 2 :: share 3, List.replicate 32 0, 2, 2, [player 1 1, player 2 2]⟩

def environment : Environment := ⟨some (some (writeSnapshot snapshot)), none, 0, false, false, none⟩

/-- The process after its start-up. -/
def started : Fuzz Records Unit :=
  (Dual.llvmFuzzerInitialize platform environment (.initial [] () true fun n => .ofNat n)).2

def session : Session := ⟨true, str "opus-key", snapshot, [1, 2]⟩

theorem started_ok :
    Dual.llvmFuzzerInitialize platform environment (.initial [] () true fun n => .ofNat n) =
      (.ok (), started) := by
  have hok : (Dual.llvmFuzzerInitialize platform environment
      (.initial [] () true fun n => .ofNat n)).1 = .ok () := by decide +kernel
  exact Prod.ext hok (by simp only [started])

theorem started_session : started.session = some session := by decide +kernel

/-- More was drawn from the entropy source than when it had served `n` draws. -/
def Drew (n : Nat) (r : RandState) : Prop := r.method = .builtin ∧ n < r.served.length

theorem drew_randBytes {n : Nat} {num : Int32} {r : RandState} (hnum : ¬ num < 0)
    (hm : r.method = .builtin) (hn : n ≤ r.served.length) :
    Drew n (randBytes hashes.sha512 num r).2 := by
  unfold randBytes
  rw [hm]
  dsimp only
  rw [if_neg hnum]
  refine ⟨rfl, ?_⟩
  simp only [List.length_append, List.length_singleton]
  omega

theorem stable_drew (n : Nat) : Stable hashes.sha512 (Drew n) := by
  intro num r hr
  by_cases hnum : num < 0
  · unfold randBytes
    rw [hr.1]
    dsimp only
    rw [if_pos hnum]
    exact hr
  · exact drew_randBytes hnum hr.1 (Nat.le_of_lt hr.2)

/-- A `start_signing` draws. -/
theorem drew_startSigning {base : List Served} (c : Dual.Ceremony) (p : Proc Records)
    (hp : ServesEntropy base p.rand) :
    Drew base.length (invoke hashes (library.startSigning 1 c.keyId c.txid 0 c.data [] c.playersStr
      c.playersIds) p).2.rand := by
  obtain ⟨new, hserved, -⟩ := hp.served
  have hlen : base.length ≤ p.rand.served.length := by
    rw [hserved, List.length_append]
    exact Nat.le_add_right _ _
  have hdrew : Drew base.length (randBytes hashes.sha512 32 p.rand).2 :=
    drew_randBytes (by decide) hp.method hlen
  show Drew base.length (Draws.run hashes.sha512 _ (randBytes hashes.sha512 32 p.rand).2).2
  exact (stable_drew _).draws _ hdrew

/-- Every input the door lets in draws. -/
theorem draws_ne_nil {data : Bytes} (hdoor : Dual.door data = true) :
    draws .cmpDual platform data started ≠ [] := by
  have hreach : Reachable .cmpDual platform environment started := .initialized started_ok
  have hrun : Drew started.proc.rand.served.length
      (Dual.dualRun hashes library algebra session (started.shardSeed ^^^ fnv1a64 data) data
        started.proc).2.rand := by
    have hsigners : Dual.dualSigners session = [1, 2] := by decide
    refine Dual.leads_dualRun (stable_servesEntropy started.proc.rand.served)
      (Dual.servesEntropy_reseed (P := platform) _) (fun hg => absurd (by decide) hg) ?_ started.proc
      ⟨(Dual.reachable_servesEntropy hreach).method, [], by simp, fun d hd => absurd hd List.not_mem_nil⟩
    rw [hsigners]
    refine Dual.leads_dualLoop (n := 31) (stable_drew _) fun c p hp => ?_
    exact drew_startSigning _ _ hp
  have hend := Dual.tested_of_door (P := platform) hdoor started_session hrun
  intro hnil
  have hle := List.drop_eq_nil_iff.1 hnil
  exact absurd hend.2 (Nat.not_lt.2 hle)

end Unseeded

/-- An input the dual door lets in does not replay. -/
theorem not_replays_dual {data : Bytes} (hdoor : Dual.door data = true) :
    ¬ Replays .cmpDual data := by
  intro h
  have hreach : Reachable .cmpDual Unseeded.platform Unseeded.environment Unseeded.started :=
    .initialized Unseeded.started_ok
  obtain ⟨d, hd⟩ := List.exists_mem_of_ne_nil _ (Unseeded.draws_ne_nil hdoor)
  have hmethod := (h.served _ _ _ hreach).1 d hd
  rw [Dual.draws_by_entropy hreach data d hd] at hmethod
  cases hmethod

theorem prefix_stream {sha512 : Bytes → Vector UInt8 64} {key : Vector UInt8 64} {n m : Nat} :
    stream sha512 key 0 n <+: stream sha512 key 0 m ∨
      stream sha512 key 0 m <+: stream sha512 key 0 n := by
  rcases Nat.le_total n m with h | h
  · obtain ⟨k, rfl⟩ := Nat.exists_eq_add_of_le h
    exact .inl ⟨_, (stream_add 0 n k).symm⟩
  · obtain ⟨k, rfl⟩ := Nat.exists_eq_add_of_le h
    exact .inr ⟨_, (stream_add 0 m k).symm⟩

/-- **When a finding replays from its file.** At the entry points that install the
generator, always; at the dual one, only where the door refuses the input. -/
theorem replays_iff (e : EntryPoint) (data : Bytes) :
    Replays e data ↔ e ≠ .cmpDual ∨ Dual.door data = false := by
  constructor
  · intro h
    by_contra hno
    simp only [not_or, ne_eq, not_not, Bool.not_eq_false] at hno
    obtain ⟨rfl, hdoor⟩ := hno
    exact not_replays_dual hdoor h
  · intro h
    by_cases he : e = .cmpDual
    · subst he
      have hdoor : ¬ Dual.door data = true := by
        rw [h.resolve_left (not_not.2 rfl)]
        exact Bool.false_ne_true
      refine ⟨fun P env f _ => ?_, fun P env env' f f' _ _ _ _ => ?_⟩
      · unfold drawn
        rw [Dual.draws_of_refused hdoor]
        exact ⟨fun d hd => absurd hd List.not_mem_nil, rfl⟩
      · unfold drawn
        rw [Dual.draws_of_refused hdoor, Dual.draws_of_refused hdoor]
        exact .inl List.prefix_rfl
    · refine ⟨fun P env f hf => ?_, fun P env env' f f' _ hseed hf hf' => ?_⟩
      · obtain ⟨hby, n, hn⟩ := hf.served he data
        refine ⟨hby, ?_⟩
        rw [hn, length_stream]
      · obtain ⟨-, n, hn⟩ := hf.served he data
        obtain ⟨-, m, hm⟩ := hf'.served he data
        rw [hn, hm, hseed]
        exact prefix_stream

/-- The input of one zero byte at the dual entry point. -/
theorem zeroByte_not_replayed : ¬ Replays .cmpDual [0] := not_replays_dual (by decide)

end MpcHunt.Harness
