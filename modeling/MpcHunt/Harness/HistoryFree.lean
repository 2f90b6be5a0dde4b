/-
That a case of the driver does not depend on the cases before it: two runs of
one configuration, in processes with whatever histories, give the same result
but for the time it took.
-/
import MpcHunt.Harness.DualSchedule
import MpcHunt.Harness.Functional

namespace MpcHunt.Harness.Driver

open TwoRuns

/-- Equal results but for `elapsed_ms`. -/
def SameOutcome (r r' : RunResult) : Prop := { r with elapsedMs := 0 } = { r' with elapsedMs := 0 }

section
variable {η α β : Type} {H : Hashes} {A : Algebra} {lib : Library η} {keys : IdMap KeyStore}
  {base base' : List Served} {s : Session} {cfg : RunConfig}

/-! ## The rounds -/

theorem related_eachSigner {received : UInt64 → α × Nat} {call : UInt64 → α → Call η β}
    (hcall : ∀ id, FunctionalCall (call id (received id).1)) (ids : List UInt64) (outs : IdMap β)
    (applied : Nat) :
    Related (InStep H keys base base') (InStep H keys base base') Eq
      (eachSigner H received call ids outs applied) (eachSigner H received call ids outs applied) := by
  induction ids generalizing outs applied with
  | nil => exact Related.pure rfl
  | cons id ids ih =>
    refine (hcall id).invoke.bind_eq fun r => ?_
    cases r with
    | error e => exact Related.pure rfl
    | ok out => exact ih _ _

theorem related_rounds (hlib : Functional lib) :
    Related (InStep H keys base base') (InStep H keys base base') Eq
      (rounds H lib s cfg) (rounds H lib s cfg) := by
  unfold rounds
  refine (related_eachSigner (fun id => ?_) _ _ _).bind_eq fun r1 => ?_
  · exact hlib.startSigning id _ _ _ _ _ _ _
  rcases r1 with ⟨_ | requests, applied⟩
  · exact Related.pure rfl
  refine (related_eachSigner (fun id => ?_) _ _ _).bind_eq fun r2 => ?_
  · exact hlib.mtaResponse id _ _
  rcases r2 with ⟨_ | responses, applied⟩
  · exact Related.pure rfl
  refine (related_eachSigner (fun id => ?_) _ _ _).bind_eq fun r3 => ?_
  · exact hlib.mtaVerify id _ _
  rcases r3 with ⟨_ | deltas, applied⟩
  · exact Related.pure rfl
  refine (related_eachSigner (fun id => ?_) _ _ _).bind_eq fun r4 => ?_
  · exact hlib.getSi id _ _
  rcases r4 with ⟨_ | sis, applied⟩
  · exact Related.pure rfl
  refine (hlib.getCmpSignature _ _ _).invoke.bind_eq fun r5 => ?_
  cases r5 with
  | error e => exact Related.pure rfl
  | ok sigs => exact Related.pure rfl

/-- The start of a run: whatever the generator and the players were. -/
theorem related_start (hlib : Functional lib) :
    Related (Before keys base base') (Fresh H keys base base') (fun _ _ => True)
      (start H lib s cfg) (start H lib s cfg) := by
  intro p p' h
  have hstream : SameStream H.sha512 base base' (reseedWithLabel H.sha512 cfg.seed cfg.txid p.rand)
      (reseedWithLabel H.sha512 cfg.seed cfg.txid p'.rand) := by
    rw [← h.served, ← h.served']
    exact sameStream_reseed cfg.seed cfg.txid h.method h.method'
  refine hlib.makePlayers s.ids _ _ ?_
  refine ⟨⟨rfl, h.keyStores, h.keyStores', hstream⟩, fun id store hget => ?_⟩
  have hnone : (∅ : IdMap SigningStore)[id]? = none := Std.ExtTreeMap.getElem?_empty
  cases hnone.symm.trans hget

/-! ## The ways out -/

theorem inStep_digestAt {p p' : Proc η} (h : InStep H keys base base' p p') (player : UInt64) :
    Driver.digestAt H player p = Driver.digestAt H player p' := by
  unfold Driver.digestAt
  rw [h.keyStores, h.keyStores']

theorem related_throwExit {observer : UInt64} {t0 t0' round applied : Nat} {before : Bytes}
    {id : UInt64} {o : CallOutcome} :
    Related (InStep H keys base base') (InStep H keys base base') SameOutcome
      (throwExit H lib cfg observer t0 round applied before id o)
      (throwExit H lib cfg observer t0' round applied before id o) := by
  unfold throwExit
  refine Related.get fun p p' _ => Related.get fun q q' h => Related.pure ?_
  have hdigest : Driver.digestAt H observer q = Driver.digestAt H observer q' := inStep_digestAt h observer
  unfold Driver.digestAt at hdigest
  unfold SameOutcome
  rw [hdigest]

/-- Without a time limit the oracles do not look at the clock. -/
theorem related_judge (htimeout : cfg.timeoutMs = 0) {t0 t0' applied : Nat} {before : Bytes}
    {sigs : List RecoverableSignature} :
    Related (InStep H keys base base') (InStep H keys base base') SameOutcome
      (judge H A lib s cfg t0 applied before sigs) (judge H A lib s cfg t0' applied before sigs) := by
  unfold judge
  refine Related.get fun p p' _ => Related.get fun q q' hq => Related.get fun w w' hw => ?_
  have hdigest : Driver.digestAt H (observerOf s cfg) q = Driver.digestAt H (observerOf s cfg) q' :=
    inStep_digestAt hq _
  unfold Driver.digestAt at hdigest
  dsimp only
  rw [hdigest, hw.players]
  refine Related.ite (fun _ => Related.pure rfl) fun _ => ?_
  refine Related.ite (fun _ => Related.pure rfl) fun _ => ?_
  refine Related.ite (fun _ => Related.pure rfl) fun _ => ?_
  cases judgeBlocks A s cfg 0 sigs with
  | some detail => exact Related.pure rfl
  | none =>
    dsimp only
    rw [if_neg (fun h => h.1 htimeout), if_neg (fun h => h.1 htimeout)]
    exact Related.pure rfl

/-- Two runs of a configuration are related where their ways out are. -/
theorem related_run {V : RunResult → RunResult → Prop} (hlib : Functional lib)
    (hguard : ∀ detail, V { RunResult.initial with detail } { RunResult.initial with detail })
    (hthrow : ∀ {t0 t0' round applied before id o},
      Related (InStep H keys base base') (InStep H keys base base') V
        (throwExit H lib cfg (observerOf s cfg) t0 round applied before id o)
        (throwExit H lib cfg (observerOf s cfg) t0' round applied before id o))
    (hjudge : ∀ {t0 t0' applied before sigs},
      Related (InStep H keys base base') (InStep H keys base base') V
        (judge H A lib s cfg t0 applied before sigs) (judge H A lib s cfg t0' applied before sigs)) :
    Related (Before keys base base') (After keys base base') V (run H A lib s cfg)
      (run H A lib s cfg) := by
  intro p p' h
  cases hg : guard lib.maxBlocksToSign s cfg with
  | some detail =>
    rw [run_of_guard H A lib hg, run_of_guard H A lib hg]
    exact ⟨hguard detail, h.after⟩
  | none =>
    have hfresh : Fresh H keys base base' (start H lib s cfg p).2 (start H lib s cfg p').2 :=
      (related_start hlib p p' h).2
    obtain ⟨hrounds, hend⟩ := related_rounds hlib _ _ hfresh.inStep
    rw [run_of_start H A lib hg, run_of_start H A lib hg, inStep_digestAt hfresh.inStep]
    rcases hr : rounds H lib s cfg (start H lib s cfg p).2 with ⟨⟨⟨round, id, o⟩ | sigs, applied⟩, q⟩
    all_goals
      rcases hr' : rounds H lib s cfg (start H lib s cfg p').2 with ⟨r', q'⟩
      rw [hr, hr'] at hrounds hend
      dsimp only at hrounds hend
      rw [← hrounds]
    · obtain ⟨hval, hstep⟩ := hthrow _ _ hend
      exact ⟨hval, hstep.after⟩
    · obtain ⟨hval, hstep⟩ := hjudge _ _ hend
      exact ⟨hval, hstep.after⟩

/-- A run of any configuration leaves what the next one needs. -/
theorem related_run_end (hlib : Functional lib) :
    Related (Before keys base base') (After keys base base') (fun _ _ => True) (run H A lib s cfg)
      (run H A lib s cfg) := by
  refine related_run hlib (fun _ => trivial) (fun p p' h => ⟨trivial, h⟩) fun {t0 t0' applied before
    sigs} p p' h => ⟨trivial, ?_⟩
  have hend := (judge_spec H A lib s cfg (p := p) t0 applied before sigs).1
  have hend' := (judge_spec H A lib s cfg (p := p') t0' applied before sigs).1
  rw [hend, hend']
  exact h

/-- Without a time limit the results are the same but for the time. -/
theorem related_run_outcome (hlib : Functional lib) (htimeout : cfg.timeoutMs = 0) :
    Related (Before keys base base') (After keys base base') SameOutcome (run H A lib s cfg)
      (run H A lib s cfg) :=
  related_run hlib (fun _ => rfl) related_throwExit (related_judge htimeout)

/-! ## Histories -/

/-- The process of a session after some runs. -/
def afterRuns (H : Hashes) (A : Algebra) (lib : Library η) (s : Session) (history : List RunConfig)
    (p : Proc η) : Proc η :=
  history.foldl (fun p cfg => (run H A lib s cfg p).2) p

/-- No run writes the key stores or takes the generator's method away. -/
theorem afterRuns_ready (hlib : Functional lib) (s : Session) (history : List RunConfig) {p : Proc η}
    (hmethod : UsesMethod p.rand) :
    (afterRuns H A lib s history p).world.keyStores = p.world.keyStores ∧
      UsesMethod (afterRuns H A lib s history p).rand := by
  induction history generalizing p with
  | nil => exact ⟨rfl, hmethod⟩
  | cons cfg history ih =>
    have hstep : After p.world.keyStores p.rand.served p.rand.served (run H A lib s cfg p).2
        (run H A lib s cfg p).2 :=
      (related_run_end hlib p p ⟨rfl, rfl, hmethod, hmethod, rfl, rfl⟩).2
    obtain ⟨hkeys, hmethod'⟩ := ih hstep.method
    exact ⟨hkeys.trans hstep.keyStores, hmethod'⟩

end

variable {η : Type} (H : Hashes) (A : Algebra) (lib : Library η)

/-- After any two histories a configuration without a time limit has results that are equal
but for the time, draws the same bytes, and starts round 1 with empty signing stores. -/
theorem run_forgets_history (hlib : Functional lib) (p : Proc η) (hmethod : UsesMethod p.rand)
    (s : Session) (cfg : RunConfig) (htimeout : cfg.timeoutMs = 0)
    (history history' : List RunConfig) :
    let q := afterRuns H A lib s history p
    let q' := afterRuns H A lib s history' p
    let r := run H A lib s cfg q
    let r' := run H A lib s cfg q'
    SameOutcome r.1 r'.1 ∧
      r.2.rand.served.drop q.rand.served.length = r'.2.rand.served.drop q'.rand.served.length ∧
      (∀ (id : UInt64) (store : SigningStore),
        (start H lib s cfg q).2.world.players[id]? = some store → store = ∅) ∧
      (start H lib s cfg q).2.world.players = (start H lib s cfg q').2.world.players := by
  intro q q' r r'
  obtain ⟨hkeys, hq⟩ := afterRuns_ready (H := H) (A := A) hlib s history hmethod
  obtain ⟨hkeys', hq'⟩ := afterRuns_ready (H := H) (A := A) hlib s history' hmethod
  have hbefore : Before p.world.keyStores q.rand.served q'.rand.served q q' :=
    ⟨hkeys, hkeys', hq, hq', rfl, rfl⟩
  have hrun : SameOutcome r.1 r'.1 ∧
      After p.world.keyStores q.rand.served q'.rand.served r.2 r'.2 :=
    related_run_outcome hlib htimeout q q' hbefore
  have hfresh : Fresh H p.world.keyStores q.rand.served q'.rand.served (start H lib s cfg q).2
      (start H lib s cfg q').2 := (related_start hlib q q' hbefore).2
  exact ⟨hrun.1, hrun.2.served, hfresh.empty, hfresh.inStep.players⟩

/-! ## A library that draws -/

namespace Drawing

/-- A library that draws when a signing starts and when it ends, and signs with what it
drew last. -/
def library : Library Unit where
  maxBlocksToSign := 5
  makeService _ w := .done w
  startSigning _ _ _ _ _ _ _ _ w := .rand 32 fun _ => .done (.ok [], w)
  mtaResponse _ _ _ w := .done (.ok ⟨Vector.replicate 32 0, []⟩, w)
  mtaVerify _ _ _ w := .done (.ok [], w)
  getSi _ _ _ w := .done (.ok [], w)
  getCmpSignature _ _ _ w :=
    .rand 32 fun nonce => .done (.ok [⟨memcpy 32 (nonce.getD []), memcpy 32 (nonce.getD [])⟩], w)
  now _ := 0

theorem functional : Functional library where
  makeService _ _ _ _ := .done ⟨⟨rfl, rfl⟩, ⟨rfl, rfl⟩⟩
  startSigning _ _ _ _ _ _ _ _ _ _ h := .rand fun _ => .done ⟨rfl, h, rfl⟩
  mtaResponse _ _ _ _ _ h := .done ⟨rfl, h, rfl⟩
  mtaVerify _ _ _ _ _ h := .done ⟨rfl, h, rfl⟩
  getSi _ _ _ _ _ h := .done ⟨rfl, h, rfl⟩
  getCmpSignature _ _ _ _ _ h := .rand fun _ => .done ⟨rfl, h, rfl⟩

/-- A process with the method installed. -/
def proc : Proc Unit := ⟨⟨(), ∅, ∅⟩, { RandState.initial true fun _ => 0 with method := .gMethod }⟩

def config : RunConfig := ⟨1, str "tx", [], 1, [44], ∅, [], [], 0⟩

end Drawing

/-- A case after a first one, and the same case at once. -/
theorem run_forgets_history_drawing :
    let H := Dual.Quiet.hashes
    let A := Dual.Quiet.algebra
    let s := Dual.Quiet.session
    let q := afterRuns H A Drawing.library s [Drawing.config] Drawing.proc
    let q' := afterRuns H A Drawing.library s [] Drawing.proc
    let r := run H A Drawing.library s Drawing.config q
    let r' := run H A Drawing.library s Drawing.config q'
    SameOutcome r.1 r'.1 ∧
      r.2.rand.served.drop q.rand.served.length = r'.2.rand.served.drop q'.rand.served.length ∧
      (∀ (id : UInt64) (store : SigningStore),
        (start H Drawing.library s Drawing.config q).2.world.players[id]? = some store → store = ∅) ∧
      (start H Drawing.library s Drawing.config q).2.world.players =
        (start H Drawing.library s Drawing.config q').2.world.players :=
  run_forgets_history Dual.Quiet.hashes Dual.Quiet.algebra Drawing.library Drawing.functional
    Drawing.proc rfl Dual.Quiet.session Drawing.config rfl [Drawing.config] []

end MpcHunt.Harness.Driver
