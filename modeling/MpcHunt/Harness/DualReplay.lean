/-
The trace a dual session reports, as a schedule: it grants the same turns
again, whatever bytes follow it, and the run ends the same.
-/
import MpcHunt.Harness.HistoryFree

namespace MpcHunt.Harness.Dual

open Turns TwoRuns

/-- `static_cast<uint8_t>(turn)`. -/
def turnByte : Side → UInt8
  | .a => 0
  | .b => 1

@[simp] theorem turnOf_turnByte (x : Side) : turnOf (turnByte x) = x := by cases x <;> rfl

/-- The schedule of a result, as the bytes it is kept in. -/
def DualResult.trace (r : DualResult) : List UInt8 := r.schedule.map turnByte

def semanticEqual (lhs rhs : DualResult) : Bool :=
  lhs.bothCompleted = rhs.bothCompleted && lhs.maxRoundReached = rhs.maxRoundReached &&
    lhs.advancedPastInjection = rhs.advancedPastInjection &&
    lhs.interleavePoints = rhs.interleavePoints && lhs.verdict = rhs.verdict &&
    lhs.a = rhs.a && lhs.b = rhs.b && lhs.schedule = rhs.schedule && lhs.detail = rhs.detail

/-! ## The loop under another schedule -/

/-- The loop's variables with another schedule left. -/
def DualLoop.withRest (l : DualLoop) (rest : List UInt8) : DualLoop := { l with rest }

section
variable {η : Type} {H : Hashes} {lib : Library η}

theorem cross_withRest (l : DualLoop) (x : Side) (rest rest' : List UInt8) :
    (l.withRest rest').cross x rest = l.cross x rest := by
  unfold DualLoop.cross DualLoop.withRest
  rfl

/-- A granted turn does not look at the schedule that is left. -/
theorem grant_withRest (l : DualLoop) (x : Side) (rest rest' : List UInt8) (p : Proc η) :
    (l.withRest rest').grant H lib x rest p = l.grant H lib x rest p := by
  unfold DualLoop.grant
  rw [cross_withRest]

theorem grant_rest (l : DualLoop) (x : Side) (rest rest' : List UInt8) (p : Proc η) :
    l.grant H lib x rest' p =
      ((l.grant H lib x rest p).1.withRest rest', (l.grant H lib x rest p).2) := by
  unfold DualLoop.grant DualLoop.cross
  by_cases h : l.lastTurn ≠ none ∧ l.lastTurn ≠ some x
  · rw [if_pos h, if_pos h]
    cases x <;> rfl
  · rw [if_neg h, if_neg h]
    cases x <;> rfl

@[simp] theorem cer_withRest (l : DualLoop) (rest : List UInt8) (x : Side) :
    (l.withRest rest).cer x = l.cer x := by cases x <;> rfl

/-- A schedule that starts with a turn whose ceremony is unfinished is granted it. -/
theorem nextTurn_withRest {l : DualLoop} {byte : UInt8}
    (h : ¬ (l.cer (turnOf byte)).finished = true) (rest : List UInt8) :
    (l.withRest (byte :: rest)).nextTurn = (turnOf byte, rest) := by
  show (if ((l.withRest (byte :: rest)).cer (turnOf byte)).finished = true then _ else turnOf byte,
    rest) = _
  rw [cer_withRest, if_neg h]

/-- Where a ceremony is unfinished the turn goes to one that is. -/
theorem nextTurn_unfinished {l : DualLoop} (h : ¬ (l.a.finished = true ∧ l.b.finished = true)) :
    ¬ (l.cer l.nextTurn.1).finished = true := by
  unfold DualLoop.nextTurn
  cases l.rest with
  | nil =>
    dsimp only
    by_cases ha : l.a.finished = true
    · rw [if_pos ha]
      exact fun hb => h ⟨ha, hb⟩
    · rw [if_neg ha]
      exact ha
  | cons byte rest =>
    dsimp only
    by_cases hturn : (l.cer (turnOf byte)).finished = true
    · rw [if_pos hturn]
      intro hother
      cases hside : turnOf byte with
      | a =>
        rw [hside] at hturn hother
        exact h ⟨hturn, hother⟩
      | b =>
        rw [hside] at hturn hother
        exact h ⟨hother, hturn⟩
    · rw [if_neg hturn]
      exact hturn

theorem schedule_grant (l : DualLoop) (x : Side) (rest : List UInt8) (p : Proc η) :
    (l.grant H lib x rest p).1.schedule = l.schedule ++ [x] := (granted H lib l p x rest).schedule

/-- A loop that goes on grants the next turn. -/
theorem dualLoop_succ {n : Nat} {l : DualLoop} (h : ¬ (l.a.finished = true ∧ l.b.finished = true))
    (p : Proc η) : dualLoop H lib (n + 1) l p =
      dualLoop H lib n (l.grant H lib l.nextTurn.1 l.nextTurn.2 p).1
        (l.grant H lib l.nextTurn.1 l.nextTurn.2 p).2 := by
  conv_lhs => unfold dualLoop
  rw [if_neg h, if_neg (nextTurn_unfinished h)]
  rfl

/-- The loop only adds to the schedule it reports. -/
theorem schedule_prefix (n : Nat) (l : DualLoop) (p : Proc η) :
    l.schedule <+: (dualLoop H lib n l p).1.schedule := by
  induction n generalizing l p with
  | zero => exact List.prefix_rfl
  | succ n ih =>
    by_cases h : l.a.finished = true ∧ l.b.finished = true
    · unfold dualLoop
      rw [if_pos h]
      exact List.prefix_rfl
    · rw [dualLoop_succ h]
      refine List.IsPrefix.trans ?_ (ih _ _)
      rw [schedule_grant]
      exact List.prefix_append _ _

/-- **The granted trace replays.** A loop whose schedule is the turns that were granted, and
whatever follows, goes the same way; in lock step, whichever branch decided each turn. -/
theorem dualLoop_replay (n : Nat) (l : DualLoop) (p : Proc η) (trace extra : List UInt8)
    (htrace : (dualLoop H lib n l p).1.schedule = l.schedule ++ trace.map turnOf) :
    ∃ rest, dualLoop H lib n (l.withRest (trace ++ extra)) p =
      ((dualLoop H lib n l p).1.withRest rest, (dualLoop H lib n l p).2) := by
  induction n generalizing l p trace with
  | zero => exact ⟨trace ++ extra, rfl⟩
  | succ n ih =>
    by_cases h : l.a.finished = true ∧ l.b.finished = true
    · have hend : dualLoop H lib (n + 1) l p = (l, p) := by
        unfold dualLoop
        rw [if_pos h]
        rfl
      refine ⟨trace ++ extra, ?_⟩
      rw [hend]
      unfold dualLoop
      exact congrFun (if_pos h) p
    · rw [dualLoop_succ h] at htrace ⊢
      have hprefix : (l.grant H lib l.nextTurn.1 l.nextTurn.2 p).1.schedule <+:
          (dualLoop H lib n (l.grant H lib l.nextTurn.1 l.nextTurn.2 p).1
            (l.grant H lib l.nextTurn.1 l.nextTurn.2 p).2).1.schedule := schedule_prefix n _ _
      obtain ⟨tail, htail⟩ := hprefix
      rw [schedule_grant] at htail
      -- The trace starts with the turn that is granted now.
      cases trace with
      | nil =>
        rw [List.map_nil, List.append_nil, ← htail] at htrace
        simp at htrace
      | cons byte trace =>
        have hparts : turnOf byte = l.nextTurn.1 ∧ trace.map turnOf = tail := by
          rw [← htail, List.append_assoc, List.map_cons, List.append_cancel_left_eq] at htrace
          simpa [eq_comm] using htrace
        obtain ⟨hturn, hrest⟩ := hparts
        have hunfinished : ¬ (l.cer (turnOf byte)).finished = true := by
          rw [hturn]
          exact nextTurn_unfinished h
        have hstill : ¬ ((l.withRest (byte :: (trace ++ extra))).a.finished = true ∧
            (l.withRest (byte :: (trace ++ extra))).b.finished = true) := h
        rw [List.cons_append, dualLoop_succ hstill, nextTurn_withRest hunfinished, hturn,
          grant_withRest, grant_rest l l.nextTurn.1 l.nextTurn.2]
        refine ih _ _ trace ?_
        rw [schedule_grant, hrest]
        exact htail.symm

theorem map_turnOf_turnByte (turns : List Side) : (turns.map turnByte).map turnOf = turns := by
  simp [Function.comp_def]

/-! ## The run under another schedule -/

variable {A : Algebra} {s : Session} {seed : UInt64} {schedule : List UInt8} {p : Proc η}

theorem dualRun_of_guard {detail : Bytes} (h : dualGuard s = some detail) :
    dualRun H lib A s seed schedule p = (.fault detail, p) := by
  unfold dualRun
  rw [bind_run]
  simp only [h]
  rfl

/-- The loop of a run that starts. -/
def loopOf (H : Hashes) (lib : Library η) (s : Session) (seed : UInt64) (schedule : List UInt8)
    (p : Proc η) : DualLoop × Proc η :=
  dualLoop H lib maxSteps (.initial s.keyId (dualSigners s) schedule) (dualStart H lib s seed p).2

/-- A run that starts ends with the result of its loop. -/
theorem dualRun_of_start (h : dualGuard s = none) :
    dualRun H lib A s seed schedule p =
      (loopOf H lib s seed schedule p).1.result H lib A s.snap ((dualSigners s).headD 0)
        (aggregateKeyStoreDigest H (dualStart H lib s seed p).2.world.keyStores)
        (lib.now p.world.lib) (loopOf H lib s seed schedule p).2 := by
  unfold dualRun
  rw [bind_run]
  simp only [h]
  rfl

/-- From one state a run under the trace it reported is the run itself. -/
theorem dualRun_trace (h : dualGuard s = none) (extra : List UInt8) :
    dualRun H lib A s seed ((dualRun H lib A s seed schedule p).1.trace ++ extra) p =
      dualRun H lib A s seed schedule p := by
  have htrace : (dualRun H lib A s seed schedule p).1.trace =
      (loopOf H lib s seed schedule p).1.schedule.map turnByte := by
    rw [dualRun_of_start h]
    rfl
  rw [htrace]
  have hreplay : ∃ rest, loopOf H lib s seed
      ((loopOf H lib s seed schedule p).1.schedule.map turnByte ++ extra) p =
      ((loopOf H lib s seed schedule p).1.withRest rest, (loopOf H lib s seed schedule p).2) :=
    dualLoop_replay maxSteps (.initial s.keyId (dualSigners s) schedule) (dualStart H lib s seed p).2
      ((loopOf H lib s seed schedule p).1.schedule.map turnByte) extra (by
        rw [map_turnOf_turnByte]
        rfl)
  obtain ⟨rest, hloop⟩ := hreplay
  rw [dualRun_of_start h, dualRun_of_start h, hloop]
  rfl

end

/-! ## Two processes -/

section
variable {η β : Type} {H : Hashes} {A : Algebra} {lib : Library η} {keys : IdMap KeyStore}
  {base base' : List Served} {s : Session} {seed : UInt64} {schedule : List UInt8}

theorem related_eachSigner {call : UInt64 → Call η β} (hcall : ∀ id, FunctionalCall (call id))
    (ids : List UInt64) (outs : IdMap β) :
    Related (InStep H keys base base') (InStep H keys base base') Eq (eachSigner H call ids outs)
      (eachSigner H call ids outs) := by
  induction ids generalizing outs with
  | nil => exact Related.pure rfl
  | cons id ids ih =>
    refine (hcall id).invoke.bind_eq fun r => ?_
    cases r with
    | error e => exact Related.pure rfl
    | ok out => exact ih _

/-- A step of a ceremony, by the round it is at. -/
theorem related_step (hlib : Functional lib) (c : Ceremony) :
    Related (InStep H keys base base') (InStep H keys base base') Eq (c.step H lib)
      (c.step H lib) := by
  unfold Ceremony.step
  refine Related.ite (fun _ => Related.pure rfl) fun _ => ?_
  dsimp only
  split
  · exact (related_eachSigner (fun id => hlib.startSigning id _ _ _ _ _ _ _) _ _).bind_eq
      fun _ => Related.pure rfl
  · exact (related_eachSigner (fun id => hlib.mtaResponse id _ _) _ _).bind_eq
      fun _ => Related.pure rfl
  · exact (related_eachSigner (fun id => hlib.mtaVerify id _ _) _ _).bind_eq
      fun _ => Related.pure rfl
  · exact (related_eachSigner (fun id => hlib.getSi id _ _) _ _).bind_eq fun _ => Related.pure rfl
  · refine (hlib.getCmpSignature _ _ _).invoke.bind_eq fun r => ?_
    cases r with
    | error e => exact Related.pure rfl
    | ok sigs => exact Related.pure rfl
  · exact Related.pure rfl

/-- A granted turn: the records it compares are those of the same signing stores. -/
theorem related_grant (hlib : Functional lib) (l : DualLoop) (turn : Side) (rest : List UInt8) :
    Related (InStep H keys base base') (InStep H keys base base') Eq (l.grant H lib turn rest)
      (l.grant H lib turn rest) := by
  unfold DualLoop.grant
  refine Related.get fun p p' hp => (related_step hlib _).bind_eq fun r => ?_
  refine Related.get fun q q' hq => Related.pure ?_
  rw [hp.players, hq.players]

theorem related_dualLoop (hlib : Functional lib) (n : Nat) (l : DualLoop) :
    Related (InStep H keys base base') (InStep H keys base base') Eq (dualLoop H lib n l)
      (dualLoop H lib n l) := by
  induction n generalizing l with
  | zero => exact Related.pure rfl
  | succ n ih =>
    unfold dualLoop
    refine Related.ite (fun _ => Related.pure rfl) fun _ => ?_
    refine Related.ite (fun _ => Related.pure rfl) fun _ => ?_
    exact (related_grant hlib _ _ _).bind_eq ih

/-- The start of a run: whatever the generator and the players were. -/
theorem related_dualStart (hlib : Functional lib) :
    Related (Before keys base base') (InStep H keys base base') (fun _ _ => True)
      (dualStart H lib s seed) (dualStart H lib s seed) := by
  intro p p' h
  have hstream : SameStream H.sha512 base base' (reseedWithLabel H.sha512 seed (str "dual") p.rand)
      (reseedWithLabel H.sha512 seed (str "dual") p'.rand) := by
    rw [← h.served, ← h.served']
    exact sameStream_reseed seed (str "dual") h.method h.method'
  have hfresh : Fresh H keys base base' (dualStart H lib s seed p).2 (dualStart H lib s seed p').2 := by
    refine (hlib.makePlayers s.ids _ _ ?_).2
    refine ⟨⟨rfl, h.keyStores, h.keyStores', hstream⟩, fun id store hget => ?_⟩
    have hnone : (∅ : IdMap SigningStore)[id]? = none := Std.ExtTreeMap.getElem?_empty
    cases hnone.symm.trans hget
  exact ⟨trivial, hfresh.inStep⟩

/-- Two runs of one schedule. -/
theorem related_dualRun (hlib : Functional lib) :
    Related (Before keys base base') (After keys base base')
      (fun r r' => semanticEqual r r' = true ∧ r.schedule = r'.schedule)
      (dualRun H lib A s seed schedule) (dualRun H lib A s seed schedule) := by
  intro p p' h
  cases hg : dualGuard s with
  | some detail =>
    rw [dualRun_of_guard hg, dualRun_of_guard hg]
    exact ⟨⟨by simp [semanticEqual], rfl⟩, h.after⟩
  | none =>
    have hstart : InStep H keys base base' (dualStart H lib s seed p).2 (dualStart H lib s seed p').2 :=
      (related_dualStart hlib p p' h).2
    obtain ⟨hloop, hend⟩ := related_dualLoop hlib maxSteps
      (.initial s.keyId (dualSigners s) schedule) _ _ hstart
    have hloop : (loopOf H lib s seed schedule p).1 = (loopOf H lib s seed schedule p').1 := hloop
    have hend : InStep H keys base base' (loopOf H lib s seed schedule p).2
      (loopOf H lib s seed schedule p').2 := hend
    rw [dualRun_of_start hg, dualRun_of_start hg]
    refine ⟨⟨?_, congrArg DualLoop.schedule hloop⟩, hend.after⟩
    unfold DualLoop.result
    simp only [semanticEqual, bind, StateT.bind, get, getThe, MonadStateOf.get, StateT.get, pure,
      StateT.pure, hloop, hend.players, hend.keyStores, hend.keyStores', hstart.keyStores,
      hstart.keyStores']
    simp

/-! ## Histories -/

/-- The process of a session after some runs, each of a seed and a schedule. -/
def afterDualRuns (H : Hashes) (A : Algebra) (lib : Library η) (s : Session)
    (history : List (UInt64 × List UInt8)) (p : Proc η) : Proc η :=
  history.foldl (fun p run => (dualRun H lib A s run.1 run.2 p).2) p

/-- What a run needs of the process is there after any run. -/
theorem afterDualRuns_ready (hlib : Functional lib) (s : Session)
    (history : List (UInt64 × List UInt8)) {p : Proc η} (hmethod : UsesMethod p.rand) :
    (afterDualRuns H A lib s history p).world.keyStores = p.world.keyStores ∧
      UsesMethod (afterDualRuns H A lib s history p).rand := by
  induction history generalizing p with
  | nil => exact ⟨rfl, hmethod⟩
  | cons run history ih =>
    have hstep : After p.world.keyStores p.rand.served p.rand.served
        (dualRun H lib A s run.1 run.2 p).2 (dualRun H lib A s run.1 run.2 p).2 :=
      (related_dualRun hlib p p ⟨rfl, rfl, hmethod, hmethod, rfl, rfl⟩).2
    obtain ⟨hkeys, hmethod'⟩ := ih hstep.method
    exact ⟨hkeys.trans hstep.keyStores, hmethod'⟩

end

variable {η : Type} (H : Hashes) (A : Algebra) (lib : Library η)

/-- **The reported trace replays the run**, after whatever other runs of the session, and
whatever bytes follow it. -/
theorem dualRun_replay (hlib : Functional lib) (s : Session) (p : Proc η)
    (hmethod : UsesMethod p.rand) (seed : UInt64) (schedule extra : List UInt8)
    (history : List (UInt64 × List UInt8)) :
    let first := dualRun H lib A s seed schedule p
    let again := dualRun H lib A s seed (first.1.trace ++ extra)
      (afterDualRuns H A lib s history first.2)
    semanticEqual again.1 first.1 = true ∧ again.1.schedule = first.1.schedule := by
  intro first again
  have hfirst : afterDualRuns H A lib s ((seed, schedule) :: history) p =
    afterDualRuns H A lib s history first.2 := rfl
  obtain ⟨hkeys, hready⟩ := afterDualRuns_ready (H := H) (A := A) hlib s
    ((seed, schedule) :: history) hmethod
  rw [hfirst] at hkeys hready
  -- The run of the trace, had it been the first one of this process.
  have hsame : semanticEqual again.1 (dualRun H lib A s seed (first.1.trace ++ extra) p).1 = true ∧
      again.1.schedule = (dualRun H lib A s seed (first.1.trace ++ extra) p).1.schedule :=
    (related_dualRun hlib (afterDualRuns H A lib s history first.2) p
      ⟨hkeys, rfl, hready, hmethod, rfl, rfl⟩).1
  cases hg : dualGuard s with
  | some detail =>
    have hat : dualRun H lib A s seed (first.1.trace ++ extra) p = first := by
      rw [dualRun_of_guard hg]
      exact (dualRun_of_guard hg).symm
    rw [hat] at hsame
    exact hsame
  | none =>
    rw [dualRun_trace hg] at hsame
    exact hsame

/-- Replaying the two turns that were asked for and those that followed, after another run. -/
theorem dualRun_replay_drawing :
    let lib := Driver.Drawing.library
    let first := dualRun Quiet.hashes lib Quiet.algebra Quiet.session 1 [1, 0] Driver.Drawing.proc
    let again := dualRun Quiet.hashes lib Quiet.algebra Quiet.session 1 (first.1.trace ++ [7])
      (afterDualRuns Quiet.hashes Quiet.algebra lib Quiet.session [(2, [])] first.2)
    semanticEqual again.1 first.1 = true ∧ again.1.schedule = first.1.schedule :=
  dualRun_replay Quiet.hashes Quiet.algebra Driver.Drawing.library Driver.Drawing.functional
    Quiet.session Driver.Drawing.proc rfl 1 [1, 0] [7] [(2, [])]

end MpcHunt.Harness.Dual
