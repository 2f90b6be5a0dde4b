/-
The two ceremonies of `dual_session::run` by the calls they make: each runs
its rounds in order and stops where a call of its own throws, both end within
ten turns, and the turns follow the schedule.
-/
import MpcHunt.Harness.DualSchedule
import MpcHunt.Harness.Tap

namespace MpcHunt.Harness.Dual

open Turns

/-! ## The calls of a ceremony -/

/-- One call of the library: the round it belongs to, its ceremony by its transaction, the
signer it is made for, and what it threw if it did. -/
structure Called where
  round : Nat
  txid : Bytes
  signer : UInt64
  threw : Option Thrown
deriving DecidableEq

def thrown {α : Type} : Except Thrown α → Option Thrown
  | .error e => some e
  | .ok _ => none

variable {η β : Type}

def logCall (round : Nat) (txid : Bytes) (signer : UInt64) (c : Call η β) :
    Call (η × List Called) β :=
  tapCall (fun out log => log ++ [⟨round, txid, signer, thrown out⟩]) c

/-- The library with its calls on a log. -/
def Library.logged (lib : Library η) : Library (η × List Called) where
  maxBlocksToSign := lib.maxBlocksToSign
  makeService id := tapService (lib.makeService id)
  startSigning id keyId txid algorithm data metadataJson playersStr playersIds :=
    logCall 1 txid id
      (lib.startSigning id keyId txid algorithm data metadataJson playersStr playersIds)
  mtaResponse id txid requests := logCall 2 txid id (lib.mtaResponse id txid requests)
  mtaVerify id txid responses := logCall 3 txid id (lib.mtaVerify id txid responses)
  getSi id txid deltas := logCall 4 txid id (lib.getSi id txid deltas)
  getCmpSignature id txid sis := logCall 5 txid id (lib.getCmpSignature id txid sis)
  now s := lib.now s.1

/-- The signers a round calls: all of them, the last round the observer. -/
def callees (signers : List UInt64) (round : Nat) : List UInt64 :=
  if round = 5 then [signers.headD 0] else signers

/-- A round all of whose calls return. -/
def succeeds (txid : Bytes) (signers : List UInt64) (round : Nat) : List Called :=
  (callees signers round).map fun id => ⟨round, txid, id, none⟩

/-- A round cut short: some calls return, the next one throws `e`. -/
def CutShort (txid : Bytes) (signers : List UInt64) (round : Nat) (e : Thrown) (calls : List Called) :
    Prop :=
  ∃ before id after, callees signers round = before ++ id :: after ∧
    calls = before.map (fun id => ⟨round, txid, id, none⟩) ++ [⟨round, txid, id, some e⟩]

/-- The first `n` rounds, one after another. -/
def roundsUpTo (txid : Bytes) (signers : List UInt64) (n : Nat) : List Called :=
  (List.range n).flatMap fun k => succeeds txid signers (k + 1)

theorem roundsUpTo_succ (txid : Bytes) (signers : List UInt64) (n : Nat) :
    roundsUpTo txid signers (n + 1) = roundsUpTo txid signers n ++ succeeds txid signers (n + 1) := by
  simp [roundsUpTo, List.range_succ]

/-- A ceremony that is over, by the calls it made: all five rounds, or the rounds it
completed and one cut short by the call that threw. -/
def Over (txid : Bytes) (signers : List UInt64) (state : CeremonyState) (rounds : Nat)
    (calls : List Called) : Prop :=
  (state = .completed ∧ rounds = 5 ∧ calls = roundsUpTo txid signers 5) ∨
    ∃ e last, state = (if (guarded e).fatal then .faulted else .rejected) ∧ rounds ≤ 4 ∧
      calls = roundsUpTo txid signers rounds ++ last ∧ CutShort txid signers (rounds + 1) e last

/-- The calls a ceremony has made. -/
def Ran (txid : Bytes) (signers : List UInt64) (c : Ceremony) (calls : List Called) : Prop :=
  (c.txid = txid ∧ c.signers = signers) ∧
    ((c.finished = false ∧ c.round ≤ 4 ∧ calls = roundsUpTo txid signers c.round) ∨
      Over txid signers c.state c.round calls)

/-! ## The calls of a round -/

variable (H : Hashes)

/-- The loop of a round calls every signer, or the signers up to the one whose call throws. -/
theorem eachSigner_logged (round : Nat) (txid : Bytes) (call : UInt64 → Call η β) (ids : List UInt64)
    (outs : IdMap β) (p : Proc (η × List Called)) :
    let r := eachSigner H (fun id => logCall round txid id (call id)) ids outs p
    (r.1.1 = none ∧ r.2.record = p.record ++ ids.map fun id => ⟨round, txid, id, none⟩) ∨
      ∃ e before id after, r.1.1 = some (guarded e) ∧ ids = before ++ id :: after ∧
        r.2.record = p.record ++
          (before.map (fun id => ⟨round, txid, id, none⟩) ++ [⟨round, txid, id, some e⟩]) := by
  induction ids generalizing outs p with
  | nil => exact .inl ⟨rfl, (List.append_nil _).symm⟩
  | cons id ids ih =>
    have hinvoke := invoke_tapCall H (fun out log => log ++ [⟨round, txid, id, thrown out⟩]) (call id) p
    unfold eachSigner
    simp only [bind, StateT.bind]
    unfold logCall
    rw [hinvoke]
    cases hout : (invoke H (call id) p.untap).1 with
    | error e => exact .inr ⟨e, [], id, ids, rfl, rfl, rfl⟩
    | ok out =>
      have hrest := ih (outs.insert id out) ((invoke H (call id) p.untap).2.tap
        (p.record ++ [⟨round, txid, id, none⟩]))
      rcases hrest with ⟨hnone, hlog⟩ | ⟨e, before, id', after, hsome, rfl, hlog⟩
      · refine .inl ⟨hnone, hlog.trans ?_⟩
        rw [Proc.record_tap, List.map_cons, List.append_assoc]
        rfl
      · refine .inr ⟨e, id :: before, id', after, hsome, rfl, hlog.trans ?_⟩
        rw [Proc.record_tap, List.map_cons, List.append_assoc]
        rfl

/-- What a step leaves of an unfinished ceremony: calls of its own, of its next round. -/
structure Logged (c : Ceremony) (p : Proc (η × List Called))
    (r : (Bool × Ceremony) × Proc (η × List Called)) : Prop where
  own : ∃ new, r.2.record = p.record ++ new ∧ (∀ k ∈ new, k.txid = c.txid) ∧
    Ran c.txid c.signers r.1.2 (roundsUpTo c.txid c.signers c.round ++ new)

theorem txid_of_mem_map {txid : Bytes} {round : Nat} {ids : List UInt64} {k : Called}
    (h : k ∈ ids.map fun id => (⟨round, txid, id, none⟩ : Called)) : k.txid = txid := by
  obtain ⟨id, -, rfl⟩ := List.mem_map.1 h
  rfl

/-- The end of one of the first four rounds. -/
theorem logged_endRound {c c' : Ceremony} {k : Nat} (hround : c.round + 1 = k) (hk : k ≤ 4)
    (htxid : c'.txid = c.txid) (hsigners : c'.signers = c.signers) (hc' : c'.round = c.round)
    (hstate : c'.state = .running) {o : Option CallOutcome} {p p' : Proc (η × List Called)}
    (h : (o = none ∧ p'.record = p.record ++ c.signers.map fun id => ⟨k, c.txid, id, none⟩) ∨
      ∃ e before id after, o = some (guarded e) ∧ c.signers = before ++ id :: after ∧
        p'.record = p.record ++
          (before.map (fun id => ⟨k, c.txid, id, none⟩) ++ [⟨k, c.txid, id, some e⟩])) :
    Logged c p (c'.endRound k o, p') := by
  have hcallees : callees c.signers k = c.signers := by
    unfold callees
    rw [if_neg (by omega)]
  rcases h with ⟨rfl, hlog⟩ | ⟨e, before, id, after, rfl, hsplit, hlog⟩
  · refine ⟨_, hlog, fun _ => txid_of_mem_map, ⟨htxid, hsigners⟩, .inl ⟨?_, hk, ?_⟩⟩
    · show (c'.state ≠ .pending && c'.state ≠ .running) = false
      rw [hstate]
      rfl
    · show _ = roundsUpTo c.txid c.signers k
      rw [← hround, roundsUpTo_succ, succeeds, hround, hcallees]
  · refine ⟨_, hlog, ?_, ⟨htxid, hsigners⟩, .inr (.inr ⟨e,
      before.map (fun id => ⟨k, c.txid, id, none⟩) ++ [⟨k, c.txid, id, some e⟩], rfl, ?_, ?_, ?_⟩)⟩
    · intro d hd
      rcases List.mem_append.1 hd with hd | hd
      · exact txid_of_mem_map hd
      · rw [List.mem_singleton.1 hd]
    · show c'.round ≤ 4
      omega
    · show _ = roundsUpTo c.txid c.signers c'.round ++ _
      rw [hc']
    · show CutShort c.txid c.signers (c'.round + 1) e _
      rw [hc', hround]
      exact ⟨before, id, after, hcallees.trans hsplit, rfl⟩

variable (lib : Library η)

/-- A step of an unfinished ceremony makes the calls of its next round. -/
theorem step_logged {c : Ceremony} (h : c.finished = false) (hr : c.round ≤ 4)
    (p : Proc (η × List Called)) : Logged c p (c.step H (Library.logged lib) p) := by
  unfold Ceremony.step
  rw [if_neg (by rw [h]; decide)]
  have hcases : c.round = 0 ∨ c.round = 1 ∨ c.round = 2 ∨ c.round = 3 ∨ c.round = 4 := by omega
  rcases hcases with h0 | h0 | h0 | h0 | h0
  · simp only [h0]
    refine logged_endRound (by omega) (by decide) ?_ ?_ ?_ ?_
      (eachSigner_logged H 1 c.txid (fun id => lib.startSigning id c.keyId c.txid 0 c.data []
        c.playersStr c.playersIds) c.signers c.requests p)
    · rfl
    · rfl
    · exact h0.symm
    · rfl
  · simp only [h0]
    refine logged_endRound (by omega) (by decide) ?_ ?_ ?_ ?_
      (eachSigner_logged H 2 c.txid (fun id => lib.mtaResponse id c.txid c.requests)
        c.signers c.responses p)
    · rfl
    · rfl
    · exact h0.symm
    · rfl
  · simp only [h0]
    refine logged_endRound (by omega) (by decide) ?_ ?_ ?_ ?_
      (eachSigner_logged H 3 c.txid (fun id => lib.mtaVerify id c.txid c.responses)
        c.signers c.deltas p)
    · rfl
    · rfl
    · exact h0.symm
    · rfl
  · simp only [h0]
    refine logged_endRound (by omega) (by decide) ?_ ?_ ?_ ?_
      (eachSigner_logged H 4 c.txid (fun id => lib.getSi id c.txid c.deltas) c.signers c.sis p)
    · rfl
    · rfl
    · exact h0.symm
    · rfl
  · simp only [h0]
    have hinvoke := invoke_tapCall H
      (fun out log => log ++ [⟨5, c.txid, c.signers.headD 0, thrown out⟩])
      (lib.getCmpSignature (c.signers.headD 0) c.txid c.sis) p
    unfold Ceremony.round5
    rw [bind_run]
    simp only [Library.logged, logCall]
    rw [hinvoke]
    generalize invoke H (lib.getCmpSignature (c.signers.headD 0) c.txid c.sis) p.untap = r
    obtain ⟨o, p'⟩ := r
    cases o with
    | error e =>
      refine ⟨[⟨5, c.txid, c.signers.headD 0, some e⟩], rfl, by simp, ⟨rfl, rfl⟩,
        .inr (.inr ⟨e, [⟨5, c.txid, c.signers.headD 0, some e⟩], rfl, ?_, ?_, ?_⟩)⟩
      · exact Nat.le_refl 4
      · rw [h0]
        rfl
      · exact ⟨[], c.signers.headD 0, [], rfl, rfl⟩
    | ok sigs =>
      refine ⟨[⟨5, c.txid, c.signers.headD 0, none⟩], rfl, by simp, ⟨rfl, rfl⟩,
        .inr (.inl ⟨rfl, rfl, ?_⟩)⟩
      rw [h0]
      exact (roundsUpTo_succ c.txid c.signers 4).symm

/-! ## The calls of the loop -/

/-- The calls of one ceremony on a log. -/
def callsOf (x : Side) (log : List Called) : List Called := log.filter fun k => k.txid = txidOf x

theorem txidOf_inj {x y : Side} : txidOf x = txidOf y ↔ x = y := by
  cases x <;> cases y <;> decide

/-- Each ceremony has made the calls it has run, and nobody else made any. -/
structure PairRan (signers : List UInt64) (s : Pair (η × List Called)) : Prop where
  ran : ∀ x, Ran (txidOf x) signers (s.cer x) (callsOf x s.proc.record)
  own : ∀ k ∈ s.proc.record, ∃ x, k.txid = txidOf x

theorem pairRan_step {signers : List UInt64} {s : Pair (η × List Called)} {x : Side}
    (hinv : (ceremonies H (Library.logged lib)).Inv s)
    (hleft : (ceremonies H (Library.logged lib)).left x s ≠ 0) (h : PairRan signers s) :
    PairRan signers ((ceremonies H (Library.logged lib)).step x s).2 := by
  have hunfinished : (s.cer x).finished = false := by
    rw [← Bool.not_eq_true]
    intro hf
    exact hleft ((left_eq_zero (hinv x)).2 hf)
  obtain ⟨⟨htxid, hsigners⟩, hcalls⟩ := h.ran x
  -- An unfinished ceremony is not over.
  have hcalls : callsOf x s.proc.record = roundsUpTo (txidOf x) signers (s.cer x).round := by
    rcases hcalls with ⟨-, -, hcalls⟩ | ⟨hstate, -⟩ | ⟨e, -, hstate, -⟩
    · exact hcalls
    · rw [Ceremony.finished, hstate] at hunfinished
      cases hunfinished
    · rw [Ceremony.finished, hstate] at hunfinished
      split_ifs at hunfinished
      all_goals exact absurd hunfinished (by decide)
  obtain ⟨new, hlog, hnew, hran⟩ := (step_logged H lib hunfinished (hinv x hunfinished) s.proc).own
  rw [htxid, hsigners] at hran
  rw [htxid] at hnew
  have hproc : ((ceremonies H (Library.logged lib)).step x s).2.proc =
      ((s.cer x).step H (Library.logged lib) s.proc).2 := proc_set _ _ _ _
  refine ⟨fun y => ?_, fun k hk => ?_⟩
  · rw [hproc, hlog, callsOf, List.filter_append]
    by_cases hy : y = x
    · subst hy
      have hall : new.filter (fun k => k.txid = txidOf y) = new :=
        List.filter_eq_self.2 fun k hk => by simpa using hnew k hk
      rw [hall]
      show Ran _ _ ((s.set y _ _).cer y) (callsOf y s.proc.record ++ new)
      rw [cer_set_self, hcalls]
      exact hran
    · have hnone : new.filter (fun k => k.txid = txidOf y) = [] :=
        List.filter_eq_nil_iff.2 fun k hk => by
          simpa [hnew k hk, txidOf_inj] using Ne.symm hy
      rw [hnone, List.append_nil]
      show Ran _ _ ((s.set x _ _).cer y) _
      rw [cer_set_other hy]
      exact h.ran y
  · rw [hproc, hlog] at hk
    rcases List.mem_append.1 hk with hk | hk
    · exact h.own k hk
    · exact ⟨x, hnew k hk⟩

/-! ## A run against the logging library -/

theorem untaps_eachSigner (round : Nat) (txid : Bytes) (call : UInt64 → Call η β) (ids : List UInt64)
    (outs : IdMap β) :
    Untaps (eachSigner H (fun id => logCall round txid id (call id)) ids outs)
      (eachSigner H call ids outs) := by
  induction ids generalizing outs with
  | nil => exact .pure _
  | cons id ids ih =>
    refine .bind (.invoke H _ _) fun r => ?_
    cases r with
    | error e => exact .pure _
    | ok out => exact ih _

theorem untaps_step (c : Ceremony) : Untaps (c.step H (Library.logged lib)) (c.step H lib) := by
  unfold Ceremony.step
  cases hf : c.finished with
  | true => exact .pure _
  | false =>
    simp only [Bool.false_eq_true, if_false]
    split
    · exact .bind (untaps_eachSigner H 1 _ _ _ _) fun _ => .pure _
    · exact .bind (untaps_eachSigner H 2 _ _ _ _) fun _ => .pure _
    · exact .bind (untaps_eachSigner H 3 _ _ _ _) fun _ => .pure _
    · exact .bind (untaps_eachSigner H 4 _ _ _ _) fun _ => .pure _
    · unfold Ceremony.round5
      simp only [Library.logged, logCall]
      refine .bind (.invoke H _ _) fun r => ?_
      cases r with
      | error e => exact .pure _
      | ok sigs => exact .pure _
    · exact .pure _

theorem untaps_grant (l : DualLoop) (turn : Side) (rest : List UInt8) :
    Untaps (l.grant H (Library.logged lib) turn rest) (l.grant H lib turn rest) := by
  intro p
  refine UntapsAt.get (.bind (untaps_step H lib _ p) fun r => ?_)
  intro p
  exact UntapsAt.get (Untaps.pure _ _)

theorem untaps_dualLoop (n : Nat) (l : DualLoop) :
    Untaps (dualLoop H (Library.logged lib) n l) (dualLoop H lib n l) := by
  induction n generalizing l with
  | zero => exact .pure _
  | succ n ih =>
    unfold dualLoop
    by_cases hfin : l.a.finished ∧ l.b.finished
    · rw [if_pos hfin, if_pos hfin]
      exact .pure _
    · rw [if_neg hfin, if_neg hfin]
      by_cases hturn : (l.cer l.nextTurn.1).finished
      · rw [if_pos hturn, if_pos hturn]
        exact .pure _
      · rw [if_neg hturn, if_neg hturn]
        exact .bind (untaps_grant H lib _ _ _) ih

theorem untaps_dualStart (s : Session) (seed : UInt64) :
    Untaps (dualStart H (Library.logged lib) s seed) (dualStart H lib s seed) := by
  refine .bind (fun p => ⟨rfl, rfl⟩) fun _ => .bind (fun p => ⟨rfl, rfl⟩) fun _ => ?_
  exact untaps_makePlayers H (fun _ => rfl) s.ids

theorem untaps_dualRun (A : Algebra) (s : Session) (seed : UInt64) (schedule : List UInt8) :
    Untaps (dualRun H (Library.logged lib) A s seed schedule) (dualRun H lib A s seed schedule) := by
  intro p
  unfold dualRun
  refine UntapsAt.get ?_
  cases dualGuard s with
  | some detail => exact Untaps.pure _ _
  | none =>
    refine .bind (untaps_dualStart H lib s seed _) fun _ p => UntapsAt.get (.bind (untaps_dualLoop H lib _ _ _) ?_)
    intro l p
    exact UntapsAt.get (UntapsAt.get (Untaps.pure _ _))

/-! ## The turns -/

/-- The turn the schedule asks for, or the other one where that ceremony is finished; after the
schedule the first one that is not. -/
def turnAt (schedule : List UInt8) (i : Nat) (l : DualLoop) : Side :=
  match schedule[i]? with
  | some byte => if (l.cer (turnOf byte)).finished then (turnOf byte).other else turnOf byte
  | none => if l.a.finished then .b else .a

/-- The loop after at most `i` turns. -/
def afterTurns (s : Session) (seed : UInt64) (schedule : List UInt8) (p : Proc η) (i : Nat) : DualLoop :=
  (dualLoop H lib i (.initial s.keyId (dualSigners s) schedule) (dualStart H lib s seed p).2).1

theorem next_eq_turnAt {l : DualLoop} {p : Proc η} (h : (ceremonies H lib).Inv (l.pair p))
    (schedule : List UInt8) (i : Nat) :
    ((ceremonies H lib).next (l.pair p) ((schedule.map turnOf).drop i)).1 = turnAt schedule i l := by
  have hleft : ∀ x, (ceremonies H lib).left x (l.pair p) = 0 ↔ (l.cer x).finished = true := by
    intro x
    show ((l.pair p).cer x).left = 0 ↔ _
    rw [left_eq_zero (h x), pair_cer]
  unfold turnAt
  cases hbyte : schedule[i]? with
  | none =>
    have hlen : (schedule.map turnOf).length ≤ i := by
      simpa using List.getElem?_eq_none_iff.1 hbyte
    rw [List.drop_eq_nil_of_le hlen]
    show (if _ then _ else _) = if _ then _ else _
    simp only [hleft]
    rfl
  | some byte =>
    obtain ⟨hi, rfl⟩ := List.getElem?_eq_some_iff.1 hbyte
    have hi' : i < (schedule.map turnOf).length := by simpa using hi
    rw [List.drop_eq_getElem_cons hi', List.getElem_map]
    show (if _ then _ else _) = if _ then _ else _
    simp only [hleft]

theorem schedule_turnAt (A : Algebra) (s : Session) (seed : UInt64) (schedule : List UInt8) (p : Proc η)
    (h : dualGuard s = none) (i : Nat)
    (hi : i < (dualRun H lib A s seed schedule p).1.schedule.length) :
    (dualRun H lib A s seed schedule p).1.schedule[i] =
      turnAt schedule i (afterTurns H lib s seed schedule p i) := by
  have hinv := startPair_inv H lib s seed p
  obtain ⟨hsched, -, -⟩ := dualRun_counts H lib A s seed schedule p h
  have hget : ((ceremonies H lib).turns maxSteps (schedule.map turnOf)
      (startPair H lib s seed p))[i]? = some (dualRun H lib A s seed schedule p).1.schedule[i] := by
    rw [← hsched]
    exact List.getElem?_eq_getElem hi
  rw [Tasks.turns_getElem hget]
  have hpair := (dualLoop_eq H lib i (.initial s.keyId (dualSigners s) schedule)
    (dualStart H lib s seed p).2 (fun x _ => by cases x <;> exact Nat.zero_le 4)).pair
  have hrun : (ceremonies H lib).Inv
      ((ceremonies H lib).run i (schedule.map turnOf) (startPair H lib s seed p)).2 :=
    Tasks.inv_run hinv _
  have hsame : (afterTurns H lib s seed schedule p i).pair
      (dualLoop H lib i (.initial s.keyId (dualSigners s) schedule) (dualStart H lib s seed p).2).2 =
      ((ceremonies H lib).run i (schedule.map turnOf) (startPair H lib s seed p)).2 := hpair
  rw [← hsame] at hrun ⊢
  exact next_eq_turnAt H lib hrun schedule i

/-! ## The run -/

/-- No more turns than the two ceremonies have rounds. -/
theorem schedule_length (A : Algebra) (s : Session) (seed : UInt64) (schedule : List UInt8) (p : Proc η)
    (h : dualGuard s = none) : (dualRun H lib A s seed schedule p).1.schedule.length ≤ 10 := by
  obtain ⟨hsched, -, -⟩ := dualRun_counts H lib A s seed schedule p h
  have hleft := startPair_left H lib s seed p
  have hlen := Tasks.length_run_le (n := maxSteps) (startPair_inv H lib s seed p) (schedule.map turnOf)
  rw [hleft, hleft] at hlen
  rw [hsched, Tasks.turns, List.length_map]
  exact hlen

/-- What the loop of a run leaves: both ceremonies over, by the calls on the log. -/
theorem dualLoop_over (s : Session) (seed : UInt64) (schedule : List UInt8) (p : Proc η) :
    let q := dualLoop H (Library.logged lib) maxSteps (.initial s.keyId (dualSigners s) schedule)
      (dualStart H (Library.logged lib) s seed (p.tap [])).2
    (∀ x, Over (txidOf x) (dualSigners s) (q.1.cer x).state (q.1.cer x).round
        (callsOf x q.2.record)) ∧ ∀ k ∈ q.2.record, ∃ x, k.txid = txidOf x := by
  have hinv := startPair_inv H (Library.logged lib) s seed (p.tap [])
  have hleft := startPair_left H (Library.logged lib) s seed (p.tap [])
  have hpair := (dualLoop_eq H (Library.logged lib) maxSteps
    (.initial s.keyId (dualSigners s) schedule) (dualStart H (Library.logged lib) s seed (p.tap [])).2
    (fun x _ => by cases x <;> exact Nat.zero_le 4)).pair
  have hrecord : (dualStart H (Library.logged lib) s seed (p.tap [])).2.record = ([] : List Called) :=
    record_makePlayers H (fun _ => rfl) s.ids _
  have hstart : PairRan (dualSigners s) (startPair H (Library.logged lib) s seed (p.tap [])) := by
    refine ⟨fun x => ?_, fun k hk => ?_⟩
    · show Ran _ _ _ (callsOf x (dualStart H (Library.logged lib) s seed (p.tap [])).2.record)
      rw [hrecord]
      cases x
      · exact ⟨⟨rfl, rfl⟩, .inl ⟨rfl, Nat.zero_le 4, rfl⟩⟩
      · exact ⟨⟨rfl, rfl⟩, .inl ⟨rfl, Nat.zero_le 4, rfl⟩⟩
    · have hk : k ∈ (dualStart H (Library.logged lib) s seed (p.tap [])).2.record := hk
      rw [hrecord] at hk
      cases hk
  have hran : PairRan (dualSigners s) ((ceremonies H (Library.logged lib)).run maxSteps
      (schedule.map turnOf) (startPair H (Library.logged lib) s seed (p.tap []))).2 :=
    Tasks.run_induction hinv (fun x t ht hne => pairRan_step H lib ht hne) hstart
  have hend : ∀ x, (ceremonies H (Library.logged lib)).left x
      ((ceremonies H (Library.logged lib)).run maxSteps (schedule.map turnOf)
        (startPair H (Library.logged lib) s seed (p.tap []))).2 = 0 :=
    Tasks.run_end hinv (by rw [hleft, hleft]; decide)
  have hrun := Tasks.inv_run (n := maxSteps) hinv (schedule.map turnOf)
  intro q
  have hq : q.1.pair q.2 = ((ceremonies H (Library.logged lib)).run maxSteps (schedule.map turnOf)
    (startPair H (Library.logged lib) s seed (p.tap []))).2 := hpair
  rw [← hq] at hran hrun
  refine ⟨fun x => ?_, hran.own⟩
  have hfin : (q.1.cer x).finished = true := by
    have hx := hend x
    rw [← hq] at hx
    rw [← pair_cer q.1 q.2 x]
    exact (left_eq_zero (hrun x)).1 hx
  have hx := hran.ran x
  rw [pair_cer] at hx
  rcases hx.2 with ⟨hf, -⟩ | hover
  · rw [hfin] at hf
    cases hf
  · exact hover

/-- **The dual loop finishes both ceremonies in order.** Whatever the schedule and whatever the
library does, a run that starts takes at most ten turns, as the schedule asks while there is a
choice; it ends with each ceremony over, and the calls of each are its rounds in order, up to
the call of its own that threw. -/
theorem dualRun_ceremonies (A : Algebra) (s : Session) (seed : UInt64) (schedule : List UInt8)
    (p : Proc η) (h : dualGuard s = none) :
    let r := dualRun H (Library.logged lib) A s seed schedule (p.tap [])
    (r.1 = (dualRun H lib A s seed schedule p).1 ∧ r.2.untap = (dualRun H lib A s seed schedule p).2) ∧
      r.1.schedule.length ≤ 10 ∧
      (∀ i (hi : i < r.1.schedule.length),
        r.1.schedule[i] = turnAt schedule i (afterTurns H lib s seed schedule p i)) ∧
      Over (txidOf .a) (dualSigners s) r.1.a.state r.1.a.roundsCompleted (callsOf .a r.2.record) ∧
      Over (txidOf .b) (dualSigners s) r.1.b.state r.1.b.roundsCompleted (callsOf .b r.2.record) ∧
      ∀ k ∈ r.2.record, ∃ x, k.txid = txidOf x := by
  obtain ⟨hresult, hproc⟩ := untaps_dualRun H lib A s seed schedule (p.tap [])
  rw [Proc.untap_tap] at hresult hproc
  obtain ⟨hover, hown⟩ := dualLoop_over H lib s seed schedule p
  have hrun : dualRun H (Library.logged lib) A s seed schedule (p.tap []) =
      ((dualLoop H (Library.logged lib) maxSteps (.initial s.keyId (dualSigners s) schedule)
        (dualStart H (Library.logged lib) s seed (p.tap [])).2).1.result H (Library.logged lib) A s.snap
          ((dualSigners s).headD 0)
          (aggregateKeyStoreDigest H
            (dualStart H (Library.logged lib) s seed (p.tap [])).2.world.keyStores)
          (lib.now p.world.lib))
        (dualLoop H (Library.logged lib) maxSteps (.initial s.keyId (dualSigners s) schedule)
          (dualStart H (Library.logged lib) s seed (p.tap [])).2).2 := by
    unfold dualRun
    rw [bind_run]
    simp only [h]
    rfl
  refine ⟨⟨hresult, hproc⟩, ?_, ?_, ?_⟩
  · rw [hresult]
    exact schedule_length H lib A s seed schedule p h
  · rw [hresult]
    exact schedule_turnAt H lib A s seed schedule p h
  · rw [hrun]
    exact ⟨hover .a, hover .b, hown⟩

theorem dualRun_ceremonies_quiet :
    let r := dualRun Quiet.hashes (Library.logged Quiet.library) Quiet.algebra Quiet.session 1 [1]
      (Quiet.proc.tap [])
    (r.1 = (dualRun Quiet.hashes Quiet.library Quiet.algebra Quiet.session 1 [1] Quiet.proc).1 ∧
        r.2.untap =
          (dualRun Quiet.hashes Quiet.library Quiet.algebra Quiet.session 1 [1] Quiet.proc).2) ∧
      r.1.schedule.length ≤ 10 ∧
      (∀ i (hi : i < r.1.schedule.length), r.1.schedule[i] =
        turnAt [1] i (afterTurns Quiet.hashes Quiet.library Quiet.session 1 [1] Quiet.proc i)) ∧
      Over (txidOf .a) (dualSigners Quiet.session) r.1.a.state r.1.a.roundsCompleted
        (callsOf .a r.2.record) ∧
      Over (txidOf .b) (dualSigners Quiet.session) r.1.b.state r.1.b.roundsCompleted
        (callsOf .b r.2.record) ∧
      ∀ k ∈ r.2.record, ∃ x, k.txid = txidOf x :=
  dualRun_ceremonies Quiet.hashes Quiet.library Quiet.algebra Quiet.session 1 [1] Quiet.proc (by decide)

end MpcHunt.Harness.Dual
