/-
The counters of `dual_session::run` against the turns it really granted. The
two ceremonies are tasks that take turns (`ceremonies`), the loop of `run` is
their run (`dualLoop_eq`), and its counters are counted of the turns.
-/
import MpcHunt.Harness.FuzzDualSession

namespace MpcHunt.Harness.Dual

open Turns

variable {η : Type} (H : Hashes) (lib : Library η)

/-! ## Steps of a ceremony -/

/-- What a step that is not refused leaves: a round more, or a finished ceremony. -/
structure Stepped (c : Ceremony) (r : Bool × Ceremony) : Prop where
  advanced : r.1 = true → r.2.round = c.round + 1 ∧ (r.2.finished = true ↔ c.round = 4)
  refused : r.1 = false → r.2.finished = true

theorem reject_finished (c : Ceremony) (o : CallOutcome) (round : Nat) :
    (c.reject o round).finished = true := by
  unfold Ceremony.reject Ceremony.finished
  cases o.fatal <;> rfl

theorem stepped_reject (c c' : Ceremony) (o : CallOutcome) (round : Nat) :
    Stepped c (false, c'.reject o round) :=
  ⟨fun h => absurd h (by simp), fun _ => reject_finished c' o round⟩

theorem bind_run {α β : Type} (x : Run η α) (f : α → Run η β) (p : Proc η) :
    (x >>= f) p = f (x p).1 (x p).2 := rfl

theorem stepped_endRound {c c' : Ceremony} {k : Nat} (hround : c.round + 1 = k) (hk : k ≤ 4)
    (hstate : c'.state = .running) (o : Option CallOutcome) : Stepped c (c'.endRound k o) := by
  cases o with
  | some o => exact stepped_reject c c' o k
  | none =>
    refine ⟨fun _ => ⟨hround.symm, ?_⟩, fun h => nomatch (h : true = false)⟩
    show (c'.state ≠ .pending && c'.state ≠ .running) = true ↔ _
    rw [hstate]
    simp only [ne_eq, not_true_eq_false, decide_false, Bool.and_false, Bool.false_eq_true,
      false_iff]
    omega

/-- A step of an unfinished ceremony completes its next round, the fifth of which
finishes it, or is refused, and finishes it. -/
theorem step_spec {c : Ceremony} (h : c.finished = false) (hr : c.round ≤ 4) (p : Proc η) :
    Stepped c (c.step H lib p).1 := by
  unfold Ceremony.step
  rw [if_neg (by rw [h]; decide)]
  have hcases : c.round = 0 ∨ c.round = 1 ∨ c.round = 2 ∨ c.round = 3 ∨ c.round = 4 := by omega
  rcases hcases with h0 | h0 | h0 | h0 | h0
  · simp only [h0]
    exact stepped_endRound (by omega) (by decide) rfl _
  · simp only [h0]
    exact stepped_endRound (by omega) (by decide) rfl _
  · simp only [h0]
    exact stepped_endRound (by omega) (by decide) rfl _
  · simp only [h0]
    exact stepped_endRound (by omega) (by decide) rfl _
  · simp only [h0]
    unfold Ceremony.round5
    rw [bind_run]
    obtain ⟨o, p'⟩ := invoke H (lib.getCmpSignature _ _ _) p
    cases o with
    | error e => exact stepped_reject c _ _ 5
    | ok sigs =>
      refine ⟨fun _ => ⟨?_, fun _ => h0, fun _ => rfl⟩, fun h => nomatch (h : true = false)⟩
      show 5 = c.round + 1
      rw [h0]

theorem step_finished {c : Ceremony} (h : c.finished = true) (p : Proc η) :
    c.step H lib p = ((false, c), p) := by
  unfold Ceremony.step
  rw [if_pos h]
  rfl

/-! ## The ceremonies as tasks -/

/-- The rounds a ceremony has left. -/
def Ceremony.left (c : Ceremony) : Nat := if c.finished then 0 else 5 - c.round

/-- The two ceremonies and the process they run in. -/
structure Pair (η : Type) where
  a : Ceremony
  b : Ceremony
  proc : Proc η

def Pair.cer (s : Pair η) : Side → Ceremony
  | .a => s.a
  | .b => s.b

def Pair.set (s : Pair η) (x : Side) (c : Ceremony) (proc : Proc η) : Pair η :=
  match x with
  | .a => { s with a := c, proc }
  | .b => { s with b := c, proc }

@[simp] theorem cer_set_self (s : Pair η) (x : Side) (c : Ceremony) (p : Proc η) :
    (s.set x c p).cer x = c := by cases x <;> rfl

theorem cer_set_other {x y : Side} (h : y ≠ x) (s : Pair η) (c : Ceremony) (p : Proc η) :
    (s.set x c p).cer y = s.cer y := by
  cases x <;> cases y <;> first | exact absurd rfl h | rfl

@[simp] theorem proc_set (s : Pair η) (x : Side) (c : Ceremony) (p : Proc η) :
    (s.set x c p).proc = p := by cases x <;> rfl

theorem set_cer (s : Pair η) (x : Side) : s.set x (s.cer x) s.proc = s := by cases x <;> rfl

/-- One step of one ceremony. -/
def Pair.step (s : Pair η) (x : Side) : Bool × Pair η :=
  let r := (s.cer x).step H lib s.proc
  (r.1.1, s.set x r.1.2 r.2)

/-- An unfinished ceremony has a round to go. -/
def Ceremony.Ok (c : Ceremony) : Prop := c.finished = false → c.round ≤ 4

theorem left_eq_zero {c : Ceremony} (h : c.Ok) : c.left = 0 ↔ c.finished = true := by
  unfold Ceremony.left
  cases hf : c.finished with
  | true => simp
  | false =>
    have := h hf
    simp only [Bool.false_eq_true, if_false, iff_false]
    omega

theorem ok_step {c : Ceremony} (h : c.Ok) (p : Proc η) : (c.step H lib p).1.2.Ok := by
  cases hf : c.finished with
  | true => rw [step_finished H lib hf]; exact h
  | false =>
    have hs := step_spec H lib hf (h hf) p
    intro hf'
    cases hok : (c.step H lib p).1.1 with
    | false =>
      rw [hs.refused hok] at hf'
      cases hf'
    | true =>
      obtain ⟨hround, hfin⟩ := hs.advanced hok
      have hne : c.round ≠ 4 := fun h4 => by rw [hfin.2 h4] at hf'; cases hf'
      have := h hf
      omega

theorem left_advance {c : Ceremony} (h : c.Ok) (p : Proc η) (hok : (c.step H lib p).1.1 = true) :
    (c.step H lib p).1.2.left + 1 = c.left := by
  cases hf : c.finished with
  | true =>
    rw [step_finished H lib hf] at hok
    cases hok
  | false =>
    obtain ⟨hround, hfin⟩ := (step_spec H lib hf (h hf) p).advanced hok
    have := h hf
    unfold Ceremony.left
    rw [hf, hround]
    by_cases h4 : c.round = 4
    · rw [hfin.2 h4, h4]
      rfl
    · have hf' : (c.step H lib p).1.2.finished = false := by
        rw [← Bool.not_eq_true, hfin]
        exact h4
      rw [hf']
      simp only [Bool.false_eq_true, if_false]
      omega

theorem left_stop {c : Ceremony} (h : c.Ok) (p : Proc η) (hok : (c.step H lib p).1.1 = false) :
    (c.step H lib p).1.2.left = 0 := by
  rw [left_eq_zero (ok_step H lib h p)]
  cases hf : c.finished with
  | true => rw [step_finished H lib hf]; exact hf
  | false => exact (step_spec H lib hf (h hf) p).refused hok

/-- The two ceremonies take turns. -/
def ceremonies : Tasks (Pair η) where
  step x s := s.step H lib x
  left x s := (s.cer x).left
  Inv s := ∀ x, (s.cer x).Ok
  inv_step {x s} h y := by
    show ((s.set x _ _).cer y).Ok
    by_cases hy : y = x
    · subst hy
      rw [cer_set_self]
      exact ok_step H lib (h y) _
    · rw [cer_set_other hy]
      exact h y
  step_done {x s} h hx := by
    unfold Pair.step
    rw [step_finished H lib ((left_eq_zero (h x)).1 hx)]
    exact congrArg (Prod.mk false) (set_cer s x)
  left_advance {x s} h hok := by
    show ((s.set x _ _).cer x).left + 1 = _
    rw [cer_set_self]
    exact left_advance H lib (h x) _ hok
  left_stop {x s} h hok := by
    show ((s.set x _ _).cer x).left = 0
    rw [cer_set_self]
    exact left_stop H lib (h x) _ hok
  left_other {x y s} _ hne := by
    show ((s.set x _ _).cer y).left = _
    rw [cer_set_other hne]

/-! ## The loop is their run -/

/-- The ceremonies of the loop, and the process. -/
def DualLoop.pair (l : DualLoop) (p : Proc η) : Pair η := ⟨l.a, l.b, p⟩

theorem pair_cer (l : DualLoop) (p : Proc η) (x : Side) : (l.pair p).cer x = l.cer x := by
  cases x <;> rfl

/-- What one granted turn does to the counters, the ceremonies and the process. -/
structure Granted (l : DualLoop) (p : Proc η) (x : Side) (rest : List UInt8)
    (r : DualLoop × Proc η) : Prop where
  pair : r.1.pair r.2 = ((l.pair p).step H lib x).2
  rest : r.1.rest = rest
  lastTurn : r.1.lastTurn = some x
  crossed : r.1.crossed = (l.crossed || (l.lastTurn ≠ none ∧ l.lastTurn ≠ some x : Bool))
  schedule : r.1.schedule = l.schedule ++ [x]
  interleavePoints : r.1.interleavePoints =
    l.interleavePoints + (if l.lastTurn ≠ none ∧ l.lastTurn ≠ some x then 1 else 0)
  advanced : r.1.advancedPastInjection = l.advancedPastInjection +
    (if ((l.pair p).step H lib x).1 && r.1.crossed then 1 else 0)

theorem cross_fields (l : DualLoop) (x : Side) (rest : List UInt8) :
    (l.cross x rest).a = l.a ∧ (l.cross x rest).b = l.b ∧ (l.cross x rest).rest = rest ∧
      (l.cross x rest).lastTurn = some x ∧
      (l.cross x rest).crossed = (l.crossed || (l.lastTurn ≠ none ∧ l.lastTurn ≠ some x : Bool)) ∧
      (l.cross x rest).schedule = l.schedule ∧
      (l.cross x rest).advancedPastInjection = l.advancedPastInjection ∧
      (l.cross x rest).interleavePoints =
        l.interleavePoints + (if l.lastTurn ≠ none ∧ l.lastTurn ≠ some x then 1 else 0) := by
  unfold DualLoop.cross
  by_cases h : l.lastTurn ≠ none ∧ l.lastTurn ≠ some x
  · simp [h]
  · simp [h]

theorem granted (l : DualLoop) (p : Proc η) (x : Side) (rest : List UInt8) :
    Granted H lib l p x rest (l.grant H lib x rest p) := by
  obtain ⟨ha, hb, hrest, hlast, hcrossed, hsched, hadv, hpoints⟩ := cross_fields l x rest
  unfold DualLoop.grant
  generalize l.cross x rest = l' at *
  cases x with
  | a =>
    refine ⟨?_, hrest, hlast, hcrossed, ?_, hpoints, ?_⟩
    · show (⟨(l'.a.step H lib p).1.2, l'.b, (l'.a.step H lib p).2⟩ : Pair η) = _
      rw [ha, hb]
      rfl
    · show l'.schedule ++ [.a] = _
      rw [hsched]
    · show (if (l'.a.step H lib p).1.1 && l'.crossed then l'.advancedPastInjection + 1
        else l'.advancedPastInjection) = _ + (if (l.a.step H lib p).1.1 && l'.crossed then 1 else 0)
      rw [ha, hadv]
      split <;> rfl
  | b =>
    refine ⟨?_, hrest, hlast, hcrossed, ?_, hpoints, ?_⟩
    · show (⟨l'.a, (l'.b.step H lib p).1.2, (l'.b.step H lib p).2⟩ : Pair η) = _
      rw [ha, hb]
      rfl
    · show l'.schedule ++ [.b] = _
      rw [hsched]
    · show (if (l'.b.step H lib p).1.1 && l'.crossed then l'.advancedPastInjection + 1
        else l'.advancedPastInjection) = _ + (if (l.b.step H lib p).1.1 && l'.crossed then 1 else 0)
      rw [hb, hadv]
      split <;> rfl

/-- The turn the loop grants is the turn of the tasks. -/
theorem nextTurn_eq (l : DualLoop) (p : Proc η) (h : ∀ x, (l.cer x).Ok) :
    l.nextTurn.1 = ((ceremonies H lib).next (l.pair p) (l.rest.map turnOf)).1 ∧
      l.nextTurn.2.map turnOf = ((ceremonies H lib).next (l.pair p) (l.rest.map turnOf)).2 := by
  have hleft : ∀ x, (ceremonies H lib).left x (l.pair p) = 0 ↔ (l.cer x).finished = true :=
    fun x => by
      show ((l.pair p).cer x).left = 0 ↔ _
      rw [pair_cer, left_eq_zero (h x)]
  unfold DualLoop.nextTurn Tasks.next
  cases l.rest with
  | nil =>
    refine ⟨?_, rfl⟩
    show (if l.a.finished then Side.b else Side.a) = if _ then _ else _
    simp only [hleft]
    rfl
  | cons byte rest =>
    refine ⟨?_, rfl⟩
    show (if (l.cer (turnOf byte)).finished then _ else _) = if _ then _ else _
    simp only [hleft]

/-- What the loop leaves: the run of the tasks, and its counters. -/
structure Looped (T : Tasks (Pair η)) (n : Nat) (l : DualLoop) (p : Proc η)
    (r : DualLoop × Proc η) : Prop where
  pair : r.1.pair r.2 = (T.run n (l.rest.map turnOf) (l.pair p)).2
  schedule : r.1.schedule = l.schedule ++ T.turns n (l.rest.map turnOf) (l.pair p)
  interleavePoints : r.1.interleavePoints = l.interleavePoints +
    changes l.lastTurn (T.turns n (l.rest.map turnOf) (l.pair p))
  advanced : r.1.advancedPastInjection = l.advancedPastInjection +
    advances l.lastTurn l.crossed (T.run n (l.rest.map turnOf) (l.pair p)).1

/-- The loop of `run` is the run of the ceremonies as tasks. -/
theorem dualLoop_eq (n : Nat) (l : DualLoop) (p : Proc η) (h : ∀ x, (l.cer x).Ok) :
    Looped (ceremonies H lib) n l p (dualLoop H lib n l p) := by
  induction n generalizing l p with
  | zero => exact ⟨rfl, (List.append_nil _).symm, rfl, rfl⟩
  | succ n ih =>
    obtain ⟨hturn, hrest⟩ := nextTurn_eq H lib l p h
    have hleft : ∀ x, (ceremonies H lib).left x (l.pair p) = 0 ↔ (l.cer x).finished = true :=
      fun x => by
        show ((l.pair p).cer x).left = 0 ↔ _
        rw [pair_cer, left_eq_zero (h x)]
    by_cases hd : (ceremonies H lib).left
        ((ceremonies H lib).next (l.pair p) (l.rest.map turnOf)).1 (l.pair p) = 0
    · have hboth := (Tasks.next_done _).1 hd
      have hfin : l.a.finished ∧ l.b.finished := ⟨(hleft .a).1 hboth.1, (hleft .b).1 hboth.2⟩
      have hrun : (ceremonies H lib).run (n + 1) (l.rest.map turnOf) (l.pair p) =
          ([], l.pair p) := by rw [Tasks.run, if_pos hd]
      unfold dualLoop
      rw [if_pos hfin]
      refine ⟨?_, ?_, ?_, ?_⟩
      · rw [hrun]
        rfl
      · unfold Tasks.turns
        rw [hrun]
        exact (List.append_nil _).symm
      · unfold Tasks.turns
        rw [hrun]
        rfl
      · rw [hrun]
        rfl
    · have hnot : ¬ (l.a.finished ∧ l.b.finished) := fun hfin =>
        hd ((Tasks.next_done _).2 ⟨(hleft .a).2 hfin.1, (hleft .b).2 hfin.2⟩)
      have hunfinished : ¬ (l.cer l.nextTurn.1).finished = true := fun hfin =>
        hd (by rw [← hturn]; exact (hleft _).2 hfin)
      have hstep : dualLoop H lib (n + 1) l p =
          dualLoop H lib n (l.grant H lib l.nextTurn.1 l.nextTurn.2 p).1
            (l.grant H lib l.nextTurn.1 l.nextTurn.2 p).2 := by
        unfold dualLoop
        rw [if_neg hnot, if_neg hunfinished]
        cases n <;> rfl
      have g := granted H lib l p l.nextTurn.1 l.nextTurn.2
      rw [hstep]
      generalize l.grant H lib l.nextTurn.1 l.nextTurn.2 p = r at g
      have hok : ∀ x, (r.1.cer x).Ok := fun x => by
        rw [← pair_cer r.1 r.2, g.pair]
        exact (ceremonies H lib).inv_step (s := l.pair p)
          (fun y => by rw [pair_cer]; exact h y) x
      obtain ⟨ihPair, ihSchedule, ihPoints, ihAdvanced⟩ := ih r.1 r.2 hok
      rw [g.rest, hrest, g.pair, hturn] at ihPair ihSchedule ihPoints ihAdvanced
      refine ⟨?_, ?_, ?_, ?_⟩
      · rw [Tasks.run_succ hd]
        exact ihPair
      · rw [ihSchedule, g.schedule, List.append_assoc, hturn]
        unfold Tasks.turns
        rw [Tasks.run_succ hd]
        rfl
      · rw [ihPoints, g.interleavePoints, g.lastTurn, hturn]
        unfold Tasks.turns
        rw [Tasks.run_succ hd, List.map_cons, changes, Nat.add_assoc]
        rfl
      · rw [ihAdvanced, g.advanced, g.lastTurn, hturn, Tasks.run_succ hd, advances, g.crossed,
          hturn, Nat.add_assoc]
        rfl

/-! ## What `run` counts -/

/-- What the harness promises of a result: it is applied exactly when the turns granted
interleave, and turns that do not are the cell `sequential` and not applied. -/
def CountsInterleaving (r : DualResult) : Prop :=
  (r.applied = true ↔ Interleaves r.schedule) ∧
    (¬ Interleaves r.schedule → r.cell = "dual.schedule|sequential" ∧ r.applied = false)

/-- The ceremonies when the loop starts. -/
def startPair (s : Session) (seed : UInt64) (p : Proc η) : Pair η :=
  ⟨.make .a s.keyId (dualSigners s) dualPath, .make .b s.keyId (dualSigners s) dualPath,
    (dualStart H lib s seed p).2⟩

theorem startPair_inv (s : Session) (seed : UInt64) (p : Proc η) :
    (ceremonies H lib).Inv (startPair H lib s seed p) := by
  intro x _
  cases x <;> exact Nat.zero_le 4

theorem startPair_left (s : Session) (seed : UInt64) (p : Proc η) (x : Side) :
    (ceremonies H lib).left x (startPair H lib s seed p) = 5 := by
  cases x <;> rfl

section
variable (A : Algebra) (s : Session) (seed : UInt64) (schedule : List UInt8) (p : Proc η)

/-- A run that starts reports the turns of the ceremonies as tasks, and what is counted
of them. -/
theorem dualRun_counts (h : dualGuard s = none) :
    let r := (dualRun H lib A s seed schedule p).1
    let T := ceremonies H lib
    let start := startPair H lib s seed p
    r.schedule = T.turns maxSteps (schedule.map turnOf) start ∧
      r.interleavePoints = changes none (T.turns maxSteps (schedule.map turnOf) start) ∧
      r.advancedPastInjection = advances none false (T.run maxSteps (schedule.map turnOf) start).1 := by
  obtain ⟨-, hsched, hpoints, hadv⟩ := dualLoop_eq H lib maxSteps
    (.initial s.keyId (dualSigners s) schedule) (dualStart H lib s seed p).2
    (fun x _ => by cases x <;> exact Nat.zero_le 4)
  unfold dualRun
  rw [bind_run]
  simp only [h]
  exact ⟨hsched.trans (List.nil_append _), hpoints.trans (Nat.zero_add _),
    hadv.trans (Nat.zero_add _)⟩

/-- Both ceremonies take a step, so the turn changes and no run that starts is in the
cell `sequential`. -/
theorem cell_ne_sequential (h : dualGuard s = none) :
    (dualRun H lib A s seed schedule p).1.cell ≠ "dual.schedule|sequential" := by
  obtain ⟨-, hpoints, -⟩ := dualRun_counts H lib A s seed schedule p h
  have hinv := startPair_inv H lib s seed p
  have hleft := startPair_left H lib s seed p
  have hmem : ∀ x, x ∈ (ceremonies H lib).turns maxSteps (schedule.map turnOf)
      (startPair H lib s seed p) := fun x =>
    Tasks.mem_turns hinv (by rw [hleft, hleft]; decide) (by rw [hleft]; decide)
  have hpos := changes_pos (hmem .a) (hmem .b)
  rw [← hpoints] at hpos
  unfold DualResult.cell scheduleCell
  rw [if_neg (Nat.ne_of_gt hpos)]
  split <;> decide

theorem interleaves_run_iff (h : dualGuard s = none) :
    Interleaves (dualRun H lib A s seed schedule p).1.schedule ↔
      (ceremonies H lib).Cut (schedule.map turnOf) (startPair H lib s seed p) := by
  obtain ⟨hsched, -, -⟩ := dualRun_counts H lib A s seed schedule p h
  have hleft := startPair_left H lib s seed p
  rw [hsched]
  exact Tasks.interleaves_iff (startPair_inv H lib s seed p)
    (fun x => by rw [hleft]; decide) (by rw [hleft, hleft]; decide)

theorem applied_run_iff (h : dualGuard s = none)
    (hcut : (ceremonies H lib).Cut (schedule.map turnOf) (startPair H lib s seed p)) :
    (dualRun H lib A s seed schedule p).1.applied = true ↔
      ¬ (ceremonies H lib).Stuck (schedule.map turnOf) (startPair H lib s seed p) := by
  obtain ⟨-, -, hadv⟩ := dualRun_counts H lib A s seed schedule p h
  have hleft := startPair_left H lib s seed p
  unfold DualResult.applied
  rw [decide_eq_true_iff, hadv]
  exact Tasks.advances_iff (startPair_inv H lib s seed p)
    (fun x => by rw [hleft]; decide) (by rw [hleft, hleft]; decide) hcut

/-- A schedule that lets one ceremony go entirely first is miscounted. -/
theorem not_counts_of_not_cut (h : dualGuard s = none)
    (hcut : ¬ (ceremonies H lib).Cut (schedule.map turnOf) (startPair H lib s seed p)) :
    ¬ CountsInterleaving (dualRun H lib A s seed schedule p).1 := by
  intro hcounts
  have hno : ¬ Interleaves (dualRun H lib A s seed schedule p).1.schedule := fun hi =>
    hcut ((interleaves_run_iff H lib A s seed schedule p h).1 hi)
  exact cell_ne_sequential H lib A s seed schedule p h (hcounts.2 hno).1

theorem counts_of_guard {detail : Bytes} (h : dualGuard s = some detail) :
    CountsInterleaving (dualRun H lib A s seed schedule p).1 := by
  have hr : (dualRun H lib A s seed schedule p).1 = .fault detail := by
    unfold dualRun
    rw [bind_run]
    simp only [h]
    rfl
  have hno : ¬ Interleaves ([] : List Side) := fun ⟨x, hx⟩ => by simp at hx
  rw [hr]
  exact ⟨⟨fun h => (nomatch (h : false = true)), fun hi => absurd hi hno⟩, fun _ => ⟨rfl, rfl⟩⟩

/-- **When the dual harness counts a case as interleaved exactly when it is.** It does when
it refuses to run, or when the ceremony with the first turn is cut by the other and the two
steps at the cut are not both refused. -/
theorem countsInterleaving_iff :
    CountsInterleaving (dualRun H lib A s seed schedule p).1 ↔
      dualGuard s ≠ none ∨
        (ceremonies H lib).Cut (schedule.map turnOf) (startPair H lib s seed p) ∧
          ¬ (ceremonies H lib).Stuck (schedule.map turnOf) (startPair H lib s seed p) := by
  cases h : dualGuard s with
  | some detail =>
    exact ⟨fun _ => .inl (by simp), fun _ => counts_of_guard H lib A s seed schedule p h⟩
  | none =>
    by_cases hcut : (ceremonies H lib).Cut (schedule.map turnOf) (startPair H lib s seed p)
    · have hi := (interleaves_run_iff H lib A s seed schedule p h).2 hcut
      have happlied := applied_run_iff H lib A s seed schedule p h hcut
      unfold CountsInterleaving
      rw [happlied]
      constructor
      · intro hc
        exact .inr ⟨hcut, hc.1.2 hi⟩
      · intro hc
        have hstuck := (hc.resolve_left (not_not.2 rfl)).2
        exact ⟨⟨fun _ => hi, fun _ => hstuck⟩, fun hno => absurd hi hno⟩
    · refine ⟨fun hc => ?_, fun hc => ?_⟩
      · exact absurd hc (not_counts_of_not_cut H lib A s seed schedule p h hcut)
      · exact absurd (hc.resolve_left (not_not.2 rfl)).1 hcut

end

/-! ## A session in which nothing goes wrong -/

namespace Quiet

/-- A library whose calls all return at once. -/
def library : Library Unit where
  maxBlocksToSign := 5
  makeService _ w := .done w
  startSigning _ _ _ _ _ _ _ _ w := .done (.ok [], w)
  mtaResponse _ _ _ w := .done (.ok ⟨Vector.replicate 32 0, []⟩, w)
  mtaVerify _ _ _ w := .done (.ok [], w)
  getSi _ _ _ w := .done (.ok [], w)
  getCmpSignature _ _ _ w := .done (.ok [⟨Vector.replicate 32 1, Vector.replicate 32 1⟩], w)
  now _ := 0

def hashes : Hashes := ⟨fun _ => Vector.replicate 32 0, fun _ => Vector.replicate 64 0⟩

def algebra : Algebra := ⟨fun _ => some .secp256k1, fun _ _ _ _ => .error 1, fun _ _ _ _ _ => 1⟩

def player (id : UInt64) : SnapshotPlayer := ⟨id, [], [], [], [], [], []⟩

def session : Session := ⟨true, str "opus-key", ⟨0, [], [], 2, 2, [player 1, player 2]⟩, [1, 2]⟩

def proc : Proc Unit := ⟨⟨(), ∅, ∅⟩, .initial true fun _ => 0⟩

end Quiet

/-- The schedule of one zero byte: `a` runs entirely before `b`, and the case is counted
as applied in the cell `blocked`. -/
theorem oneByte_miscounted :
    let r := (dualRun Quiet.hashes Quiet.library Quiet.algebra Quiet.session 1 [0] Quiet.proc).1
    r.schedule = [.a, .a, .a, .a, .a, .b, .b, .b, .b, .b] ∧ r.applied = true ∧
      r.cell = "dual.schedule|blocked" ∧ ¬ CountsInterleaving r := by
  refine ⟨by decide +kernel, by decide +kernel, by decide +kernel, ?_⟩
  exact not_counts_of_not_cut _ _ _ _ _ _ _ (by decide) fun h => h.2.elim (by decide) (by decide)

end MpcHunt.Harness.Dual
