/-
`plan_wave.sh`, the closed wave planner of the workflow. It checks the expiry
of an authorization to be digits and compares it in shell arithmetic, so a
numeral that the shell reads as another number than its decimal value is held
to a window that it is not in.
-/
import MpcHunt.Lib.Checks
import MpcHunt.Lib.ShellNumber
import MpcHunt.Lib.Template
import Mathlib

namespace MpcHunt.Workflow

open Digits Checks ShellNumber

/-! ## The script -/

/-- How it fails: `exit 64`, no `GITHUB_OUTPUT`, or nothing can be appended to it. -/
inductive Failure where
  | exit64
  | outputUnset
  | outputFailed
  deriving DecidableEq

/-- What it finds: the clock, and `GITHUB_OUTPUT`, and whether that can be appended to. -/
structure Env where
  now : Int64
  githubOutput : Option Str
  appends : Bool

/-- `^[0-9]+x[0-9]+x[0-9]+$`. -/
def tuplePieces : List (Piece Nat) :=
  [.group isDigit, .lit (text "x"), .group isDigit, .lit (text "x"), .group isDigit]

def isTuple (s : Str) : Bool := (Template.capture tuplePieces s).isSome

def tuple (count workers seconds : Str) : Str :=
  count ++ text "x" ++ workers ++ text "x" ++ seconds

/-- The tuples that need no authorization. -/
def stageZero : List Str :=
  [text "1x1x300", text "1x1x900", text "1x1x3600", text "1x1x20700",
    text "5x1x300", text "5x1x3600", text "5x1x20700",
    text "15x1x300", text "15x1x3600", text "15x1x20700",
    text "25x1x300", text "25x1x3600", text "25x1x20700"]

/-- The tuples that can be authorized. -/
def scaled : List Str :=
  [text "1x4x300", text "5x4x300", text "5x4x900", text "15x4x900", text "25x4x900",
    text "25x4x7200"]

/-- The check of an authorization. An error of the arithmetic fails. -/
def authorize (now : Int64) (requested approvedTuple approvedUntilEpoch : Str) :
    Except Failure Unit := do
  refuse (¬ (approvedTuple ≠ [] ∧ approvedTuple = requested)) .exit64
  refuse (¬ isNumber approvedUntilEpoch) .exit64
  refuse (¬ (literal approvedUntilEpoch).any (now ≤ ·)) .exit64
  refuse (¬ (literal approvedUntilEpoch).any (· ≤ now + 900)) .exit64

/-- The `case` of the tuple. -/
def checkTuple (now : Int64) (requested approvedTuple approvedUntilEpoch : Str) :
    Except Failure Unit :=
  if stageZero.contains requested then .ok ()
  else if scaled.contains requested then authorize now requested approvedTuple approvedUntilEpoch
  else .error .exit64

def matrix (count : Str) : Option Str :=
  if count = text "1" then some (text "[0]")
  else if count = text "5" then some (text "[0,1,2,3,4]")
  else if count = text "15" then some (text "[0,1,2,3,4,5,6,7,8,9,10,11,12,13,14]")
  else if count = text "25" then
    some (text "[0,1,2,3,4,5,6,7,8,9,10,11,12,13,14,15,16,17,18,19,20,21,22,23,24]")
  else none

/-- The script: what it appends where it exits 0. -/
def planWave (env : Env) (args : List Str) : Except Failure Str :=
  match args with
  | [count, workers, seconds, approvedTuple, approvedUntilEpoch] => do
    refuse (¬ isNumber count) .exit64
    refuse (¬ isNumber workers) .exit64
    refuse (¬ isNumber seconds) .exit64
    refuse (approvedTuple ≠ [] ∧ ¬ isTuple approvedTuple) .exit64
    checkTuple env.now (tuple count workers seconds) approvedTuple approvedUntilEpoch
    let matrix ← need (matrix count) .exit64
    let profile := if (literal workers).any (1 < ·) then text "cloud" else []
    refuse (env.githubOutput.getD [] = []) .outputUnset
    refuse (¬ env.appends) .outputFailed
    return text "count=" ++ count ++ text "\nmatrix=" ++ matrix ++ text "\nseconds=" ++ seconds ++
      text "\nworkers=" ++ workers ++ text "\nprofile=" ++ profile ++ text "\n"
  | _ => .error .exit64

/-! ## Authorizations -/

/-- What an accepted four-worker wave was promised: its own tuple, one of the six, and an expiry
that lies in decimal within the next 900 seconds. -/
structure Authorized (now : Int64) (requested approvedTuple approvedUntilEpoch : Str) : Prop where
  tuple : approvedTuple = requested
  scaled : requested ∈ scaled
  number : isNumber approvedUntilEpoch = true
  window : now.toInt ≤ value approvedUntilEpoch ∧ (value approvedUntilEpoch : Int) ≤ now.toInt + 900

theorem tuple_eq_fill (count workers seconds : Str) :
    tuple count workers seconds = Template.fill tuplePieces [count, workers, seconds] := by
  simp [tuple, tuplePieces, Template.fill]

theorem tuplePieces_separated : Template.Separated tuplePieces := by
  simp [tuplePieces, Template.Separated, Template.Stops, text, isDigit]

theorem capture_tuple {count workers seconds : Str} (hcount : isNumber count = true)
    (hworkers : isNumber workers = true) (hseconds : isNumber seconds = true) :
    Template.capture tuplePieces (tuple count workers seconds) = some [count, workers, seconds] := by
  have hgroup : ∀ {s}, isNumber s = true → s ≠ [] ∧ ∀ d ∈ s, isDigit d = true := by
    intro s hs
    simpa [isNumber, List.all_eq_true] using hs
  rw [tuple_eq_fill]
  exact Template.capture_fill tuplePieces_separated ⟨hgroup hcount, hgroup hworkers, hgroup hseconds, rfl⟩

/-- The tuples that need no authorization have one worker. -/
theorem stageZero_workers :
    ∀ t ∈ stageZero, (Template.capture tuplePieces t).bind (·[1]?) = some (text "1") := by
  decide

theorem authorize_eq_ok {now : Int64} {requested approvedTuple approvedUntilEpoch : Str} {u : Unit} :
    authorize now requested approvedTuple approvedUntilEpoch = .ok u ↔
      approvedTuple ≠ [] ∧ approvedTuple = requested ∧ isNumber approvedUntilEpoch = true ∧
        ∃ v, literal approvedUntilEpoch = some v ∧ now ≤ v ∧ v ≤ now + 900 := by
  simp only [authorize, bind_eq_ok, refuse_eq_ok, not_not, exists_const, Option.any_eq_true,
    decide_eq_true_eq]
  refine ⟨fun h => ?_, fun h => ?_⟩
  · obtain ⟨⟨hne, heq⟩, hnumber, ⟨v, hv, hfrom⟩, v', hv', hto⟩ := h
    obtain rfl := Option.some.inj (hv.symm.trans hv')
    exact ⟨hne, heq, hnumber, v, hv, hfrom, hto⟩
  · obtain ⟨hne, heq, hnumber, v, hv, hfrom, hto⟩ := h
    exact ⟨⟨hne, heq⟩, hnumber, ⟨v, hv, hfrom⟩, v, hv, hto⟩

/-- A wave of four workers goes through the check of its authorization. -/
theorem authorize_of_planWave {env : Env} {count workers seconds approvedTuple : Str}
    {approvedUntilEpoch out : Str}
    (h : planWave env [count, workers, seconds, approvedTuple, approvedUntilEpoch] = .ok out)
    (hworkers : value workers = 4) :
    tuple count workers seconds ∈ scaled ∧ authorize env.now (tuple count workers seconds)
      approvedTuple approvedUntilEpoch = .ok () := by
  obtain ⟨_, hcount, h⟩ := bind_eq_ok.1 h
  obtain ⟨_, hnumber, h⟩ := bind_eq_ok.1 h
  obtain ⟨_, hseconds, h⟩ := bind_eq_ok.1 h
  obtain ⟨_, _, h⟩ := bind_eq_ok.1 h
  obtain ⟨_, hcase, -⟩ := bind_eq_ok.1 h
  have hcapture := capture_tuple (not_not.1 (refuse_eq_ok.1 hcount))
    (not_not.1 (refuse_eq_ok.1 hnumber)) (not_not.1 (refuse_eq_ok.1 hseconds))
  unfold checkTuple at hcase
  by_cases hzero : stageZero.contains (tuple count workers seconds) = true
  · have hone := stageZero_workers _ (List.contains_iff_mem.1 hzero)
    rw [hcapture] at hone
    have hworkers' : workers = text "1" := by simpa using hone
    rw [hworkers'] at hworkers
    exact absurd hworkers (by decide)
  · rw [if_neg hzero] at hcase
    by_cases hscaled : scaled.contains (tuple count workers seconds) = true
    · rw [if_pos hscaled] at hcase
      exact ⟨List.contains_iff_mem.1 hscaled, hcase⟩
    · rw [if_neg hscaled] at hcase
      cases hcase

/-- What is authorized for one shard, four workers and 300 seconds goes through. -/
theorem planWave_of_authorize (env : Env) {approvedUntilEpoch : Str}
    (h : authorize env.now (text "1x4x300") (text "1x4x300") approvedUntilEpoch = .ok ())
    (hset : env.githubOutput.getD [] ≠ []) (happends : env.appends = true) :
    ∃ out, planWave env [text "1", text "4", text "300", text "1x4x300", approvedUntilEpoch] =
      .ok out := by
  have hallowed : checkTuple env.now (text "1x4x300") (text "1x4x300") approvedUntilEpoch = .ok () := by
    rw [checkTuple, if_neg (by decide), if_pos (by decide)]
    exact h
  have htuple : tuple (text "1") (text "4") (text "300") = text "1x4x300" := by decide
  have hnumbers : isNumber (text "1") = true ∧ isNumber (text "4") = true ∧
      isNumber (text "300") = true ∧ isTuple (text "1x4x300") = true := by decide
  have hmatrix : matrix (text "1") = some (text "[0]") := if_pos rfl
  obtain ⟨hcount, hworkers, hseconds, happroved⟩ := hnumbers
  simp only [planWave, htuple, hcount, hworkers, hseconds, happroved, hallowed, hmatrix, hset, happends,
    bind_eq_ok, refuse_eq_ok, need_eq_ok, not_true_eq_false, and_false, not_false_eq_true, exists_const,
    true_and, Option.some.injEq, exists_eq_left']
  exact ⟨_, rfl⟩

/-! ## The window -/

theorem toInt_nine_hundred (now : Int64) :
    (now + 900).toInt ≤ now.toInt + 900 ∧
      (now.toInt + 900 < 2 ^ 63 → (now + 900).toInt = now.toInt + 900) := by
  have hlow := now.le_toInt
  have hhigh := now.toInt_lt
  have hadd : (now + 900).toInt = (now.toInt + 900).bmod (2 ^ 64) := Int64.toInt_add now 900
  rw [hadd]
  unfold Int.bmod
  dsimp only
  split <;> omega

/-- Whatever the shell reads too low is held to a window that is too early. -/
theorem exists_clock {v : Int64} {n : Nat} (h : v.toInt < n) :
    ∃ now : Int64, now ≤ v ∧ v ≤ now + 900 ∧ now.toInt + 900 < n := by
  have hlow := v.le_toInt
  have hhigh := v.toInt_lt
  by_cases hroom : -2 ^ 63 + 900 ≤ v.toInt
  · have hnow : (Int64.ofInt (v.toInt - 900)).toInt = v.toInt - 900 :=
      Int64.toInt_ofInt_of_le (by omega) (by omega)
    refine ⟨Int64.ofInt (v.toInt - 900), ?_, ?_, ?_⟩
    · rw [Int64.le_iff_toInt_le, hnow]
      omega
    · rw [Int64.le_iff_toInt_le, (toInt_nine_hundred _).2 (by omega), hnow]
      omega
    · rw [hnow]
      omega
  · have hnow : (Int64.ofInt (-2 ^ 63)).toInt = -2 ^ 63 :=
      Int64.toInt_ofInt_of_le (by omega) (by omega)
    refine ⟨Int64.ofInt (-2 ^ 63), ?_, ?_, ?_⟩
    · rw [Int64.le_iff_toInt_le, hnow]
      omega
    · rw [Int64.le_iff_toInt_le, (toInt_nine_hundred _).2 (by omega), hnow]
      omega
    · rw [hnow]
      omega

/-- Every wave of four workers is authorized, whatever the other arguments and the clock, just
where the shell does not misread the expiry. -/
theorem scaled_wave_authorized_iff (approvedUntilEpoch : Str) :
    (∀ (env : Env) (count workers seconds approvedTuple out : Str),
      planWave env [count, workers, seconds, approvedTuple, approvedUntilEpoch] = .ok out →
        value workers = 4 →
          Authorized env.now (tuple count workers seconds) approvedTuple approvedUntilEpoch) ↔
      ¬ Misread approvedUntilEpoch := by
  refine ⟨fun hall hmisread => ?_, fun hread env count workers seconds approvedTuple out h h4 => ?_⟩
  · obtain ⟨v, hv⟩ := literal_of_misread hmisread
    obtain ⟨hle, hexact⟩ := literal_le hmisread.1 hv
    have hlt : v.toInt < value approvedUntilEpoch :=
      lt_of_le_of_ne hle fun heq => hexact.1 heq hmisread
    obtain ⟨now, hfrom, hto, hlate⟩ := exists_clock hlt
    obtain ⟨out, hout⟩ := planWave_of_authorize ⟨now, some (text "output"), true⟩
      (authorize_eq_ok.2 ⟨by decide, rfl, hmisread.1, v, hv, hfrom, hto⟩) (by simp [text]) rfl
    have hwindow := (hall _ _ _ _ _ _ hout (by decide)).window
    exact absurd hwindow.2 (not_le.2 hlate)
  · obtain ⟨hscaled, hauthorize⟩ := authorize_of_planWave h h4
    obtain ⟨-, heq, hnumber, v, hv, hfrom, hto⟩ := authorize_eq_ok.1 hauthorize
    have hexact : v.toInt = value approvedUntilEpoch := (literal_le hnumber hv).2.2 hread
    rw [Int64.le_iff_toInt_le, hexact] at hfrom hto
    exact ⟨heq, hscaled, hnumber, hfrom, hto.trans (toInt_nine_hundred env.now).1⟩

/-- The clock itself, written in octal: an expiry some centuries away. -/
theorem scaled_wave_octal :
    ¬ ∀ (env : Env) (count workers seconds approvedTuple approvedUntilEpoch out : Str),
      planWave env [count, workers, seconds, approvedTuple, approvedUntilEpoch] = .ok out →
        value workers = 4 →
          Authorized env.now (tuple count workers seconds) approvedTuple approvedUntilEpoch := by
  intro hall
  have hauthorize : authorize 1760000000 (text "1x4x300") (text "1x4x300") (text "015071674000") = .ok () := by
    decide
  obtain ⟨out, hout⟩ := planWave_of_authorize ⟨1760000000, some (text "output"), true⟩
    hauthorize (by simp [text]) rfl
  have hwindow := (hall _ _ _ _ _ _ _ hout (by decide)).window.2
  exact absurd hwindow (by decide)

end MpcHunt.Workflow
