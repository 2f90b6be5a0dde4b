/-
The paths of the brain (`brain_paths.sh`): the generators of branches,
incidents, telemetry documents and corpus units, and the parsers. Each parser
accepts exactly what its generator writes, and gives back the tuple it was
written from; no path is of two kinds.
-/
import MpcHunt.Lib.Checks
import MpcHunt.Lib.Digits
import MpcHunt.Lib.Regex
import MpcHunt.Lib.Template
import MpcHunt.Window.PoolGate

namespace MpcHunt.Brain

open Checks Digits Template MaterializeWindow

/-! ## Checks -/

/-- `^(0|[1-9][0-9]*)$`. -/
def uintRe : Re Nat := .alt (.lit (text "0")) (.seq (.cls fun c => 49 ≤ c && c ≤ 57)
  (.rep (.cls isDigit) 0 none))

/-- `_brain_is_uint`. -/
def brainIsUint (s : Str) : Bool := uintRe.fullmatch s

/-- `_brain_is_harness`. -/
def brainIsHarness (candidate : Str) : Bool := brainHarnesses.any fun known => candidate = text known

/-- What a branch, an incident or a telemetry document is named by. -/
structure Tuple where
  runId : Str
  attempt : Str
  harness : Str
  shard : Str
deriving DecidableEq, Repr

/-- What the parsers print: `'%s %s %s %s\n'`. -/
def Tuple.line (t : Tuple) : Str :=
  t.runId ++ text " " ++ t.attempt ++ text " " ++ t.harness ++ text " " ++ t.shard ++ text "\n"

/-- The four checks every generator and every parser makes. -/
def checkTuple (t : Tuple) : Except Nat Unit := do
  refuse (¬ brainIsUint t.runId) 64
  refuse (¬ brainIsUint t.attempt) 64
  refuse (¬ brainIsUint t.shard) 64
  refuse (¬ brainIsHarness t.harness) 64

section
variable (checkRefFormat : Str → Bool)

/-! ## Branches -/

/-- `ingest/run-${run_id}/attempt-${attempt}/${harness}/shard-${shard}`. -/
def branchPath (t : Tuple) : Str :=
  text "ingest/run-" ++ t.runId ++ text "/attempt-" ++ t.attempt ++ text "/" ++ t.harness ++
    text "/shard-" ++ t.shard

def branchFor (t : Tuple) : Except Nat Str := do
  checkTuple t
  refuse (¬ checkRefFormat (text "refs/heads/" ++ branchPath t)) 64
  return branchPath t

/-- What both parsers of branches refuse first. -/
def checkBranch (branch : Str) : Except Nat Unit := do
  refuse (10 ∈ branch) 64
  refuse (32 ∈ branch) 64
  refuse (text ".." <:+: branch) 64
  refuse (¬ checkRefFormat (text "refs/heads/" ++ branch)) 64

/-- `[a-z0-9_]`. -/
def isWord (c : Nat) : Bool := (97 ≤ c && c ≤ 122) || isDigit c || c = 95

/-- `^ingest/run-([0-9]+)/attempt-([0-9]+)/([a-z0-9_]+)/shard-([0-9]+)$`. -/
def branchPattern : List (Piece Nat) :=
  [.lit (text "ingest/run-"), .group isDigit, .lit (text "/attempt-"), .group isDigit,
    .lit (text "/"), .group isWord, .lit (text "/shard-"), .group isDigit]

def parseBranch (branch : Str) : Except Nat Tuple := do
  checkBranch checkRefFormat branch
  match capture branchPattern branch with
  | some [runId, attempt, harness, shard] =>
    checkTuple ⟨runId, attempt, harness, shard⟩
    return ⟨runId, attempt, harness, shard⟩
  | _ => .error 64

/-- `^ingest/run-([0-9]+)/attempt-([0-9]+)/shard-([0-9]+)$`. -/
def legacyPattern : List (Piece Nat) :=
  [.lit (text "ingest/run-"), .group isDigit, .lit (text "/attempt-"), .group isDigit,
    .lit (text "/shard-"), .group isDigit]

def parseBranchLegacy (branch : Str) : Except Nat Tuple := do
  checkBranch checkRefFormat branch
  match capture legacyPattern branch with
  | some [runId, attempt, shard] =>
    refuse (¬ brainIsUint runId) 64
    refuse (¬ brainIsUint attempt) 64
    refuse (¬ brainIsUint shard) 64
    return ⟨runId, attempt, text "cmp_ecdsa_online", shard⟩
  | _ => .error 64

end

/-! ## Files -/

/-- `^[0-9a-f]{40}$`. -/
def unitRe : Re Nat := .times (.cls fun c => isDigit c || (97 ≤ c && c ≤ 102)) 40

def corpusUnitFor (harness name : Str) : Except Nat Str := do
  refuse (¬ brainIsHarness harness) 64
  refuse (¬ unitRe.fullmatch name) 64
  return text "corpus/" ++ harness ++ text "/" ++ name

def incidentFor (t : Tuple) : Except Nat Str := do
  checkTuple t
  return text "incidents/run-" ++ t.runId ++ text "/" ++ t.harness ++ text "-attempt-" ++
    t.attempt ++ text "-shard-" ++ t.shard ++ text ".gpg"

def telemetryFor (t : Tuple) : Except Nat Str := do
  checkTuple t
  return text "telemetry/run-" ++ t.runId ++ text "/" ++ t.harness ++ text "-attempt-" ++
    t.attempt ++ text "-shard-" ++ t.shard ++ text ".json"

/-- `^telemetry/run-([0-9]+)/([a-z0-9_]+)-attempt-([0-9]+)-shard-([0-9]+)\.json$`. -/
def telemetryPattern : List (Piece Nat) :=
  [.lit (text "telemetry/run-"), .group isDigit, .lit (text "/"), .group isWord,
    .lit (text "-attempt-"), .group isDigit, .lit (text "-shard-"), .group isDigit,
    .lit (text ".json")]

/-- `^incidents/run-([0-9]+)/([a-z0-9_]+)-attempt-([0-9]+)-shard-([0-9]+)\.gpg$`. -/
def incidentPattern : List (Piece Nat) :=
  [.lit (text "incidents/run-"), .group isDigit, .lit (text "/"), .group isWord,
    .lit (text "-attempt-"), .group isDigit, .lit (text "-shard-"), .group isDigit,
    .lit (text ".gpg")]

/-- The parser of a file's path, with the harness before the attempt. -/
def parseFile (pattern : List (Piece Nat)) (path : Str) : Except Nat Tuple :=
  match capture pattern path with
  | some [runId, harness, attempt, shard] => do
    checkTuple ⟨runId, attempt, harness, shard⟩
    return ⟨runId, attempt, harness, shard⟩
  | _ => .error 64

def parseTelemetry : Str → Except Nat Tuple := parseFile telemetryPattern

def parseIncident : Str → Except Nat Tuple := parseFile incidentPattern

/-! ## What the checks accept -/

theorem brainIsUint_iff {s : Str} : brainIsUint s = true ↔ Canonical s := by
  unfold brainIsUint
  rw [Re.fullmatch_iff]
  constructor
  · intro h
    rcases (Re.mem_lang_alt _ _ _).1 h with h | h
    · rw [(Re.mem_lang_lit _ _).1 h]
      decide
    · obtain ⟨u, hu, v, hv, rfl⟩ := (Re.mem_lang_seq _ _ _).1 h
      obtain ⟨c, hc, rfl⟩ := hu
      have hdigits : ∀ d ∈ v, isDigit d = true :=
        Re.forall_of_within (show Re.Within _ (.rep (.cls isDigit) 0 none) from fun _ hd => hd) hv
      simp only [Bool.and_eq_true, decide_eq_true_eq] at hc
      refine ⟨List.forall_mem_cons.2 ⟨?_, hdigits⟩, List.cons_ne_nil c v, fun h48 => ?_⟩
      · simp only [isDigit, Bool.and_eq_true, decide_eq_true_eq]
        omega
      · have : c = 48 := by simpa using h48
        omega
  · intro h
    obtain ⟨hdigits, hne, hzero⟩ := h
    cases s with
    | nil => exact absurd rfl hne
    | cons c v =>
      obtain ⟨hc, hv⟩ := List.forall_mem_cons.1 hdigits
      refine (Re.mem_lang_alt _ _ _).2 ?_
      by_cases h48 : c = 48
      · exact .inl ((Re.mem_lang_lit _ _).2 (hzero (by simp [h48])))
      · simp only [isDigit, Bool.and_eq_true, decide_eq_true_eq] at hc
        refine .inr ((Re.mem_lang_seq _ _ _).2 ⟨[c], ⟨c, ?_, rfl⟩, v, ?_, rfl⟩)
        · simp only [Bool.and_eq_true, decide_eq_true_eq]
          omega
        · exact ⟨v.length, ⟨Nat.zero_le _, fun m hm => by cases hm⟩, Re.mem_pow_cls hv⟩

theorem brainIsHarness_iff {s : Str} :
    brainIsHarness s = true ↔ ∃ known ∈ brainHarnesses, s = text known := by
  simp [brainIsHarness]

/-- Canonical numbers, and a harness of the list. -/
structure Tuple.Valid (t : Tuple) : Prop where
  runId : Canonical t.runId
  attempt : Canonical t.attempt
  shard : Canonical t.shard
  harness : ∃ known ∈ brainHarnesses, t.harness = text known

theorem checkTuple_eq_ok {t : Tuple} {u : Unit} : checkTuple t = .ok u ↔ t.Valid := by
  simp only [checkTuple, bind_eq_ok, refuse_eq_ok, not_not, brainIsUint_iff, brainIsHarness_iff]
  constructor
  · intro ⟨_, hrun, _, hattempt, _, hshard, hharness⟩
    exact ⟨hrun, hattempt, hshard, hharness⟩
  · intro h
    exact ⟨(), h.runId, (), h.attempt, (), h.shard, h.harness⟩

theorem checked_eq_ok {α : Type} {t : Tuple} {x y : α} :
    (do checkTuple t; return x) = Except.ok y ↔ t.Valid ∧ y = x := by
  rw [bind_eq_ok]
  constructor
  · intro ⟨_, hvalid, hxy⟩
    exact ⟨checkTuple_eq_ok.1 hvalid, (Except.ok.inj hxy).symm⟩
  · intro ⟨hvalid, hxy⟩
    exact ⟨(), checkTuple_eq_ok.2 hvalid, hxy ▸ rfl⟩

theorem isWord_harness : ∀ known ∈ brainHarnesses,
    text known ≠ [] ∧ ∀ c ∈ text known, isWord c = true := by
  decide

section
variable {t : Tuple}

theorem Tuple.Valid.digits (h : t.Valid) :
    (t.runId ≠ [] ∧ ∀ c ∈ t.runId, isDigit c = true) ∧
      (t.attempt ≠ [] ∧ ∀ c ∈ t.attempt, isDigit c = true) ∧
      t.shard ≠ [] ∧ ∀ c ∈ t.shard, isDigit c = true :=
  ⟨⟨h.runId.2.1, h.runId.1⟩, ⟨h.attempt.2.1, h.attempt.1⟩, h.shard.2.1, h.shard.1⟩

theorem Tuple.Valid.word (h : t.Valid) : t.harness ≠ [] ∧ ∀ c ∈ t.harness, isWord c = true := by
  obtain ⟨known, hmem, heq⟩ := h.harness
  rw [heq]
  exact isWord_harness known hmem

end

/-! ## There and back -/

/-- What the groups of a branch take. -/
def branchTexts (t : Tuple) : List Str := [t.runId, t.attempt, t.harness, t.shard]

/-- What the groups of a file take. -/
def fileTexts (t : Tuple) : List Str := [t.runId, t.harness, t.attempt, t.shard]

theorem branchPattern_separated : Separated branchPattern := ⟨rfl, rfl, rfl, trivial, trivial⟩

theorem telemetryPattern_separated : Separated telemetryPattern := ⟨rfl, rfl, rfl, rfl, trivial⟩

theorem incidentPattern_separated : Separated incidentPattern := ⟨rfl, rfl, rfl, rfl, trivial⟩

section
variable {t : Tuple} (h : t.Valid)
include h

theorem fits_branch : Fits branchPattern (branchTexts t) :=
  ⟨h.digits.1, h.digits.2.1, h.word, h.digits.2.2, rfl⟩

theorem fits_telemetry : Fits telemetryPattern (fileTexts t) :=
  ⟨h.digits.1, h.word, h.digits.2.1, h.digits.2.2, rfl⟩

theorem fits_incident : Fits incidentPattern (fileTexts t) :=
  ⟨h.digits.1, h.word, h.digits.2.1, h.digits.2.2, rfl⟩

end

def linePattern : List (Piece Nat) :=
  [.group isWord, .lit (text " "), .group isWord, .lit (text " "), .group isWord, .lit (text " "),
    .group isWord, .lit (text "\n")]

/-- The line a parser prints says which tuple it has read. -/
theorem line_inj {t t' : Tuple} (h : t.Valid) (h' : t'.Valid) (heq : t.line = t'.line) : t = t' := by
  have hword : ∀ {s : Str}, (s ≠ [] ∧ ∀ c ∈ s, isDigit c = true) →
      s ≠ [] ∧ ∀ c ∈ s, isWord c = true := by
    intro s hs
    refine ⟨hs.1, fun c hc => ?_⟩
    simp [isWord, hs.2 c hc]
  have hfits : ∀ {t : Tuple}, t.Valid → Fits linePattern (branchTexts t) := fun h =>
    ⟨hword h.digits.1, hword h.digits.2.1, h.word, hword h.digits.2.2, rfl⟩
  have hfill : ∀ t : Tuple, fill linePattern (branchTexts t) = t.line := by
    intro t
    simp [linePattern, branchTexts, fill, Tuple.line]
  have hsep : Separated linePattern := ⟨rfl, rfl, rfl, rfl, trivial⟩
  have htexts := fill_inj hsep (hfits h) (hfits h') (by rw [hfill, hfill, heq])
  obtain ⟨r, a, k, n⟩ := t
  obtain ⟨r', a', k', n'⟩ := t'
  simp only [branchTexts, List.cons.injEq, and_true] at htexts
  obtain ⟨rfl, rfl, rfl, rfl⟩ := htexts
  rfl

theorem parseFile_eq_ok {pattern : List (Piece Nat)} (hsep : Separated pattern)
    (hfits : ∀ {t : Tuple}, t.Valid → Fits pattern (fileTexts t)) {path : Str} {t : Tuple} :
    parseFile pattern path = .ok t ↔ t.Valid ∧ path = fill pattern (fileTexts t) := by
  constructor
  · intro h
    unfold parseFile at h
    split at h
    case h_1 runId harness attempt shard hcapture =>
      obtain ⟨_, hvalid, h⟩ := bind_eq_ok.1 h
      obtain rfl := Except.ok.inj h
      exact ⟨checkTuple_eq_ok.1 hvalid, (fill_of_capture hcapture).2.symm⟩
    case h_2 => cases h
  · intro ⟨hvalid, hpath⟩
    unfold parseFile
    rw [hpath, capture_fill hsep (hfits hvalid)]
    exact bind_eq_ok.2 ⟨(), checkTuple_eq_ok.2 hvalid, rfl⟩

theorem parseTelemetry_eq_ok {path : Str} {t : Tuple} :
    parseTelemetry path = .ok t ↔ t.Valid ∧ path = fill telemetryPattern (fileTexts t) :=
  parseFile_eq_ok telemetryPattern_separated fits_telemetry

theorem parseIncident_eq_ok {path : Str} {t : Tuple} :
    parseIncident path = .ok t ↔ t.Valid ∧ path = fill incidentPattern (fileTexts t) :=
  parseFile_eq_ok incidentPattern_separated fits_incident

theorem telemetryFor_eq_ok {path : Str} {t : Tuple} :
    telemetryFor t = .ok path ↔ t.Valid ∧ path = fill telemetryPattern (fileTexts t) := by
  have hfill : fill telemetryPattern (fileTexts t) = text "telemetry/run-" ++ t.runId ++ text "/" ++
      t.harness ++ text "-attempt-" ++ t.attempt ++ text "-shard-" ++ t.shard ++ text ".json" := by
    simp [telemetryPattern, fileTexts, fill]
  rw [telemetryFor, checked_eq_ok, hfill]

theorem incidentFor_eq_ok {path : Str} {t : Tuple} :
    incidentFor t = .ok path ↔ t.Valid ∧ path = fill incidentPattern (fileTexts t) := by
  have hfill : fill incidentPattern (fileTexts t) = text "incidents/run-" ++ t.runId ++ text "/" ++
      t.harness ++ text "-attempt-" ++ t.attempt ++ text "-shard-" ++ t.shard ++ text ".gpg" := by
    simp [incidentPattern, fileTexts, fill]
  rw [incidentFor, checked_eq_ok, hfill]

/-! ## Branches, there and back -/

/-- The characters of a branch: none of them is a blank, a line end or a dot. -/
def isPlain (c : Nat) : Bool := isWord c || c = 45 || c = 47

theorem plain_branch {t : Tuple} (h : t.Valid) :
    ∀ c ∈ fill branchPattern (branchTexts t), isPlain c = true := by
  have hlits : ∀ l ∈ [text "ingest/run-", text "/attempt-", text "/", text "/shard-"],
      ∀ c ∈ l, isPlain c = true := by decide
  have hdigit : ∀ c, isDigit c = true → isPlain c = true := by
    intro c hc
    simp [isPlain, isWord, hc]
  have hword : ∀ c, isWord c = true → isPlain c = true := by
    intro c hc
    simp [isPlain, hc]
  obtain ⟨⟨-, hrun⟩, ⟨-, hattempt⟩, -, hshard⟩ := h.digits
  intro c hc
  simp only [branchPattern, branchTexts, fill, List.mem_append, List.append_nil] at hc
  rcases hc with hc | hc | hc | hc | hc | hc | hc | hc
  · exact hlits _ (by simp) c hc
  · exact hdigit c (hrun c hc)
  · exact hlits _ (by simp) c hc
  · exact hdigit c (hattempt c hc)
  · exact hlits _ (by simp) c hc
  · exact hword c (h.word.2 c hc)
  · exact hlits _ (by simp) c hc
  · exact hdigit c (hshard c hc)

section
variable {git : Str → Bool} {branch : Str} {t : Tuple}

theorem checkBranch_eq_ok {u : Unit} (h : ∀ c ∈ branch, isPlain c = true) :
    checkBranch git branch = .ok u ↔ git (text "refs/heads/" ++ branch) = true := by
  have hnot : ∀ c, isPlain c = false → c ∉ branch := by
    intro c hc hmem
    rw [h c hmem] at hc
    cases hc
  have hdots : ¬ text ".." <:+: branch := by
    intro hsub
    exact hnot 46 (by decide) (hsub.subset (by decide))
  simp [checkBranch, bind_eq_ok, refuse_eq_ok, hnot 10 (by decide), hnot 32 (by decide), hdots]

theorem fill_branchPattern (t : Tuple) : fill branchPattern (branchTexts t) = branchPath t := by
  simp [branchPattern, branchTexts, fill, branchPath]

theorem branchFor_eq_ok :
    branchFor git t = .ok branch ↔ t.Valid ∧ branch = branchPath t ∧
      git (text "refs/heads/" ++ branch) = true := by
  unfold branchFor
  simp only [bind_eq_ok, checkTuple_eq_ok, refuse_eq_ok, not_not]
  constructor
  · intro ⟨_, hvalid, _, hgit, heq⟩
    obtain rfl := Except.ok.inj heq
    exact ⟨hvalid, rfl, hgit⟩
  · intro ⟨hvalid, heq, hgit⟩
    exact ⟨(), hvalid, (), heq ▸ hgit, heq ▸ rfl⟩

theorem parseBranch_eq_ok :
    parseBranch git branch = .ok t ↔ t.Valid ∧ branch = branchPath t ∧
      git (text "refs/heads/" ++ branch) = true := by
  rw [← fill_branchPattern]
  constructor
  · intro h
    obtain ⟨_, hcheck, h⟩ := bind_eq_ok.1 h
    split at h
    case h_1 runId attempt harness shard hcapture =>
      obtain ⟨hvalid, rfl⟩ := checked_eq_ok.1 h
      have heq := (fill_of_capture hcapture).2.symm
      have hplain := plain_branch hvalid
      rw [branchTexts, ← heq] at hplain
      exact ⟨hvalid, heq, (checkBranch_eq_ok hplain).1 hcheck⟩
    case h_2 => cases h
  · intro ⟨hvalid, heq, hgit⟩
    have hplain := plain_branch hvalid
    rw [← heq] at hplain
    refine bind_eq_ok.2 ⟨(), (checkBranch_eq_ok hplain).2 hgit, ?_⟩
    rw [heq, capture_fill branchPattern_separated (fits_branch hvalid)]
    exact checked_eq_ok.2 ⟨hvalid, rfl⟩

/-- What the parser of the old format accepts. -/
theorem of_parseBranchLegacy (h : parseBranchLegacy git branch = .ok t) :
    ∃ runId attempt shard, Canonical runId ∧ Canonical attempt ∧ Canonical shard ∧
      branch = fill legacyPattern [runId, attempt, shard] := by
  obtain ⟨_, -, h⟩ := bind_eq_ok.1 h
  split at h
  case h_1 runId attempt shard hcapture =>
    simp only [bind_eq_ok, refuse_eq_ok, not_not, brainIsUint_iff] at h
    obtain ⟨_, hrun, _, hattempt, _, hshard, -⟩ := h
    exact ⟨runId, attempt, shard, hrun, hattempt, hshard, (fill_of_capture hcapture).2.symm⟩
  case h_2 => cases h

end

theorem count_slash {p : Nat → Bool} (hp : p 47 = false) {s : Str} (h : ∀ c ∈ s, p c = true) :
    s.count 47 = 0 := by
  refine List.count_eq_zero.2 fun hmem => ?_
  rw [h 47 hmem] at hp
  cases hp

/-- A branch has four slashes and one of the old format three. -/
theorem parseBranchLegacy_error {git : Str → Bool} {branch : Str} {t : Tuple}
    (h : parseBranch git branch = .ok t) (t' : Tuple) : parseBranchLegacy git branch ≠ .ok t' := by
  intro hlegacy
  obtain ⟨hvalid, hbranch, -⟩ := parseBranch_eq_ok.1 h
  obtain ⟨runId, attempt, shard, hrun, hattempt, hshard, hold⟩ := of_parseBranchLegacy hlegacy
  have hlits : (text "ingest/run-").count 47 = 1 ∧ (text "/attempt-").count 47 = 1 ∧
      (text "/").count 47 = 1 ∧ (text "/shard-").count 47 = 1 := by decide
  obtain ⟨h1, h2, h3, h4⟩ := hlits
  have hfour : branch.count 47 = 4 := by
    obtain ⟨⟨-, hr⟩, ⟨-, ha⟩, -, hs⟩ := hvalid.digits
    rw [hbranch]
    simp only [branchPath, List.count_append, h1, h2, h3, h4,
      count_slash (show isDigit 47 = false from rfl) hr,
      count_slash (show isDigit 47 = false from rfl) ha,
      count_slash (show isDigit 47 = false from rfl) hs,
      count_slash (show isWord 47 = false from rfl) hvalid.word.2]
  have hthree : branch.count 47 = 3 := by
    rw [hold]
    simp only [legacyPattern, fill, List.count_append, List.append_nil, h1, h2, h4,
      count_slash (show isDigit 47 = false from rfl) hrun.1,
      count_slash (show isDigit 47 = false from rfl) hattempt.1,
      count_slash (show isDigit 47 = false from rfl) hshard.1]
  omega

/-! ## Paths and tuples -/

/-- A generator and a parser that undo each other. -/
structure Inverse (gen : Tuple → Except Nat Str) (parse : Str → Except Nat Tuple) : Prop where
  parse_gen : ∀ t, t.Valid → ∃ s, gen t = .ok s ∧ parse s = .ok t
  gen_parse : ∀ s t, parse s = .ok t → gen t = .ok s

/-- A generator and a parser that mean the same by a path. -/
theorem Inverse.of_iff {gen : Tuple → Except Nat Str} {parse : Str → Except Nat Tuple}
    {Means : Str → Tuple → Prop} (hgen : ∀ s t, gen t = .ok s ↔ Means s t)
    (hparse : ∀ s t, parse s = .ok t ↔ Means s t) (hsome : ∀ t, t.Valid → ∃ s, Means s t) :
    Inverse gen parse := by
  refine ⟨fun t hvalid => ?_, fun s t h => (hgen s t).2 ((hparse s t).1 h)⟩
  obtain ⟨s, hs⟩ := hsome t hvalid
  exact ⟨s, (hgen s t).2 hs, (hparse s t).2 hs⟩

theorem telemetry_inverse : Inverse telemetryFor parseTelemetry :=
  .of_iff (fun _ _ => telemetryFor_eq_ok) (fun _ _ => parseTelemetry_eq_ok) fun _ h => ⟨_, h, rfl⟩

theorem incident_inverse : Inverse incidentFor parseIncident :=
  .of_iff (fun _ _ => incidentFor_eq_ok) (fun _ _ => parseIncident_eq_ok) fun _ h => ⟨_, h, rfl⟩

/-- What each generator writes. -/
def branches (git : Str → Bool) : Set Str := {s | ∃ t, branchFor git t = .ok s}

def incidents : Set Str := {s | ∃ t, incidentFor t = .ok s}

def telemetries : Set Str := {s | ∃ t, telemetryFor t = .ok s}

def corpusUnits : Set Str := {s | ∃ harness name, corpusUnitFor harness name = .ok s}

theorem branches_front {git : Str → Bool} : ∀ s ∈ branches git, s.take 3 = text "ing" := by
  intro s ⟨t, h⟩
  rw [(branchFor_eq_ok.1 h).2.1]
  rfl

theorem incidents_front : ∀ s ∈ incidents, s.take 3 = text "inc" := by
  intro s ⟨t, h⟩
  rw [(incidentFor_eq_ok.1 h).2]
  rfl

theorem telemetries_front : ∀ s ∈ telemetries, s.take 3 = text "tel" := by
  intro s ⟨t, h⟩
  rw [(telemetryFor_eq_ok.1 h).2]
  rfl

theorem corpusUnits_front : ∀ s ∈ corpusUnits, s.take 3 = text "cor" := by
  intro s ⟨harness, name, h⟩
  obtain ⟨_, -, h⟩ := bind_eq_ok.1 h
  obtain ⟨_, -, h⟩ := bind_eq_ok.1 h
  rw [← Except.ok.inj h]
  rfl

theorem disjoint_of_front {A B : Set Str} {a b : Str} (hA : ∀ s ∈ A, s.take 3 = a)
    (hB : ∀ s ∈ B, s.take 3 = b) (h : a ≠ b) : Disjoint A B :=
  Set.disjoint_left.2 fun s hs hs' => h ((hA s hs).symm.trans (hB s hs'))

/-- Generators and parsers are inverse to each other, no path is of two kinds, and no branch is
one of the old format too. -/
theorem brain_paths_bijective {git : Str → Bool}
    (hgit : ∀ t : Tuple, t.Valid → git (text "refs/heads/" ++ branchPath t) = true) :
    Inverse (branchFor git) (parseBranch git) ∧ Inverse incidentFor parseIncident ∧
      Inverse telemetryFor parseTelemetry ∧
      [branches git, incidents, telemetries, corpusUnits].Pairwise Disjoint ∧
      ∀ s t t', ¬ (parseBranch git s = .ok t ∧ parseBranchLegacy git s = .ok t') := by
  refine ⟨.of_iff (fun _ _ => branchFor_eq_ok) (fun _ _ => parseBranch_eq_ok)
    fun t h => ⟨_, h, rfl, hgit t h⟩, incident_inverse, telemetry_inverse, ?_,
    fun s t t' h => parseBranchLegacy_error h.1 t' h.2⟩
  have hfronts : text "ing" ≠ text "inc" ∧ text "ing" ≠ text "tel" ∧ text "ing" ≠ text "cor" ∧
      text "inc" ≠ text "tel" ∧ text "inc" ≠ text "cor" ∧ text "tel" ≠ text "cor" := by decide
  obtain ⟨h1, h2, h3, h4, h5, h6⟩ := hfronts
  simp only [List.pairwise_cons, List.forall_mem_cons, List.not_mem_nil, false_implies,
    implies_true, and_true, List.Pairwise.nil]
  exact ⟨⟨disjoint_of_front branches_front incidents_front h1,
    disjoint_of_front branches_front telemetries_front h2,
    disjoint_of_front branches_front corpusUnits_front h3⟩,
    ⟨disjoint_of_front incidents_front telemetries_front h4,
    disjoint_of_front incidents_front corpusUnits_front h5⟩,
    disjoint_of_front telemetries_front corpusUnits_front h6⟩

/-- A branch of a run, there and back. -/
theorem brain_paths_bijective_run100 :
    ∃ s, branchFor (fun _ => true) ⟨text "100", text "1", text "cmp_ecdsa_online", text "0"⟩ =
        .ok s ∧
      parseBranch (fun _ => true) s =
        .ok ⟨text "100", text "1", text "cmp_ecdsa_online", text "0"⟩ :=
  (brain_paths_bijective fun _ _ => rfl).1.parse_gen _
    ⟨by decide, by decide, by decide, "cmp_ecdsa_online", by decide, rfl⟩

end MpcHunt.Brain
