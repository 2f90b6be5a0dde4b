/-
The status of a shard from the fuzzer to the last step of its job: how
`run_fuzzer_shard.sh` names the end of the container, what the public summary
says of it, and what `enforce_summary_status.py` makes of the summary.
-/
import MpcHunt.Summary.Agreement

namespace MpcHunt.Summary

open Encoding Lines Checks

/-! ## The end of the container -/

/-- A line of progress, `^#[0-9]+[[:space:]]`. -/
def isProgress (line : Str) : Bool :=
  ((skip "#" line).bind (skipSome (inRanges [(48, 57)]))).any fun rest =>
    rest.head?.any (inRanges [(9, 13), (32, 32)])

/-- What `grep` looks for in the log; for it a NUL ends a line, too. -/
def showsProgress (log : List UInt8) : Bool :=
  ((log.map UInt8.toNat).splitOnP fun c => c == 0 || c == 10).any isProgress

/-- What is known when `docker run` is over: the status of `timeout`, what `docker inspect`
prints, and the log. -/
structure Finish where
  status : Nat
  oomKilled : List UInt8
  log : List UInt8

/-- The exit code that the script makes of it. -/
def Finish.exitCode (r : Finish) : Nat :=
  if r.status = 124 ∨ r.status = 137 then
    if r.oomKilled = encodeAscii (text "true") then 73
    else if r.status = 124 then 72
    else if r.oomKilled = encodeAscii (text "false") ∧ showsProgress r.log then 72
    else 74
  else r.status

/-- The private directory, from the files that the container leaves in it: the script writes its
own four over them. -/
def Finish.leave (r : Finish) (files : Dict Str (List UInt8)) (harness : Str) :
    Dict Str (List UInt8) :=
  let oomKilled := if r.oomKilled = [] then encodeAscii (text "unknown") else r.oomKilled
  let files := Dict.set files (text "fuzzer.raw.log") r.log
  let files := Dict.set files (text "oom_killed") (oomKilled ++ [10])
  let files := Dict.set files (text "exit_code") (encodeAscii (Digits.decimal r.exitCode ++ [10]))
  Dict.set files (text "harness") (encodeAscii (harness ++ [10]))

/-! ## The last step of the job -/

/-- One line of the text; without a `=` it is no pair. -/
def readField (values : Dict Str Str) (line : Str) : Option (Dict Str Str) :=
  let parts := partition 61 line
  if parts.2.1 = [] then none else some (Dict.set values parts.1 parts.2.2)

/-- `dict(line.split("=", 1) for line in text.splitlines())`. -/
def fieldsOf (t : Str) : Option (Dict Str Str) := (splitlines strBreak t).foldlM readField []

/-- `int`, of the digits that the rule of the exit code lets through. -/
def int (s : Str) : Option Nat := if isDecimal s then some (Digits.value s) else none

/-- `main` of `enforce_summary_status.py` with one argument: its exit code. A file that cannot be
read is `none`. -/
def enforce (file : Option (List UInt8)) : Nat :=
  let code := do
    let raw ← file
    let t ← (validate raw).toOption
    let values ← fieldsOf t
    let code ← Dict.get? values (text "exit_code")
    int code
  if code = some 0 then 0 else 1

/-! ## The exit code -/

section
variable (r : Finish)

theorem Finish.exitCode_le (h : r.status ≤ 255) : r.exitCode ≤ 255 := by
  unfold Finish.exitCode
  split_ifs <;> omega

theorem Finish.exitCode_eq_zero : r.exitCode = 0 ↔ r.status = 0 := by
  unfold Finish.exitCode
  by_cases hstatus : r.status = 124 ∨ r.status = 137
  · have hne : r.status ≠ 0 := by omega
    rw [if_pos hstatus]
    split_ifs <;> simp [hne]
  · rw [if_neg hstatus]

/-- The watchdog: it has run out, or what it killed was still at work. -/
def Finish.WatchedOut : Prop :=
  r.status = 124 ∧ r.oomKilled ≠ encodeAscii (text "true") ∨
    r.status = 137 ∧ r.oomKilled = encodeAscii (text "false") ∧ showsProgress r.log = true

/-- Docker has recorded the kill. -/
def Finish.OutOfMemory : Prop :=
  (r.status = 124 ∨ r.status = 137) ∧ r.oomKilled = encodeAscii (text "true")

theorem false_ne_true : encodeAscii (text "false") ≠ encodeAscii (text "true") := by decide

theorem Finish.exitCode_eq_72 : r.exitCode = 72 ↔ r.status = 72 ∨ r.WatchedOut := by
  unfold Finish.exitCode Finish.WatchedOut
  by_cases hstatus : r.status = 124 ∨ r.status = 137
  · rw [if_pos hstatus]
    by_cases htrue : r.oomKilled = encodeAscii (text "true")
    · rw [if_pos htrue, htrue]
      have hne : r.status ≠ 72 := by omega
      simp [hne, false_ne_true.symm]
    · rw [if_neg htrue]
      rcases hstatus with h | h
      · simp [h, htrue]
      · rw [if_neg (by omega)]
        by_cases hseen : r.oomKilled = encodeAscii (text "false") ∧ showsProgress r.log = true
        · simp [h, hseen.1, hseen.2]
        · rw [if_neg hseen]
          simp only [h, hseen, and_false, or_false]
          omega
  · rw [if_neg hstatus]
    have h124 : r.status ≠ 124 := fun h => hstatus (.inl h)
    have h137 : r.status ≠ 137 := fun h => hstatus (.inr h)
    simp [h124, h137]

theorem Finish.exitCode_eq_73 : r.exitCode = 73 ↔ r.status = 73 ∨ r.OutOfMemory := by
  unfold Finish.exitCode Finish.OutOfMemory
  split_ifs <;> simp_all

end

/-! ## The files -/

/-- One entry of the scan. -/
def scanEntry (byName : Dict Str (List UInt8)) (entry : Str × Node) :
    Except String (Dict Str (List UInt8)) :=
  match entry.2 with
  | .symlink => .error "symlink rejected"
  | .other => .error "non-regular entry rejected"
  | .regular bytes => .ok (Dict.set byName entry.1 bytes)

/-- The directory with these files. -/
def entriesOf (files : Dict Str (List UInt8)) : Dict Str Node :=
  files.map fun p => (p.1, Node.regular p.2)

theorem keys_entriesOf (files : Dict Str (List UInt8)) :
    Dict.keys (entriesOf files) = Dict.keys files := List.map_map

theorem regular_injective :
    Function.Injective fun p : Str × List UInt8 => (p.1, Node.regular p.2) := by
  intro p q h
  obtain ⟨hname, hnode⟩ := Prod.mk.inj h
  exact Prod.ext hname (Node.regular.inj hnode)

/-- What is read of a directory is each of its files. -/
theorem regularDepthOne_eq {entries : Dict Str Node} {byName : Dict Str (List UInt8)}
    (hnodup : entries.keys.Nodup) (h : regularDepthOne (some entries) = .ok byName) :
    entries = entriesOf byName := by
  have hfold : ∀ {entries : Dict Str Node} {acc byName : Dict Str (List UInt8)},
      (acc.keys ++ entries.keys).Nodup →
      entries.foldlM scanEntry acc = .ok byName →
      ∃ new, byName = acc ++ new ∧ entries = entriesOf new := by
    intro entries
    induction entries with
    | nil =>
      intro acc byName _ h
      obtain rfl := Except.ok.inj h
      exact ⟨[], (List.append_nil acc).symm, rfl⟩
    | cons entry entries ih =>
      intro acc byName hnodup h
      rw [List.foldlM_cons] at h
      obtain ⟨mid, hmid, hrest⟩ := bind_eq_ok.1 h
      obtain ⟨name, node⟩ := entry
      cases node with
      | symlink => cases hmid
      | other => cases hmid
      | regular bytes =>
        obtain rfl := Except.ok.inj hmid
        have hkeys : (acc.keys ++ name :: Dict.keys entries).Nodup := hnodup
        have hfresh : name ∉ acc.keys := fun hmem =>
          (List.nodup_append.1 hkeys).2.2 name hmem name List.mem_cons_self rfl
        rw [Dict.set_of_not_mem hfresh] at hrest
        have hnodup' : (Dict.keys (acc ++ [(name, bytes)]) ++ Dict.keys entries).Nodup := by
          rw [Dict.keys_append, List.append_assoc]
          exact hkeys
        obtain ⟨new, rfl, rfl⟩ := ih hnodup' hrest
        exact ⟨(name, bytes) :: new, List.append_assoc _ _ _, rfl⟩
  have hkeys : (Dict.keys ([] : Dict Str (List UInt8)) ++ entries.keys).Nodup := hnodup
  obtain ⟨new, rfl, hentries⟩ := hfold hkeys h
  exact hentries

/-- The names that are no artifacts. -/
def evidenceNames : List Str :=
  [text "fuzzer.raw.log", text "exit_code", text "oom_killed", text "harness"]

/-- One entry of the search for artifacts. -/
def artifactEntry (artifacts : List (List UInt8 × Kind)) (entry : Str × List UInt8) :
    Except String (List (List UInt8 × Kind)) :=
  if evidenceNames.contains entry.1 then .ok artifacts
  else
    (ARTIFACT entry.1).elim (.error "unexpected artifact") fun kind =>
      if entry.2.length > 32 * 1024 * 1024 then .error "unexpected artifact"
      else .ok (artifacts ++ [(entry.2, kind)])

theorem artifactsOf_eq (byName : Dict Str (List UInt8)) :
    artifactsOf byName = byName.foldlM artifactEntry [] := by
  unfold artifactsOf
  congr 1
  funext artifacts entry
  obtain ⟨name, bytes⟩ := entry
  unfold artifactEntry
  by_cases hname : name ∈ evidenceNames
  · rw [if_pos (List.contains_iff_mem.2 hname)]
    exact if_pos hname
  · rw [if_neg fun h => hname (List.contains_iff_mem.1 h)]
    refine (if_neg hname).trans ?_
    cases ARTIFACT name <;> rfl

/-- What one entry does: it is passed over, or it is an artifact within the limit. -/
theorem artifactEntry_eq_ok {artifacts artifacts' : List (List UInt8 × Kind)}
    {entry : Str × List UInt8} (h : artifactEntry artifacts entry = .ok artifacts') :
    entry.1 ∈ evidenceNames ∧ artifacts' = artifacts ∨
    entry.1 ∉ evidenceNames ∧ ∃ kind, ARTIFACT entry.1 = some kind ∧
      entry.2.length ≤ 32 * 1024 * 1024 ∧ artifacts' = artifacts ++ [(entry.2, kind)] := by
  unfold artifactEntry at h
  by_cases hname : entry.1 ∈ evidenceNames
  · rw [if_pos (List.contains_iff_mem.2 hname)] at h
    exact .inl ⟨hname, (Except.ok.inj h).symm⟩
  · rw [if_neg fun h => hname (List.contains_iff_mem.1 h)] at h
    cases hkind : ARTIFACT entry.1 with
    | none =>
      rw [hkind] at h
      cases h
    | some kind =>
      rw [hkind] at h
      obtain ⟨hlength, h⟩ := guard_eq_ok.1 h
      exact .inr ⟨hname, kind, rfl, Nat.not_lt.1 hlength, (Except.ok.inj h).symm⟩

theorem artifactsOf_eq_nil {byName : Dict Str (List UInt8)} {artifacts : List (List UInt8 × Kind)}
    (h : artifactsOf byName = .ok artifacts) :
    artifacts = [] ↔ ∀ name ∈ byName.keys, name ∈ evidenceNames := by
  have hfold : ∀ {byName : Dict Str (List UInt8)} {acc artifacts : List (List UInt8 × Kind)},
      byName.foldlM artifactEntry acc = .ok artifacts →
      (artifacts = [] ↔ acc = [] ∧ ∀ name ∈ byName.keys, name ∈ evidenceNames) := by
    intro byName
    induction byName with
    | nil =>
      intro acc artifacts h
      obtain rfl := Except.ok.inj h
      simp [Dict.keys]
    | cons p byName ih =>
      intro acc artifacts h
      rw [List.foldlM_cons] at h
      obtain ⟨mid, hmid, hrest⟩ := bind_eq_ok.1 h
      have hkeys : Dict.keys (p :: byName) = p.1 :: Dict.keys byName := rfl
      rw [ih hrest, hkeys, List.forall_mem_cons]
      rcases artifactEntry_eq_ok hmid with ⟨hname, rfl⟩ | ⟨hname, kind, -, -, rfl⟩
      · simp [hname]
      · simp [hname]
  rw [artifactsOf_eq] at h
  have hnil := hfold h
  simpa using hnil

section
variable {r : Finish} {files : Dict Str (List UInt8)} {harness : Str}

theorem Finish.nodup_leave (h : files.keys.Nodup) : (r.leave files harness).keys.Nodup :=
  Dict.nodup_keys_set (Dict.nodup_keys_set (Dict.nodup_keys_set (Dict.nodup_keys_set h _ _) _ _)
    _ _) _ _

theorem Finish.leave_log : (r.leave files harness).get? (text "fuzzer.raw.log") = some r.log := by
  unfold Finish.leave
  rw [Dict.get?_set_other _ (by decide), Dict.get?_set_other _ (by decide),
    Dict.get?_set_other _ (by decide), Dict.get?_set_self]

theorem Finish.leave_exitCode : (r.leave files harness).get? (text "exit_code") =
    some (encodeAscii (Digits.decimal r.exitCode ++ [10])) := by
  unfold Finish.leave
  rw [Dict.get?_set_other _ (by decide), Dict.get?_set_self]

/-- The container has left no artifact. -/
def Bare (files : Dict Str (List UInt8)) : Prop := ∀ name ∈ files.keys, name ∈ evidenceNames

theorem Finish.bare_leave : Bare (r.leave files harness) ↔ Bare files := by
  have hset : ∀ (files : Dict Str (List UInt8)) {name : Str} (bytes : List UInt8),
      name ∈ evidenceNames → (Bare (Dict.set files name bytes) ↔ Bare files) := by
    intro files name bytes hname
    unfold Bare
    simp only [Dict.mem_keys_set, forall_eq_or_imp, hname, true_and]
  unfold Finish.leave
  rw [hset _ _ (by decide), hset _ _ (by decide), hset _ _ (by decide), hset _ _ (by decide)]

theorem Finish.nodup_listed (h : files.keys.Nodup) {entries : Dict Str Node}
    (hentries : entries.Perm (entriesOf (r.leave files harness))) : entries.keys.Nodup := by
  have hleave : (entriesOf (r.leave files harness)).keys.Nodup := by
    rw [keys_entriesOf]
    exact Finish.nodup_leave h
  exact (hentries.map Prod.fst).nodup_iff.2 hleave

/-- What is read of the directory, in whatever order it is listed. -/
theorem Finish.read_leave (h : files.keys.Nodup) {entries : Dict Str Node}
    (hentries : entries.Perm (entriesOf (r.leave files harness)))
    {byName : Dict Str (List UInt8)} (hroot : regularDepthOne (some entries) = .ok byName) :
    byName.Perm (r.leave files harness) ∧ byName.keys.Nodup := by
  obtain rfl := regularDepthOne_eq (Finish.nodup_listed h hentries) hroot
  have hperm := (List.map_perm_map_iff regular_injective).1 hentries
  exact ⟨hperm, (hperm.map Prod.fst).nodup_iff.2 (Finish.nodup_leave h)⟩

end

/-! ## The verdict -/

/-- What the log and the artifacts alone can say. -/
theorem classify_outcome (log : Str) (kind : Option Kind) :
    ((classify log kind).2 = .noFinding ↔ kind = none ∧ signals log = []) ∧
      (classify log kind).2 ≠ .budgetExhausted ∧ (classify log kind).2 ≠ .containerOom ∧
      (classify log kind).2 ≠ .executionFailed := by
  have hsignal : ∀ v ∈ signals log, v.2 ≠ .noFinding ∧ v.2 ≠ .budgetExhausted ∧
      v.2 ≠ .containerOom ∧ v.2 ≠ .executionFailed := by
    intro v hv
    unfold signals at hv
    simp only [List.mem_append, List.mem_ite_nil_right, List.mem_singleton] at hv
    rcases hv with ((⟨-, rfl⟩ | ⟨-, rfl⟩) | ⟨-, rfl⟩) | ⟨-, rfl⟩ <;> decide
  unfold classify
  cases hs : signals log with
  | nil =>
    cases kind with
    | none => simp
    | some kind => cases kind <;> simp
  | cons v rest =>
    cases rest with
    | nil =>
      obtain ⟨hno, hrest⟩ := hsignal v (by rw [hs]; exact List.mem_singleton_self v)
      exact ⟨by simp [hno], hrest⟩
    | cons v' rest => simp

/-- What the exit code of a shard without an artifact makes of it. -/
theorem verdict_outcome (log : Str) (kind : Option Kind) (code : Nat) :
    ((verdict log kind code).2 = .noFinding ↔ kind = none ∧ code = 0 ∧ signals log = []) ∧
      ((verdict log kind code).2 = .budgetExhausted ↔ kind = none ∧ code = 72) ∧
      ((verdict log kind code).2 = .containerOom ↔ kind = none ∧ code = 73) ∧
      ((verdict log kind code).2 = .executionFailed ↔
        kind = none ∧ code ≠ 0 ∧ code ≠ 72 ∧ code ≠ 73) := by
  obtain ⟨hno, hbudget, hoom, hfailed⟩ := classify_outcome log kind
  unfold verdict
  by_cases htool : kind = none ∧ code ≠ 0
  · obtain ⟨rfl, hcode⟩ := htool
    rw [if_pos ⟨rfl, hcode⟩]
    by_cases h72 : code = 72
    · simp [h72]
    · by_cases h73 : code = 73
      · simp [h73]
      · simp [h72, h73, hcode]
  · rw [if_neg htool]
    have hzero : kind = none → code = 0 := fun hkind => by
      by_contra hcode
      exact htool ⟨hkind, hcode⟩
    refine ⟨?_, ?_, ?_, ?_⟩
    · rw [hno]
      exact ⟨fun h => ⟨h.1, hzero h.1, h.2⟩, fun h => ⟨h.1, h.2.2⟩⟩
    · exact ⟨fun h => absurd h hbudget, fun h => by have := hzero h.1; omega⟩
    · exact ⟨fun h => absurd h hoom, fun h => by have := hzero h.1; omega⟩
    · exact ⟨fun h => absurd h hfailed, fun h => absurd (hzero h.1) h.2.1⟩

theorem Outcome.name_injective : Function.Injective Outcome.name := by
  intro o o' h
  cases o <;> cases o' <;> first | rfl | exact absurd h (by decide)

/-! ## The fields that are read back -/

theorem fieldsOf_eq (values : Dict Str Str) {ls : List Str} {pairs : Dict Str Str}
    (hls : ls = pairs.map lineOf) (hplain : ∀ p ∈ pairs, 61 ∉ p.1)
    (hnodup : (Dict.keys (values ++ pairs)).Nodup) :
    ls.foldlM readField values = some (values ++ pairs) := by
  induction pairs generalizing ls values with
  | nil =>
    rw [hls, List.append_nil]
    rfl
  | cons p pairs ih =>
    have hp : partition 61 (lineOf p) = (p.1, [61], p.2) :=
      partition_eq.2 ⟨rfl, hplain p List.mem_cons_self⟩
    have hfresh : p.1 ∉ values.keys := by
      rw [Dict.keys_append] at hnodup
      exact fun hmem => (List.nodup_append.1 hnodup).2.2 p.1 hmem p.1 List.mem_cons_self rfl
    have hread : readField values (lineOf p) = some (values ++ [p]) := by
      rw [readField, hp, if_neg (by simp), Dict.set_of_not_mem hfresh]
    have hrest := ih (values ++ [p]) rfl (fun q hq => hplain q (List.mem_cons_of_mem p hq))
      (by rwa [List.append_assoc])
    rw [hls, List.map_cons, List.foldlM_cons, hread, Option.bind_eq_bind, Option.bind_some, hrest,
      List.append_assoc]
    rfl

theorem isDecimal_decimal (n : Nat) : isDecimal (Digits.decimal n) = true := by
  obtain ⟨hdigits, hne, -⟩ := Digits.decimal_canonical n
  unfold isDecimal
  rw [List.all_eq_true.2 hdigits]
  simpa using hne

/-- The last step sees the exit code of a summary that the emitter has accepted. -/
theorem enforce_eq_zero {raw : List UInt8} {values : List Str} {n : Nat} (h : Obeys values)
    (hvalid : validate raw = .ok (render values))
    (hcode : Dict.get? (ORDER.zip values) (text "exit_code") = some (Digits.decimal n)) :
    enforce (some raw) = 0 ↔ n = 0 := by
  obtain ⟨values', ps, hlined, htext, -⟩ := validate_eq_ok.1 hvalid
  have hclean : FORBIDDEN.search (render values) = false := htext ▸ hlined.clean
  have hlines := splitlines_weave (lined_ended10 h hclean)
  rw [weave_ended10, linesOf, ← map_lineOf_zip] at hlines
  have hkeys : Dict.keys (ORDER.zip values) = ORDER := (ordered_iff.2 ⟨values, h, rfl⟩).2
  have hplain : ∀ p ∈ ORDER.zip values, 61 ∉ p.1 := fun p hp hsep =>
    (keys_plain p.1 (List.of_mem_zip hp).1 61 hsep).2.2 rfl
  have hnodup : (Dict.keys (ORDER.zip values)).Nodup := by
    rw [hkeys]
    exact order_nodup
  have hfields : fieldsOf (render values) = some (ORDER.zip values) :=
    fieldsOf_eq [] hlines hplain hnodup
  have hint : int (Digits.decimal n) = some n := by
    rw [int, if_pos (isDecimal_decimal n), Digits.value_decimal]
  unfold enforce
  simp only [Option.bind_eq_bind, Option.bind_some, hvalid, Except.toOption, hfields, hcode, hint,
    Option.some.injEq]
  split_ifs with hzero <;> simp [hzero]

/-! ## From the container to the last step -/

theorem strip_exitCode : ∀ n < 256, stripText (encodeAscii (Digits.decimal n ++ [10])) =
    some (Digits.decimal n) := by
  decide +kernel

/-- What the summary says of the end of the container. -/
structure Finish.Told (r : Finish) (files : Dict Str (List UInt8)) (fields : Dict Str Str) :
    Prop where
  exitCode : fields.get? (text "exit_code") = some (Digits.decimal r.exitCode)
  noFinding : fields.get? (text "summary") = some Outcome.noFinding.name ↔
    Bare files ∧ r.status = 0 ∧ signals (r.log.map UInt8.toNat) = []
  budget : fields.get? (text "summary") = some Outcome.budgetExhausted.name ↔
    Bare files ∧ (r.status = 72 ∨ r.WatchedOut)
  oom : fields.get? (text "summary") = some Outcome.containerOom.name ↔
    Bare files ∧ (r.status = 73 ∨ r.OutOfMemory)
  failed : fields.get? (text "summary") = some Outcome.executionFailed.name ↔
    Bare files ∧ r.status ∉ [0, 72, 73] ∧ ¬ r.WatchedOut ∧ ¬ r.OutOfMemory

section
variable {sha256 : List UInt8 → Vector UInt8 32} {allowed : List Str} {r : Finish}
  {files : Dict Str (List UInt8)} {harness : Str} {entries : Dict Str Node} {k : Nat}

/-- Two of the fields, read back. -/
theorem get?_of_fields {a b c d e f g : Str} {fields : Dict Str Str}
    (h : FIELDS.zip [a, b, c, d, e, f, g] = fields) :
    fields.get? (text "exit_code") = some c ∧ fields.get? (text "summary") = some e := by
  subst h
  constructor <;> rfl

theorem build_told (hstatus : r.status ≤ 255) (hnames : files.keys.Nodup)
    (hentries : entries.Perm (entriesOf (r.leave files harness))) {fields : Dict Str Str}
    (h : build sha256 allowed (some entries) harness (Digits.decimal k) = .ok fields) :
    r.Told files fields := by
  simp only [build, bind_eq_ok, refuse_eq_ok, need_eq_ok] at h
  obtain ⟨_, -, _, -, byName, hroot, bytes, hlog, exitBytes, hexit, _, -, exitText, htext, _, -,
    artifacts, hartifacts, _, -, stack, -, h⟩ := h
  obtain ⟨hperm, hnodup⟩ := Finish.read_leave hnames hentries hroot
  have hread : ∀ {name : Str} {bytes : List UInt8},
      (r.leave files harness).get? name = some bytes → byName.get? name = some bytes :=
    fun hget => Dict.get?_of_mem hnodup (hperm.mem_iff.2 (Dict.mem_of_get? hget))
  obtain rfl : bytes = r.log := Option.some.inj (hlog.symm.trans (hread Finish.leave_log))
  obtain rfl := Option.some.inj (hexit.symm.trans (hread Finish.leave_exitCode))
  have hcode : r.exitCode ≤ 255 := r.exitCode_le hstatus
  obtain rfl := Option.some.inj (htext.symm.trans (strip_exitCode _ (Nat.lt_succ_of_le hcode)))
  rw [Digits.value_decimal] at h
  obtain ⟨hexitCode, hsummary⟩ := get?_of_fields (Except.ok.inj h)
  have hbare : artifacts.head?.map Prod.snd = none ↔ Bare files := by
    have hkeys : ∀ name, name ∈ byName.keys ↔ name ∈ (r.leave files harness).keys :=
      fun name => (hperm.map Prod.fst).mem_iff
    rw [Option.map_eq_none_iff, List.head?_eq_none_iff, artifactsOf_eq_nil hartifacts,
      ← @Finish.bare_leave r files harness]
    unfold Bare
    simp only [hkeys]
  obtain ⟨hnone, hbudget, hoom, hfailed⟩ := verdict_outcome (r.log.map UInt8.toNat)
    (artifacts.head?.map Prod.snd) r.exitCode
  rw [hbare, r.exitCode_eq_zero] at hnone
  rw [hbare, r.exitCode_eq_72] at hbudget
  rw [hbare, r.exitCode_eq_73] at hoom
  simp only [ne_eq, hbare, r.exitCode_eq_zero, r.exitCode_eq_72, r.exitCode_eq_73] at hfailed
  have htold : ∀ o : Outcome, fields.get? (text "summary") = some o.name ↔
      (verdict (r.log.map UInt8.toNat) (artifacts.head?.map Prod.snd) r.exitCode).2 = o := by
    intro o
    rw [hsummary, Option.some.injEq, Outcome.name_injective.eq_iff]
  have hlisted : r.status ∉ [0, 72, 73] ↔ r.status ≠ 0 ∧ r.status ≠ 72 ∧ r.status ≠ 73 := by simp
  exact
    { exitCode := hexitCode
      noFinding := (htold _).trans hnone
      budget := (htold _).trans hbudget
      oom := (htold _).trans hoom
      failed := by
        rw [htold, hfailed, hlisted, not_or, not_or]
        constructor
        · rintro ⟨hb, h0, ⟨h72, hw⟩, h73, ho⟩
          exact ⟨hb, ⟨h0, h72, h73⟩, hw, ho⟩
        · rintro ⟨hb, ⟨h0, h72, h73⟩, hw, ho⟩
          exact ⟨hb, h0, ⟨h72, hw⟩, h73, ho⟩ }

theorem evidence_leave (hnames : files.keys.Nodup)
    (hentries : entries.Perm (entriesOf (r.leave files harness)))
    {byName : Dict Str (List UInt8)} (hroot : regularDepthOne (some entries) = .ok byName)
    {name : Str} {bytes : List UInt8} (hget : (r.leave files harness).get? name = some bytes) :
    evidence (some entries) name = some bytes := by
  obtain ⟨hperm, hnodup⟩ := Finish.read_leave hnames hentries hroot
  rw [evidence, hroot]
  exact Dict.get?_of_mem hnodup (hperm.mem_iff.2 (Dict.mem_of_get? hget))

theorem enforce_none : enforce none = 1 := rfl

theorem validate_of_enforce {raw : List UInt8} (h : enforce (some raw) = 0) :
    ∃ t, validate raw = .ok t := by
  cases hvalid : validate raw with
  | ok t => exact ⟨t, rfl⟩
  | error e => simp [enforce, hvalid, Except.toOption] at h

/-- What the producer writes. -/
theorem produce_eq {root : Root} {values : List Str} (hobeys : Obeys values)
    (hbuild : build sha256 allowed root harness (Digits.decimal k) = .ok (FIELDS.zip values)) :
    produce sha256 allowed root harness (Digits.decimal k) .free =
      .ok (encodeAscii (render values)) := by
  have hdata := dataOf_zip hobeys.length_eq.symm
  simp only [produce, bind_eq_ok, refuse_eq_ok, hbuild]
  refine ⟨_, rfl, (), by decide, (), ?_, by rw [hdata]; rfl⟩
  rw [hdata, not_not, List.all_eq_true]
  exact fun c hc => decide_eq_true (render_ascii hobeys c hc)

/-- The last step passes a summary on exactly when it holds no marker and the exit code is
zero. -/
theorem enforce_produced {root : Root} {values : List Str} {n : Nat} (hobeys : Obeys values)
    (hbuild : build sha256 allowed root harness (Digits.decimal k) = .ok (FIELDS.zip values))
    (hcode : Dict.get? (FIELDS.zip values) (text "exit_code") = some (Digits.decimal n)) :
    enforce (some (encodeAscii (render values))) = 0 ↔
      n = 0 ∧ ∀ v ∈ values, FORBIDDEN.search v = false := by
  have hproduce := produce_eq hobeys hbuild
  have hdata := dataOf_zip hobeys.length_eq.symm
  rw [← accepted_iff_clean hobeys hbuild, hdata]
  constructor
  · intro h
    obtain ⟨t, hvalid⟩ := validate_of_enforce h
    obtain ⟨_, ps, hlined, ht, hraw⟩ := validate_eq_ok.1 hvalid
    have hascii : IsAscii t := ht ▸ hlined.ascii
    have htext : t = render values := by
      rw [← toNat_encodeAscii hascii, ← hraw, toNat_encodeAscii (render_ascii hobeys)]
    rw [htext] at hvalid
    exact ⟨(enforce_eq_zero hobeys hvalid hcode).1 h, _, hproduce, hvalid⟩
  · rintro ⟨hzero, raw, hraw, hvalid⟩
    obtain rfl := Except.ok.inj (hproduce.symm.trans hraw)
    exact (enforce_eq_zero hobeys hvalid hcode).2 hzero

end

/-- A run that the watchdog ends. -/
def expired : Finish :=
  ⟨124, encodeAscii (text "false"), encodeAscii (text "#0\tREAD units: 1\n#8\tpulse\n")⟩

end MpcHunt.Summary
