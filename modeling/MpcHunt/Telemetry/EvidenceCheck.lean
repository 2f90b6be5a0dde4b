/-
What is summed up passes the check: a job that either side accepts is `Valid`,
and a valid job is read back from the text of the evidence it is part of. So
the evidence of a directory is checked under its own identifiers, and under no
others.
-/
import MpcHunt.Telemetry.Evidence

namespace MpcHunt.Telemetry

open Digits Json Checks Encoding
open Summary (Root)

/-! ## Fields -/

theorem expectBounded_eq_ok {value : Value} {field : Str} {ceiling n : Int} :
    expectBounded value field ceiling = .ok n ↔ value = .int n ∧ 0 ≤ n ∧ n ≤ ceiling := by
  unfold expectBounded
  cases value with
  | int m =>
    simp only [guard_eq_ok, Except.ok.injEq, Value.int.injEq]
    constructor
    · rintro ⟨hrange, rfl⟩
      omega
    · rintro ⟨rfl, hrange⟩
      omega
  | null | bool | float | string | array | object => simp

theorem expectVocabulary_iff {value : Value} {field s : Str} :
    expectVocabulary value field = .ok s ↔ value = .string s ∧ inVocabulary s = true := by
  cases value with
  | string t =>
    rw [expectVocabulary_eq_ok, Value.string.injEq]
    constructor
    · rintro ⟨hword, rfl⟩
      exact ⟨rfl, hword⟩
    · rintro ⟨rfl, hword⟩
      exact ⟨hword, rfl⟩
  | null | bool | int | float | array | object => simp [expectVocabulary]

theorem expectExactKeys_eq_ok {value : Value} {keys : List Str} {field : Str}
    {members : Dict Str Value} : expectExactKeys value keys field = .ok members ↔
      value = .object members ∧ sameSet members.keys keys = true := by
  cases value with
  | object ms =>
    simp only [expectExactKeys, guard_eq_ok, not_not, Except.ok.injEq, Value.object.injEq]
    constructor
    · rintro ⟨hkeys, rfl⟩
      exact ⟨rfl, hkeys⟩
    · rintro ⟨rfl, hkeys⟩
      exact ⟨hkeys, rfl⟩
  | null | bool | int | float | string | array => simp [expectExactKeys]

/-- A counter in its range. -/
def InRange (n : Int) : Prop := 0 ≤ n ∧ n ≤ maxCounter

/-- A counter map as it is returned: these keys in this order, and every counter in its range. -/
structure Mapped (keys : List Str) (m : Dict Str Int) : Prop where
  keys : m.keys = keys
  range : ∀ p ∈ m, InRange p.2

/-- What is read of a counter map. -/
structure ReadsMap (value : Value) (keys : List Str) (m : Dict Str Int) : Prop where
  mapped : Mapped keys m
  members : ∃ members, value = .object members ∧ sameSet (Dict.keys members) keys = true ∧
    ∀ p ∈ m, member members p.1 = .int p.2

theorem expectCounterMap_eq_ok {value : Value} {keys : List Str} {field : Str} {m : Dict Str Int} :
    expectCounterMap value keys field = .ok m ↔ ReadsMap value keys m := by
  have hkey : ∀ (members : Dict Str Value) (key : Str) (p : Str × Int),
      (expectInt (member members key) (field ++ text "." ++ key)).map (fun n => (key, n)) = .ok p ↔
        key = p.1 ∧ member members p.1 = .int p.2 ∧ InRange p.2 := by
    intro members key p
    have hread : ∀ n, expectInt (member members key) (field ++ text "." ++ key) = .ok n ↔
        member members key = .int n ∧ InRange n := fun n => expectBounded_eq_ok
    obtain ⟨key', n⟩ := p
    constructor
    · intro h
      cases hn : expectInt (member members key) (field ++ text "." ++ key) with
      | error e =>
        rw [hn] at h
        cases h
      | ok n' =>
        rw [hn] at h
        obtain ⟨rfl, rfl⟩ := Prod.mk.inj (Except.ok.inj h)
        exact ⟨rfl, (hread _).1 hn⟩
    · rintro ⟨rfl, hn⟩
      rw [(hread n).2 hn]
      rfl
  constructor
  · intro h
    cases value with
    | null | bool | int | float | string | array => cases h
    | object members =>
      obtain ⟨hset, h⟩ := guard_eq_ok.1 h
      have hall := mapM_eq_ok_iff.1 h
      simp only [hkey] at hall
      have hkeys : keys = m.map Prod.fst := by
        rw [← List.forall₂_eq_eq_eq, List.forall₂_map_right_iff]
        exact hall.imp fun _ _ hp => hp.1
      have hp : ∀ p ∈ m, member members p.1 = .int p.2 ∧ InRange p.2 := by
        rw [hkeys, List.forall₂_map_left_iff] at hall
        exact fun p hp => (List.forall₂_same.1 hall p hp).2
      exact ⟨⟨hkeys.symm, fun p hpm => (hp p hpm).2⟩, members, rfl, not_not.1 hset,
        fun p hpm => (hp p hpm).1⟩
  · intro h
    obtain ⟨⟨hkeys, hrange⟩, members, rfl, hset, hmem⟩ := h
    refine guard_eq_ok.2 ⟨not_not.2 hset, mapM_eq_ok_iff.2 ?_⟩
    simp only [hkey]
    rw [← hkeys, Dict.keys, List.forall₂_map_left_iff, List.forall₂_same]
    exact fun p hp => ⟨rfl, hmem p hp, hrange p hp⟩

/-! ## Members, sorted -/

theorem sameSet_of_mem {xs ys : List Str} (h : ∀ k, k ∈ xs ↔ k ∈ ys) : sameSet xs ys = true := by
  unfold sameSet
  simp only [Bool.and_eq_true, List.all_eq_true, List.contains_iff_mem]
  exact ⟨fun k hk => (h k).1 hk, fun k hk => (h k).2 hk⟩

section
variable {ms : Dict Str Value} (hnodup : ms.keys.Nodup)
include hnodup

theorem member_sortMembers (key : Str) :
    member (sortMembers ms) key = sortKeys (member ms key) := by
  unfold member
  rw [get?_sortMembers hnodup]
  cases ms.get? key with
  | some v => rfl
  | none =>
    rw [Option.map_none, Option.getD_none, sortKeys]
    all_goals simp

omit hnodup in
theorem expectExactKeys_sorted {keys : List Str} (hkeys : ms.keys = keys) (field : Str) :
    expectExactKeys (sortKeys (.object ms)) keys field = .ok (sortMembers ms) := by
  rw [sortKeys, expectExactKeys_eq_ok]
  exact ⟨rfl, sameSet_of_mem fun k => hkeys ▸ (keys_sortMembers ms).mem_iff⟩

end

@[simp] theorem sortKeys_int (n : Int) : sortKeys (.int n) = .int n := by
  rw [sortKeys]
  all_goals simp

@[simp] theorem sortKeys_string (s : Str) : sortKeys (.string s) = .string s := by
  rw [sortKeys]
  all_goals simp

theorem get?_mapValue {m : Dict Str Int} (hnodup : m.keys.Nodup) {p : Str × Int} (hp : p ∈ m) :
    Dict.get? (m.map fun p => (p.1, Value.int p.2)) p.1 = some (.int p.2) := by
  have hkeys := keys_mapValues m Value.int
  exact Dict.get?_of_mem (hkeys ▸ hnodup) (List.mem_map_of_mem hp)

/-- A counter map is read back from its own text. -/
theorem expectCounterMap_sorted {keys : List Str} {m : Dict Str Int} (h : Mapped keys m)
    (hnodup : keys.Nodup) (field : Str) :
    expectCounterMap (sortKeys (mapValue m)) keys field = .ok m := by
  have hm : m.keys.Nodup := h.keys.symm ▸ hnodup
  refine expectCounterMap_eq_ok.2
    ⟨h, sortMembers (m.map fun p => (p.1, Value.int p.2)), ?_, ?_, fun p hp => ?_⟩
  · rw [mapValue, sortKeys]
  · refine sameSet_of_mem fun k => ?_
    rw [(keys_sortMembers _).mem_iff, keys_mapValues m Value.int, h.keys]
  · rw [member_sortMembers (keys_mapValues m Value.int ▸ hm), member, get?_mapValue hm hp, Option.getD_some,
      sortKeys_int]

/-! ## Valid jobs -/

/-- The four equations. -/
structure Section.Closes (c : Section) : Prop where
  execs : c.doorRejects + c.decoded = c.execs
  selected : total c.selected = c.decoded
  applied : ∀ cell ∈ cells, count c.applied cell + count c.notApplied cell = count c.selected cell
  verdicts : total c.verdicts = total c.applied

theorem checkEquations_eq_ok {c : Section} {u : Unit} : checkEquations c = .ok u ↔ c.Closes := by
  unfold checkEquations
  simp only [bind_eq_ok, refuse_eq_ok, ne_eq, not_not, not_exists, not_and, exists_const]
  constructor
  · rintro ⟨hexecs, hselected, happlied, hverdicts⟩
    exact ⟨hexecs, hselected, happlied, hverdicts⟩
  · exact fun h => ⟨h.execs, h.selected, h.applied, h.verdicts⟩

theorem checkJobEquations_eq_ok {c : Section} {u : Unit} :
    checkJobEquations c = .ok u ↔ c.Closes := by
  unfold checkJobEquations
  simp only [bind_eq_ok, refuse_eq_ok, ne_eq, not_not, not_exists, not_and, not_or, exists_const]
  constructor
  · rintro ⟨⟨hexecs, hselected⟩, happlied, hverdicts⟩
    exact ⟨hexecs, hselected, happlied, hverdicts⟩
  · exact fun h => ⟨⟨h.execs, h.selected⟩, h.applied, h.verdicts⟩

/-- What is read of the counters of a job: both sides ask the same of them. -/
structure ReadsSection (counters : Dict Str Value) (c : Section) : Prop where
  execs : member counters (text "execs") = .int c.execs ∧ InRange c.execs
  doorRejects : member counters (text "door_rejects") = .int c.doorRejects ∧ InRange c.doorRejects
  decoded : member counters (text "decoded") = .int c.decoded ∧ InRange c.decoded
  selected : ReadsMap (member counters (text "selected")) cells c.selected
  applied : ReadsMap (member counters (text "applied")) cells c.applied
  notApplied : ReadsMap (member counters (text "not_applied")) cells c.notApplied
  verdicts : ReadsMap (member counters (text "verdicts")) verdicts c.verdicts

section
variable {counters : Dict Str Value} {c : Section}

theorem expectSection_eq_ok : expectSection counters = .ok c ↔ ReadsSection counters c := by
  unfold expectSection expectInt
  simp only [bind_eq_ok, expectBounded_eq_ok, expectCounterMap_eq_ok]
  constructor
  · rintro ⟨_, hexecs, _, hdoor, _, hdecoded, _, hselected, _, happlied, _, hnotApplied, _,
      hverdicts, h⟩
    cases h
    exact ⟨hexecs, hdoor, hdecoded, hselected, happlied, hnotApplied, hverdicts⟩
  · exact fun h => ⟨_, h.execs, _, h.doorRejects, _, h.decoded, _, h.selected, _, h.applied, _,
      h.notApplied, _, h.verdicts, rfl⟩

theorem checkSection_eq_ok : checkSection counters = .ok c ↔ ReadsSection counters c := by
  unfold checkSection expectInt
  simp only [bind_eq_ok, expectBounded_eq_ok, expectCounterMap_eq_ok]
  constructor
  · rintro ⟨_, hselected, _, happlied, _, hnotApplied, _, hverdicts, _, hexecs, _, hdoor, _,
      hdecoded, h⟩
    cases h
    exact ⟨hexecs, hdoor, hdecoded, hselected, happlied, hnotApplied, hverdicts⟩
  · exact fun h => ⟨_, h.selected, _, h.applied, _, h.notApplied, _, h.verdicts, _, h.execs, _,
      h.doorRejects, _, h.decoded, rfl⟩

end

/-- Counters that are in range, complete and close. -/
structure Section.Valid (c : Section) : Prop where
  execs : InRange c.execs
  doorRejects : InRange c.doorRejects
  decoded : InRange c.decoded
  selected : Mapped cells c.selected
  applied : Mapped cells c.applied
  notApplied : Mapped cells c.notApplied
  verdicts : Mapped Telemetry.verdicts c.verdicts
  closes : c.Closes

theorem ReadsSection.valid {counters : Dict Str Value} {c : Section} (h : ReadsSection counters c)
    (hcloses : c.Closes) : c.Valid :=
  ⟨h.execs.2, h.doorRejects.2, h.decoded.2, h.selected.mapped, h.applied.mapped,
    h.notApplied.mapped, h.verdicts.mapped, hcloses⟩

/-- A job that `_check_job` takes. -/
structure Job.Valid (j : Job) : Prop where
  jobIndex : InRange j.jobIndex
  parallelism : 0 ≤ j.parallelism ∧ j.parallelism ≤ maxJobs
  durationNs : 0 ≤ j.durationNs ∧ j.durationNs ≤ maxNanos
  campaign : inVocabulary j.campaign = true
  fuzzer : inVocabulary j.fuzzer = true
  id : inVocabulary j.build.id = true
  compiler : inVocabulary j.build.compiler = true
  sanitizers : inVocabulary j.build.sanitizers = true
  counters : j.counters.Valid

/-- A document that is parsed is a valid job, of its file's index, and one that ran. -/
theorem parseDocument_valid {raw : Value} {n : Nat} {j : Job} (h : parseDocument raw n = .ok j) :
    j.Valid ∧ j.jobIndex = n ∧ 1 ≤ j.parallelism := by
  unfold parseDocument at h
  simp only [bind_eq_ok, refuse_eq_ok, checkEquations_eq_ok, expectInt, expectNanos,
    expectBounded_eq_ok, expectVocabulary_iff, expectSection_eq_ok] at h
  obtain ⟨_, -, _, -, _, -, _, -, _, -, counters, -, jobIndex, hindex, _, hname, parallelism,
    -, _, hjobs, started, hstarted, updated, hupdated, _, horder, c, hsection, _, hcloses,
    campaign, hcampaign, fuzzer, hfuzzer, id, hid, compiler, hcompiler, sanitizers, hsanitizers,
    h⟩ := h
  cases h
  refine ⟨⟨hindex.2, by dsimp only; omega, by dsimp only; omega, hcampaign.2, hfuzzer.2, hid.2,
    hcompiler.2, hsanitizers.2, hsection.valid hcloses⟩, not_not.1 hname, by dsimp only; omega⟩

theorem checkJob_valid {raw : Value} {j : Job} (h : checkJob raw = .ok j) : j.Valid := by
  unfold checkJob at h
  simp only [bind_eq_ok, checkJobEquations_eq_ok, expectInt, expectNanos, expectBounded_eq_ok,
    expectVocabulary_iff, checkSection_eq_ok] at h
  obtain ⟨_, -, counters, -, c, hsection, _, hcloses, _, -, jobIndex, hindex, parallelism,
    hparallelism, durationNs, hduration, campaign, hcampaign, fuzzer, hfuzzer, id, hid, compiler,
    hcompiler, sanitizers, hsanitizers, h⟩ := h
  cases h
  exact ⟨hindex.2, hparallelism.2, hduration.2, hcampaign.2, hfuzzer.2, hid.2, hcompiler.2,
    hsanitizers.2, hsection.valid hcloses⟩

/-! ## A job and its text -/

/-- What is found under each key. -/
theorem Section.member_members (c : Section) :
    member c.members (text "execs") = .int c.execs ∧
      member c.members (text "door_rejects") = .int c.doorRejects ∧
      member c.members (text "decoded") = .int c.decoded ∧
      member c.members (text "selected") = mapValue c.selected ∧
      member c.members (text "applied") = mapValue c.applied ∧
      member c.members (text "not_applied") = mapValue c.notApplied ∧
      member c.members (text "verdicts") = mapValue c.verdicts := by
  simp [Section.members, member, Dict.get?_cons, text]

/-- The counters of a job are read back from their own text. -/
theorem Section.Valid.reads {c : Section} (h : c.Valid) :
    ReadsSection (sortMembers c.members) c := by
  have hnodup : (Dict.keys c.members).Nodup := by
    show counterKeys.Nodup
    simp [counterKeys, text]
  have hmember := member_sortMembers hnodup
  obtain ⟨hexecs, hdoor, hdecoded, hselected, happlied, hnotApplied, hverdicts⟩ :=
    c.member_members
  have hmap : ∀ {keys : List Str} {m : Dict Str Int}, Mapped keys m → keys.Nodup →
      ReadsMap (sortKeys (mapValue m)) keys m := fun hm hkeys =>
    expectCounterMap_eq_ok.1 (expectCounterMap_sorted hm hkeys [])
  refine ⟨?_, ?_, ?_, ?_, ?_, ?_, ?_⟩
  · rw [hmember, hexecs, sortKeys_int]
    exact ⟨rfl, h.execs⟩
  · rw [hmember, hdoor, sortKeys_int]
    exact ⟨rfl, h.doorRejects⟩
  · rw [hmember, hdecoded, sortKeys_int]
    exact ⟨rfl, h.decoded⟩
  · rw [hmember, hselected]
    exact hmap h.selected cells_nodup
  · rw [hmember, happlied]
    exact hmap h.applied cells_nodup
  · rw [hmember, hnotApplied]
    exact hmap h.notApplied cells_nodup
  · rw [hmember, hverdicts]
    exact hmap h.verdicts verdicts_nodup

/-- What is found in the build of a job. -/
theorem Build.member_value (b : Build) : ∃ members, b.value = .object members ∧
    Dict.keys members = buildKeys ∧ member members (text "id") = .string b.id ∧
    member members (text "compiler") = .string b.compiler ∧
    member members (text "sanitizers") = .string b.sanitizers := by
  refine ⟨_, rfl, rfl, ?_⟩
  simp [member, Dict.get?_cons, text]

/-- A valid job is read back from its own text. -/
theorem checkJob_sorted {j : Job} (h : j.Valid) : checkJob (sortKeys j.value) = .ok j := by
  have hkeys : Dict.keys j.members = jobKeys := rfl
  have hnodup : (Dict.keys j.members).Nodup := by
    rw [hkeys]
    simp [jobKeys, text]
  have hbuildNodup : buildKeys.Nodup := by simp [buildKeys, text]
  obtain ⟨build, hvalue, hbuildKeys, hid, hcompiler, hsanitizers⟩ := j.build.member_value
  have hfields : member j.members (text "job_index") = .int j.jobIndex ∧
      member j.members (text "parallelism") = .int j.parallelism ∧
      member j.members (text "duration_ns") = .int j.durationNs ∧
      member j.members (text "campaign") = .string j.campaign ∧
      member j.members (text "fuzzer") = .string j.fuzzer ∧
      member j.members (text "build") = j.build.value ∧
      member j.members (text "counters") = .object j.counters.members := by
    simp [Job.members, member, Dict.get?_cons, text]
  obtain ⟨hindex, hparallelism, hduration, hcampaign, hfuzzer, hof, hcounters⟩ := hfields
  have hmember := member_sortMembers hnodup
  have hsub := member_sortMembers (hbuildKeys.symm ▸ hbuildNodup)
  unfold checkJob
  simp only [bind_eq_ok, checkJobEquations_eq_ok, expectInt, expectNanos, expectBounded_eq_ok,
    expectVocabulary_iff, checkSection_eq_ok]
  refine ⟨_, expectExactKeys_sorted hkeys _, _, ?_, j.counters, h.counters.reads, (),
    h.counters.closes, sortMembers build, ?_, j.jobIndex, ?_, j.parallelism, ?_, j.durationNs, ?_,
    j.campaign, ?_, j.fuzzer, ?_, j.build.id, ?_, j.build.compiler, ?_, j.build.sanitizers, ?_, rfl⟩
  · rw [hmember, hcounters]
    exact expectExactKeys_sorted rfl _
  · rw [hmember, hof, hvalue]
    exact expectExactKeys_sorted hbuildKeys _
  · rw [hmember, hindex, sortKeys_int]
    exact ⟨rfl, h.jobIndex⟩
  · rw [hmember, hparallelism, sortKeys_int]
    exact ⟨rfl, h.parallelism⟩
  · rw [hmember, hduration, sortKeys_int]
    exact ⟨rfl, h.durationNs⟩
  · rw [hmember, hcampaign, sortKeys_string]
    exact ⟨rfl, h.campaign⟩
  · rw [hmember, hfuzzer, sortKeys_string]
    exact ⟨rfl, h.fuzzer⟩
  · rw [hsub, hid, sortKeys_string]
    exact ⟨rfl, h.id⟩
  · rw [hsub, hcompiler, sortKeys_string]
    exact ⟨rfl, h.compiler⟩
  · rw [hsub, hsanitizers, sortKeys_string]
    exact ⟨rfl, h.sanitizers⟩

/-! ## Evidence and its text -/

theorem isScalar_inVocabulary {s : Str} (h : inVocabulary s = true) :
    ∀ c ∈ s, isScalar c = true := by
  have hword : ∀ c, (isAlphanumeric c || c = 46 || c = 95 || c = 43 || c = 45) = true →
      isScalar c = true := by
    intro c hc
    unfold isAlphanumeric at hc
    unfold isScalar
    simp only [Bool.or_eq_true, Bool.and_eq_true, decide_eq_true_eq] at hc ⊢
    omega
  cases s with
  | nil => exact fun c hc => absurd hc List.not_mem_nil
  | cons c cs =>
    simp only [inVocabulary, Bool.and_eq_true, List.all_eq_true] at h
    refine List.forall_mem_cons.2 ⟨hword c ?_, fun d hd => hword d (h.2 d hd)⟩
    simp [h.1.1]

theorem isScalar_cells : ∀ cell ∈ cells, ∀ c ∈ cell, isScalar c = true := fun cell hcell =>
  isScalar_unescaped (unescaped_cells cell hcell)

theorem isScalar_verdicts : ∀ verdict ∈ verdicts, ∀ c ∈ verdict, isScalar c = true :=
  fun verdict hverdict => isScalar_unescaped (unescaped_verdicts verdict hverdict)

theorem plain_mapValue {keys : List Str} {m : Dict Str Int} (hm : m.keys = keys)
    (hnodup : keys.Nodup) (hscalar : ∀ k ∈ keys, ∀ c ∈ k, isScalar c = true) :
    Plain (mapValue m) := by
  unfold mapValue
  rw [Plain, plainMembers_iff]
  refine ⟨fun q hq => ?_, ?_⟩
  · obtain ⟨p, hp, rfl⟩ := List.mem_map.1 hq
    refine ⟨hscalar p.1 (hm ▸ List.mem_map_of_mem hp), ?_⟩
    simp [Plain]
  · have := keys_mapValues m Value.int
    unfold Dict.keys at this
    rw [this, ← Dict.keys, hm]
    exact hnodup

/-- The counters of some sections, each map over its own names. -/
structure Section.Keyed (c : Section) : Prop where
  selected : c.selected.keys = cells
  applied : c.applied.keys = cells
  notApplied : c.notApplied.keys = cells
  verdicts : c.verdicts.keys = Telemetry.verdicts

theorem Section.Keyed.plain {c : Section} (h : c.Keyed) : Plain (.object c.members) := by
  have hselected := plain_mapValue h.selected cells_nodup isScalar_cells
  have happlied := plain_mapValue h.applied cells_nodup isScalar_cells
  have hnotApplied := plain_mapValue h.notApplied cells_nodup isScalar_cells
  have hverdicts := plain_mapValue h.verdicts verdicts_nodup isScalar_verdicts
  simp [Section.members, Plain, PlainMembers, hselected, happlied, hnotApplied, hverdicts, text,
    isScalar]

theorem totalSection_keyed (sections : List Section) : (totalSection sections).Keyed := by
  have hkeys : ∀ (keys : List Str) (maps : List (Dict Str Int)),
      Dict.keys (totalMap keys maps) = keys := by
    intro keys maps
    unfold totalMap Dict.keys
    rw [List.map_map]
    exact List.map_id keys
  exact ⟨hkeys _ _, hkeys _ _, hkeys _ _, hkeys _ _⟩

theorem Build.plain {b : Build} (hid : ∀ c ∈ b.id, isScalar c = true)
    (hcompiler : ∀ c ∈ b.compiler, isScalar c = true)
    (hsanitizers : ∀ c ∈ b.sanitizers, isScalar c = true) : Plain b.value := by
  simp only [Build.value, Plain, PlainMembers]
  refine ⟨⟨?_, hid, ?_, hcompiler, ?_, hsanitizers, trivial⟩, ?_⟩
  · simp [text, isScalar]
  · simp [text, isScalar]
  · simp [text, isScalar]
  · simp [text]

theorem Job.Valid.plain_build {j : Job} (h : j.Valid) : Plain j.build.value :=
  Build.plain (isScalar_inVocabulary h.id) (isScalar_inVocabulary h.compiler)
    (isScalar_inVocabulary h.sanitizers)

theorem Job.Valid.plain {j : Job} (h : j.Valid) : Plain j.value := by
  have hcampaign : Plain (.string j.campaign) := by
    rw [Plain]
    exact isScalar_inVocabulary h.campaign
  have hfuzzer : Plain (.string j.fuzzer) := by
    rw [Plain]
    exact isScalar_inVocabulary h.fuzzer
  have hcounters : Plain (.object j.counters.members) :=
    Section.Keyed.plain ⟨h.counters.selected.keys, h.counters.applied.keys,
      h.counters.notApplied.keys, h.counters.verdicts.keys⟩
  have hkeys : (Dict.keys j.members).Nodup := by
    show jobKeys.Nodup
    simp [jobKeys, text]
  rw [Job.value, Plain]
  refine ⟨?_, hkeys⟩
  simp only [Job.members, PlainMembers, hcampaign, hfuzzer, hcounters, h.plain_build]
  simp [Plain, text, isScalar]

/-- The jobs of the evidence of a shard. -/
structure Jobs (jobs : List Job) : Prop where
  ne_nil : jobs ≠ []
  length_le : jobs.length ≤ maxJobs
  indices : jobs.map (·.jobIndex) = (List.range jobs.length).map (↑)
  valid : ∀ j ∈ jobs, j.Valid

section
variable {jobs : List Job} (hjobs : Jobs jobs) (runId attempt shard : Int) (harness : Str)
  (hharness : ∀ c ∈ harness, isScalar c = true)
include hjobs hharness

theorem Jobs.plain : Plain (evidenceOf runId attempt shard harness jobs).value := by
  have hbuild : Plain (firstBuild jobs).value := by
    obtain ⟨j, rest, rfl⟩ := List.exists_cons_of_ne_nil hjobs.ne_nil
    exact (hjobs.valid j List.mem_cons_self).plain_build
  have hschema : Plain (.string evidenceSchema) := by
    simp [Plain, evidenceSchema, text, isScalar]
  have hlist : Plain (.array (jobs.map Job.value)) := by
    rw [Plain, plainElements_iff]
    intro v hv
    obtain ⟨j, hj, rfl⟩ := List.mem_map.1 hv
    exact (hjobs.valid j hj).plain
  have htotals := (totalSection_keyed (jobs.map (·.counters))).plain
  have hname : Plain (.string harness) := by
    rw [Plain]
    exact hharness
  have hkeys : (Dict.keys (evidenceOf runId attempt shard harness jobs).members).Nodup := by
    show evidenceKeys.Nodup
    simp [evidenceKeys, text]
  rw [Evidence.value, Plain]
  refine ⟨?_, hkeys⟩
  simp only [Evidence.members, evidenceOf, PlainMembers, hbuild, hschema, hlist, htotals, hname]
  simp [Plain, text, isScalar]

/-- What the text of the evidence is read as. -/
theorem Jobs.read_serialize :
    (decodeUtf8 (serialize (evidenceOf runId attempt shard harness jobs))).bind (loads .default) =
      some (sortKeys (evidenceOf runId attempt shard harness jobs).value) := by
  have hplain : Plain (evidenceOf runId attempt shard harness jobs).value := hjobs.plain runId attempt shard harness hharness
  generalize evidenceOf runId attempt shard harness jobs = e at hplain ⊢
  have hsorted := plain_sortKeys _ hplain
  have hascii : IsAscii (dumps compact (sortKeys e.value) ++ [10]) :=
    isAscii_append (isAscii_dumps (by simp [compact, IsAscii]) _ hsorted)
      (isAscii_cons (by decide) isAscii_nil)
  have hbytes : serialize e = encodeAscii (dumps compact (sortKeys e.value) ++ [10]) := by
    unfold serialize encodeAscii
    rw [List.map_append]
    rfl
  rw [hbytes, decodeUtf8_ascii hascii, Option.bind_some]
  exact loads_dumps default_faithful (by simp [compact]) hsorted (by decide)

omit hharness in
/-- The fields of the evidence, where the check looks for them. -/
theorem Jobs.fields :
    ∃ members, sortKeys (evidenceOf runId attempt shard harness jobs).value = .object members ∧
      expectExactKeys (.object members) evidenceKeys (text "evidence") = .ok members ∧
      member members (text "schema") = .string evidenceSchema ∧
      member members (text "run_id") = .int runId ∧
      member members (text "attempt") = .int attempt ∧
      member members (text "shard") = .int shard ∧
      member members (text "harness") = .string harness ∧
      ∃ raws, expectJobs (member members (text "jobs")) = .ok raws ∧ raws.length = jobs.length ∧
        raws.mapM checkJob = .ok jobs := by
  have hkeys : Dict.keys (evidenceOf runId attempt shard harness jobs).members = evidenceKeys := rfl
  have hnodup : (Dict.keys (evidenceOf runId attempt shard harness jobs).members).Nodup := by
    rw [hkeys]
    simp [evidenceKeys, text]
  have hmember := member_sortMembers hnodup
  have hfields : ∀ e : Evidence, member e.members (text "schema") = .string evidenceSchema ∧
      member e.members (text "run_id") = .int e.runId ∧
      member e.members (text "attempt") = .int e.attempt ∧
      member e.members (text "shard") = .int e.shard ∧
      member e.members (text "harness") = .string e.harness ∧
      member e.members (text "jobs") = .array (e.jobs.map Job.value) := by
    intro e
    simp [Evidence.members, member, Dict.get?_cons, text]
  obtain ⟨hschema, hrun, hattempt, hshard, hharness, hlist⟩ :=
    hfields (evidenceOf runId attempt shard harness jobs)
  refine ⟨sortMembers (evidenceOf runId attempt shard harness jobs).members, ?_, ?_, ?_, ?_, ?_, ?_,
    ?_, jobs.map fun j => sortKeys j.value, ?_, List.length_map _, ?_⟩
  · rw [Evidence.value, sortKeys]
  · have := expectExactKeys_sorted hkeys (text "evidence")
    rwa [sortKeys] at this
  · rw [hmember, hschema, sortKeys_string]
  · rw [hmember, hrun, sortKeys_int]
    rfl
  · rw [hmember, hattempt, sortKeys_int]
    rfl
  · rw [hmember, hshard, sortKeys_int]
    rfl
  · rw [hmember, hharness, sortKeys_string]
    rfl
  · rw [hmember, hlist, sortKeys, sortElements_eq_map, List.map_map]
    obtain ⟨j, rest, hj⟩ := List.exists_cons_of_ne_nil hjobs.ne_nil
    show expectJobs (.array (jobs.map _)) = _
    rw [hj]
    rfl
  · rw [List.mapM_map, mapM_eq_ok_iff, List.forall₂_same]
    exact fun j hj => checkJob_sorted (hjobs.valid j hj)

/-- What the check makes of the evidence of a shard: it returns it under its own identifiers, and
takes it under no others. -/
theorem Jobs.check_serialize_iff (floatIs : Str → Int → Bool) {runId' attempt' shard' : Int}
    {harness' : Str} {e : Evidence} :
    check floatIs (serialize (evidenceOf runId attempt shard harness jobs)) runId' attempt' shard'
      harness' = .ok e ↔ (runId' = runId ∧ attempt' = attempt ∧ shard' = shard ∧
        harness' = harness) ∧ e = evidenceOf runId attempt shard harness jobs := by
  obtain ⟨members, hvalue, hexact, hschema, hrun, hattempt, hshard, hname, raws, hraws, hlength,
    hchecked⟩ := hjobs.fields runId attempt shard harness
  have hread := hjobs.read_serialize runId attempt shard harness hharness
  rw [hvalue] at hread
  unfold check
  simp only [hread, need, bind_eq_ok, refuse_eq_ok, Except.ok.injEq, exists_eq_left', hexact,
    hschema, hrun, hattempt, hshard, hname, hraws, hchecked, hlength, isString, isInt,
    decide_eq_true_eq, not_not, exists_const, hjobs.indices]
  constructor
  · rintro ⟨-, ⟨rfl, rfl, rfl⟩, rfl, -, -, -, h⟩
    exact ⟨⟨rfl, rfl, rfl, rfl⟩, (Except.ok.inj h).symm⟩
  · rintro ⟨⟨rfl, rfl, rfl, rfl⟩, rfl⟩
    exact ⟨trivial, ⟨rfl, rfl, rfl⟩, rfl, Nat.not_lt.2 hjobs.length_le, trivial, rfl, rfl⟩

end

/-! ## What is summed up -/

theorem readDirectory_eq_ok {root : Root} {found : List (Nat × List UInt8)}
    (h : readDirectory root = .ok found) :
    found ≠ [] ∧ found.length ≤ maxJobs ∧ found.map (·.1) = List.range found.length := by
  unfold readDirectory at h
  cases root with
  | none => cases h
  | some entries =>
    obtain ⟨⟨unsorted, total⟩, -, h⟩ := bind_eq_ok.1 h
    simp only [bind_eq_ok, refuse_eq_ok, ne_eq, not_not, exists_const] at h
    obtain ⟨hne, hlength, hindices, h⟩ := h
    obtain rfl := Except.ok.inj h
    refine ⟨fun hnil => hne ?_, ?_, hindices⟩
    · rw [← List.length_eq_zero_iff, ← List.length_insertionSort (fun a b => a.1 ≤ b.1) unsorted,
        hnil]
      rfl
    · rw [List.length_insertionSort]
      exact Nat.not_lt.1 hlength

theorem readDocument_eq_ok {file : Nat × List UInt8} {j : Job} :
    readDocument file = .ok j ↔
      ∃ raw, readText file.2 = some raw ∧ parseDocument raw file.1 = .ok j := by
  unfold readDocument
  simp only [bind_eq_ok, need_eq_ok]

/-- The evidence of a directory: its jobs are valid, ran, and are of one build. -/
theorem sanitize_jobs {root : Root} {runId attempt shard : Int} {harness : Str} {e : Evidence}
    (h : sanitize root runId attempt shard harness = .ok e) :
    ∃ jobs, Jobs jobs ∧ (∀ j ∈ jobs, 1 ≤ j.parallelism) ∧
      (jobs.map fun job => ValidateRt4.sortedText job.build.value).dedup.length = 1 ∧
      e = evidenceOf runId attempt shard harness jobs := by
  unfold sanitize at h
  obtain ⟨found, hfound, h⟩ := bind_eq_ok.1 h
  obtain ⟨jobs, hjobs, h⟩ := bind_eq_ok.1 h
  obtain ⟨_, hbuilds, h⟩ := bind_eq_ok.1 h
  obtain ⟨hne, hlength, hindices⟩ := readDirectory_eq_ok hfound
  have hdocument : ∀ file j, readDocument file = .ok j →
      j.Valid ∧ j.jobIndex = (file.1 : Int) ∧ 1 ≤ j.parallelism := by
    intro file j hj
    obtain ⟨raw, -, hparse⟩ := readDocument_eq_ok.1 hj
    exact parseDocument_valid hparse
  have hall := (mapM_eq_ok_iff.1 hjobs).imp fun file j hj => hdocument file j hj
  have hsame : found.length = jobs.length := hall.length_eq
  have hjob : ∀ j ∈ jobs, j.Valid ∧ 1 ≤ j.parallelism := by
    intro j hj
    obtain ⟨file, -, hread⟩ := (mem_mapM_ok hjobs j).1 hj
    obtain ⟨hvalid, -, hran⟩ := hdocument file j hread
    exact ⟨hvalid, hran⟩
  refine ⟨jobs, ⟨fun hnil => hne ?_, hsame ▸ hlength, ?_, fun j hj => (hjob j hj).1⟩,
    fun j hj => (hjob j hj).2, not_not.1 (refuse_eq_ok.1 hbuilds), (Except.ok.inj h).symm⟩
  · rw [← List.length_eq_zero_iff, hsame, hnil]
    rfl
  · have hmap : found.map (fun file => (file.1 : Int)) = jobs.map (·.jobIndex) := by
      rw [← List.forall₂_eq_eq_eq, List.forall₂_map_left_iff, List.forall₂_map_right_iff]
      exact hall.imp fun _ _ hj => hj.2.1.symm
    rw [← hmap, ← hsame, ← hindices, List.map_map]
    rfl

/-- The evidence of a directory passes the check under the identifiers it was summed up for, and
under no others. -/
theorem sanitize_checked_iff (floatIs : Str → Int → Bool) {root : Root} {runId attempt shard : Int}
    {harness : Str} (hharness : ∀ c ∈ harness, isScalar c = true) {e : Evidence}
    (h : sanitize root runId attempt shard harness = .ok e) (runId' attempt' shard' : Int)
    (harness' : Str) (e' : Evidence) :
    check floatIs (serialize e) runId' attempt' shard' harness' = .ok e' ↔
      (runId' = runId ∧ attempt' = attempt ∧ shard' = shard ∧ harness' = harness) ∧ e' = e := by
  obtain ⟨jobs, hjobs, -, -, rfl⟩ := sanitize_jobs h
  exact hjobs.check_serialize_iff runId attempt shard harness hharness floatIs

end MpcHunt.Telemetry
