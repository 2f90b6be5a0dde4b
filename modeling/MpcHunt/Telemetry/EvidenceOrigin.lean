/-
Where checked evidence comes from. `check` rebuilds the document it was given
from its jobs, but not from a telemetry directory: what it takes was summed up
from some directory just where every job ran on at least one worker and all
are of one build, which `_check_job` does not ask.
-/
import MpcHunt.Lib.JsonSize
import MpcHunt.Telemetry.EvidenceCheck

namespace MpcHunt.Telemetry

open Digits Json Checks Encoding
open Summary (Root Node)

/-! ## A document of a job -/

def Job.identityMembers (j : Job) : Dict Str Value :=
  [(text "campaign", .string j.campaign), (text "fuzzer", .string j.fuzzer)]

/-- A process that has run from a time on. -/
def Job.processMembers (j : Job) (started : Int) : Dict Str Value :=
  [(text "job_index", .int j.jobIndex), (text "parallelism", .int j.parallelism),
    (text "started_monotonic_ns", .int started),
    (text "updated_monotonic_ns", .int (started + j.durationNs))]

/-- The members of a document that is parsed as the job, where its counters are read as those
of the job. -/
def Job.documentMembers (j : Job) (started : Int) (counters : Dict Str Value) : Dict Str Value :=
  [(text "schema", .string documentSchema), (text "identity", .object j.identityMembers),
    (text "build", j.build.value), (text "process", .object (j.processMembers started)),
    (text "counters", .object counters)]

/-- A process that has run from the time zero on. -/
def Job.document (j : Job) : Value := .object (j.documentMembers 0 j.counters.members)

/-- The file of the job. -/
def Job.bytes (j : Job) : List UInt8 := encodeAscii (dumps compact j.document)

/-- The telemetry directory of some jobs. -/
def directoryOf (jobs : List Job) : Root :=
  some (jobs.map fun j => (documentName j.jobIndex, Node.regular j.bytes))

theorem numbered_documentName (n : Nat) : numbered telemetryName (documentName n) = some n := by
  have hsep : Template.Separated telemetryName := ⟨rfl, trivial⟩
  have hcanonical := decimal_canonical n
  have hfits : Template.Fits telemetryName [decimal n] :=
    ⟨⟨hcanonical.2.1, hcanonical.1⟩, rfl⟩
  have hfill : Template.fill telemetryName [decimal n] = documentName n := by
    unfold documentName
    rw [showInt_natCast]
    simp [telemetryName, Template.fill]
  have hcapture := Template.capture_fill hsep hfits
  rw [hfill] at hcapture
  unfold numbered
  rw [hcapture]
  exact (if_pos hcanonical).trans (congrArg some (value_decimal n))

theorem Section.Valid.plain {c : Section} (h : c.Valid) : Plain (.object c.members) :=
  Section.Keyed.plain ⟨h.selected.keys, h.applied.keys, h.notApplied.keys, h.verdicts.keys⟩

/-- The counters of a job are read from its document. -/
theorem Section.Valid.reads_members {c : Section} (h : c.Valid) : ReadsSection c.members c := by
  have hmap : ∀ {keys : List Str} {m : Dict Str Int}, Mapped keys m → keys.Nodup →
      ReadsMap (mapValue m) keys m := by
    intro keys m hm hnodup
    have hkeys : m.keys.Nodup := hm.keys.symm ▸ hnodup
    refine ⟨hm, _, rfl, ?_, fun p hp => ?_⟩
    · rw [keys_mapValues, hm.keys]
      exact sameSet_refl keys
    · rw [member, get?_mapValue hkeys hp, Option.getD_some]
  obtain ⟨hexecs, hdoor, hdecoded, hselected, happlied, hnotApplied, hverdicts⟩ :=
    c.member_members
  exact ⟨⟨hexecs, h.execs⟩, ⟨hdoor, h.doorRejects⟩, ⟨hdecoded, h.decoded⟩,
    hselected ▸ hmap h.selected cells_nodup, happlied ▸ hmap h.applied cells_nodup,
    hnotApplied ▸ hmap h.notApplied cells_nodup, hverdicts ▸ hmap h.verdicts verdicts_nodup⟩

section
variable {j : Job} (h : j.Valid)
include h

theorem Job.Valid.parse_documentMembers {n : Nat} {started : Int} {counters : Dict Str Value}
    (hindex : j.jobIndex = n) (hran : 1 ≤ j.parallelism) (hfrom : 0 ≤ started)
    (hto : started + j.durationNs ≤ maxNanos) (hkeys : counters.keys = counterKeys)
    (hreads : ReadsSection counters j.counters) :
    parseDocument (.object (j.documentMembers started counters)) n = .ok j := by
  obtain ⟨build, hvalue, hbuildKeys, hid, hcompiler, hsanitizers⟩ := j.build.member_value
  have hsections : member (j.documentMembers started counters) (text "schema") =
        .string documentSchema ∧
      member (j.documentMembers started counters) (text "identity") = .object j.identityMembers ∧
      member (j.documentMembers started counters) (text "build") = j.build.value ∧
      member (j.documentMembers started counters) (text "process") =
        .object (j.processMembers started) ∧
      member (j.documentMembers started counters) (text "counters") = .object counters := by
    simp [Job.documentMembers, member, Dict.get?_cons, text]
  obtain ⟨hschema, hidentity, hbuild, hprocess, hcounters⟩ := hsections
  have hdocument : expectExactKeys (.object (j.documentMembers started counters)) documentKeys
      (text "document") = .ok (j.documentMembers started counters) := expectExactKeys_object rfl _
  have hidentity' : expectExactKeys (.object j.identityMembers) identityKeys (text "identity") =
      .ok j.identityMembers := expectExactKeys_object rfl _
  have hbuild' : expectExactKeys (.object build) buildKeys (text "build") = .ok build :=
    expectExactKeys_object hbuildKeys _
  have hprocess' : expectExactKeys (.object (j.processMembers started)) processKeys
      (text "process") = .ok (j.processMembers started) := expectExactKeys_object rfl _
  have hcounters' : expectExactKeys (.object counters) counterKeys (text "counters") =
      .ok counters := expectExactKeys_object hkeys _
  have hprocessFields : member (j.processMembers started) (text "job_index") = .int j.jobIndex ∧
      member (j.processMembers started) (text "parallelism") = .int j.parallelism ∧
      member (j.processMembers started) (text "started_monotonic_ns") = .int started ∧
      member (j.processMembers started) (text "updated_monotonic_ns") =
        .int (started + j.durationNs) := by
    simp [Job.processMembers, member, Dict.get?_cons, text]
  obtain ⟨hjob, hworkers, hstarted, hupdated⟩ := hprocessFields
  have hidentityFields : member j.identityMembers (text "campaign") = .string j.campaign ∧
      member j.identityMembers (text "fuzzer") = .string j.fuzzer := by
    simp [Job.identityMembers, member, Dict.get?_cons, text]
  obtain ⟨hcampaign, hfuzzer⟩ := hidentityFields
  have hjobs : j.parallelism ≤ maxCounter := h.parallelism.2.trans (by decide)
  have hworkers' : ¬ (j.parallelism < 1 ∨ j.parallelism > maxJobs) := by
    have := h.parallelism.2
    omega
  have hduration := h.durationNs.1
  have hsame : isString (.string documentSchema) documentSchema = true := by simp [isString]
  unfold parseDocument
  simp only [bind_eq_ok, refuse_eq_ok, checkEquations_eq_ok, expectInt, expectNanos,
    expectBounded_eq_ok, expectVocabulary_iff, expectSection_eq_ok]
  refine ⟨_, hdocument, (), not_not.2 (hschema ▸ hsame), _, hidentity ▸ hidentity', _,
    (hbuild.trans hvalue).symm ▸ hbuild', _, hprocess ▸ hprocess', _, hcounters ▸ hcounters', j.jobIndex,
    ⟨hjob, h.jobIndex⟩, (), not_not.2 hindex, j.parallelism, ⟨hworkers, h.parallelism.1, hjobs⟩, (),
    hworkers', started, ⟨hstarted, hfrom, by omega⟩, started + j.durationNs,
    ⟨hupdated, by omega, hto⟩, (), by omega, j.counters, hreads, (), h.counters.closes,
    j.campaign, ⟨hcampaign, h.campaign⟩, j.fuzzer, ⟨hfuzzer, h.fuzzer⟩, j.build.id, ⟨hid, h.id⟩,
    j.build.compiler, ⟨hcompiler, h.compiler⟩, j.build.sanitizers, ⟨hsanitizers, h.sanitizers⟩, ?_⟩
  rw [add_sub_cancel_left]
  rfl

theorem Job.Valid.parse_document {n : Nat} (hindex : j.jobIndex = n) (hran : 1 ≤ j.parallelism) :
    parseDocument j.document n = .ok j := by
  have hto : 0 + j.durationNs ≤ maxNanos := by
    rw [Int.zero_add]
    exact h.durationNs.2
  exact h.parse_documentMembers hindex hran (Int.le_refl 0) hto rfl h.counters.reads_members

theorem Job.Valid.plain_document : Plain j.document := by
  have hidentity : Plain (.object j.identityMembers) := by
    simp only [Job.identityMembers, Plain, PlainMembers]
    refine ⟨⟨?_, isScalar_inVocabulary h.campaign, ?_, isScalar_inVocabulary h.fuzzer, trivial⟩, ?_⟩
    · simp [text, isScalar]
    · simp [text, isScalar]
    · simp [text]
  have hkeys : (Dict.keys (j.documentMembers 0 j.counters.members)).Nodup := by
    show documentKeys.Nodup
    simp [documentKeys, text]
  rw [Job.document, Plain]
  refine ⟨?_, hkeys⟩
  have hprocess : Plain (.object (j.processMembers 0)) := by
    simp [Job.processMembers, Plain, PlainMembers, text, isScalar]
  simp only [Job.documentMembers, PlainMembers, hidentity, hprocess, h.plain_build, h.counters.plain]
  simp [Plain, documentSchema, text, isScalar]

theorem Job.Valid.readText_bytes : readText j.bytes = some j.document := by
  have hascii : IsAscii (dumps compact j.document) :=
    isAscii_dumps (by simp [compact, IsAscii]) _ h.plain_document
  unfold readText Job.bytes
  rw [decodeUtf8_ascii hascii]
  have hloads : loads .default (dumps compact j.document ++ []) = some j.document :=
    loads_dumps default_faithful (by simp [compact]) h.plain_document
      fun c hc => absurd hc List.not_mem_nil
  rw [List.append_nil] at hloads
  exact newlines_loads hloads

end

/-! ## Its size -/

theorem length_string_le {s : Str} (h : inVocabulary s = true) :
    (dumps compact (.string s)).length ≤ 770 := by
  have hword : s.length ≤ 64 := by
    cases s with
    | nil => exact Nat.zero_le _
    | cons c cs =>
      simp only [inVocabulary, Bool.and_eq_true, decide_eq_true_eq] at h
      rw [List.length_cons]
      omega
  rw [dumps]
  have := length_quote_le s
  omega

theorem length_int_le {n : Int} (h0 : 0 ≤ n) (h : n ≤ 2 ^ 60) :
    (dumps compact (.int n)).length ≤ 19 := by
  rw [dumps]
  exact length_showInt_le (by decide) h0 (by omega)

theorem length_counter_le {n : Int} (h : InRange n) : (dumps compact (.int n)).length ≤ 450 := by
  have hmax : n ≤ 2 ^ 60 := h.2.trans (by decide)
  exact (length_int_le h.1 hmax).trans (by decide)

/-- The names in a document, in quotes. -/
theorem length_names : (∀ k ∈ cells, (quote k).length ≤ 40) ∧
    (∀ k ∈ verdicts, (quote k).length ≤ 40) ∧ (∀ k ∈ counterKeys, (quote k).length ≤ 40) ∧
    (∀ k ∈ buildKeys, (quote k).length ≤ 40) ∧ (∀ k ∈ identityKeys, (quote k).length ≤ 40) ∧
    (∀ k ∈ processKeys, (quote k).length ≤ 40) ∧ ∀ k ∈ documentKeys, (quote k).length ≤ 40 := by
  decide

theorem length_mapValue_le {keys : List Str} {m : Dict Str Int} (h : Mapped keys m)
    (hcount : keys.length = 7) (hkeys : ∀ k ∈ keys, (quote k).length ≤ 40) :
    (dumps compact (mapValue m)).length ≤ 450 := by
  have hlength : m.length = 7 := by
    rw [← hcount, ← h.keys, Dict.keys, List.length_map]
  have hbound : (dumps compact (mapValue m)).length ≤
      (m.map fun p => (p.1, Value.int p.2)).length * (40 + 19 + 2) + 2 := by
    refine length_dumps_object_le 40 19 fun q hq => ?_
    obtain ⟨p, hp, rfl⟩ := List.mem_map.1 hq
    have hrange := h.range p hp
    exact ⟨hkeys p.1 (h.keys ▸ List.mem_map_of_mem hp),
      length_int_le hrange.1 (hrange.2.trans (by decide))⟩
  rw [List.length_map, hlength] at hbound
  exact hbound.trans (by decide)

/-- An object whose names are among the names above, from a bound on its values. -/
theorem length_section_le (keys : List Str) (n : Nat) {ms : Dict Str Value} (hkeys : ms.keys = keys)
    (hnames : ∀ k ∈ keys, (quote k).length ≤ 40)
    (hvalues : ∀ v ∈ ms.map Prod.snd, (dumps compact v).length ≤ n) :
    (dumps compact (.object ms)).length ≤ keys.length * (40 + n + 2) + 2 := by
  have hlength : ms.length = keys.length := by
    rw [← hkeys, Dict.keys, List.length_map]
  rw [← hlength]
  exact length_dumps_object_le 40 n fun m hm =>
    ⟨hnames m.1 (hkeys ▸ List.mem_map_of_mem hm), hvalues m.2 (List.mem_map_of_mem hm)⟩

/-- A document is not long. -/
theorem Job.Valid.length_documentMembers {j : Job} (h : j.Valid) {started : Int}
    {counters : Dict Str Value} (hfrom : 0 ≤ started) (hto : started + j.durationNs ≤ maxNanos)
    (hkeys : counters.keys = counterKeys)
    (hvalues : ∀ v ∈ counters.map Prod.snd, (dumps compact v).length ≤ 450) :
    (dumps compact (.object (j.documentMembers started counters))).length ≤ 20000 := by
  obtain ⟨-, -, hcounterKeys, hbuildKeys, hidentityKeys, hprocessKeys, hdocumentKeys⟩ := length_names
  have hduration := h.durationNs.1
  have hcounters : (dumps compact (.object counters)).length ≤ 3446 :=
    (length_section_le counterKeys 450 hkeys hcounterKeys hvalues).trans (by decide)
  have hbuild : (dumps compact j.build.value).length ≤ 3446 := by
    refine (length_section_le buildKeys 770 rfl hbuildKeys ?_).trans (by decide)
    simp only [List.map_cons, List.map_nil, List.forall_mem_cons]
    exact ⟨length_string_le h.id, length_string_le h.compiler, length_string_le h.sanitizers,
      fun v hv => absurd hv List.not_mem_nil⟩
  have hidentity : (dumps compact (.object j.identityMembers)).length ≤ 3446 := by
    refine (length_section_le identityKeys 770 rfl hidentityKeys ?_).trans (by decide)
    simp only [Job.identityMembers, List.map_cons, List.map_nil, List.forall_mem_cons]
    exact ⟨length_string_le h.campaign, length_string_le h.fuzzer,
      fun v hv => absurd hv List.not_mem_nil⟩
  have hprocess : (dumps compact (.object (j.processMembers started))).length ≤ 3446 := by
    refine (length_section_le processKeys 19 rfl hprocessKeys ?_).trans (by decide)
    simp only [Job.processMembers, List.map_cons, List.map_nil, List.forall_mem_cons]
    have hstarted : started ≤ maxNanos := by omega
    exact ⟨length_int_le h.jobIndex.1 (h.jobIndex.2.trans (by decide)),
      length_int_le h.parallelism.1 (h.parallelism.2.trans (by decide)),
      length_int_le hfrom hstarted, length_int_le (by omega) hto,
      fun v hv => absurd hv List.not_mem_nil⟩
  have hschema : (dumps compact (.string documentSchema)).length ≤ 3446 := by decide
  refine (length_section_le documentKeys 3446 rfl hdocumentKeys ?_).trans (by decide)
  simp only [Job.documentMembers, List.map_cons, List.map_nil, List.forall_mem_cons]
  exact ⟨hschema, hidentity, hbuild, hprocess, hcounters, fun v hv => absurd hv List.not_mem_nil⟩

theorem Job.Valid.length_bytes {j : Job} (h : j.Valid) :
    0 < j.bytes.length ∧ j.bytes.length ≤ 20000 := by
  obtain ⟨hcells, hverdicts, -⟩ := length_names
  have hto : 0 + j.durationNs ≤ maxNanos := by
    rw [Int.zero_add]
    exact h.durationNs.2
  have hlength : j.bytes.length = (dumps compact j.document).length := List.length_map _
  rw [hlength]
  refine ⟨?_, h.length_documentMembers (Int.le_refl 0) hto rfl ?_⟩
  · rw [Job.document, dumps]
    exact Nat.succ_pos _
  · simp only [Section.members, List.map_cons, List.map_nil, List.forall_mem_cons]
    exact ⟨length_counter_le h.counters.execs, length_counter_le h.counters.doorRejects,
      length_counter_le h.counters.decoded, length_mapValue_le h.counters.selected rfl hcells,
      length_mapValue_le h.counters.applied rfl hcells,
      length_mapValue_le h.counters.notApplied rfl hcells,
      length_mapValue_le h.counters.verdicts rfl hverdicts,
      fun v hv => absurd hv List.not_mem_nil⟩

/-! ## Its directory -/

/-- The files of some jobs are found where there is room for them. -/
theorem foldlM_readEntry {jobs : List Job} (hvalid : ∀ j ∈ jobs, j.Valid)
    (found : List (Nat × List UInt8)) (total : Nat)
    (hroom : total + 20000 * jobs.length ≤ maxTotalBytes) :
    ∃ total', (jobs.map fun j => (documentName j.jobIndex, Node.regular j.bytes)).foldlM readEntry
        (found, total) = .ok (found ++ jobs.map fun j => (j.jobIndex.toNat, j.bytes), total') := by
  induction jobs generalizing found total with
  | nil => exact ⟨total, by rw [List.map_nil, List.map_nil, List.append_nil]; rfl⟩
  | cons j jobs ih =>
    obtain ⟨hj, hjobs⟩ := List.forall_mem_cons.1 hvalid
    obtain ⟨hpos, hlength⟩ := hj.length_bytes
    rw [List.length_cons] at hroom
    have hindex : documentName j.jobIndex = documentName (j.jobIndex.toNat : Nat) := by
      rw [Int.toNat_of_nonneg hj.jobIndex.1]
    have hfile : ¬ (j.bytes.length > maxFileBytes ∨ total + j.bytes.length > maxTotalBytes) := by
      unfold maxFileBytes
      omega
    have hentry : readEntry (found, total) (documentName j.jobIndex, Node.regular j.bytes) =
        .ok (found ++ [(j.jobIndex.toNat, j.bytes)], total + j.bytes.length) := by
      unfold readEntry
      dsimp only
      rw [hindex, numbered_documentName]
      exact bind_eq_ok.2 ⟨(), refuse_eq_ok.2 (Nat.ne_of_gt hpos), bind_eq_ok.2 ⟨(),
        refuse_eq_ok.2 hfile, rfl⟩⟩
    obtain ⟨total', hrest⟩ := ih hjobs (found ++ [(j.jobIndex.toNat, j.bytes)])
      (total + j.bytes.length) (by omega)
    refine ⟨total', ?_⟩
    rw [List.map_cons, List.foldlM_cons, hentry, List.map_cons]
    refine hrest.trans ?_
    rw [List.append_assoc]
    rfl

/-- Jobs of one build have one text of a build. -/
theorem one_text {jobs : List Job} (hne : jobs ≠ []) {b : Build} (h : ∀ j ∈ jobs, j.build = b) :
    (jobs.map fun job => ValidateRt4.sortedText job.build.value).dedup.length = 1 := by
  have hsame : jobs.map (fun job => ValidateRt4.sortedText job.build.value) =
      List.replicate jobs.length (ValidateRt4.sortedText b.value) := by
    rw [List.eq_replicate_iff, List.length_map]
    refine ⟨rfl, fun s hs => ?_⟩
    obtain ⟨j, hj, rfl⟩ := List.mem_map.1 hs
    rw [h j hj]
  have hlength : jobs.length ≠ 0 := fun h0 => hne (List.length_eq_zero_iff.1 h0)
  rw [hsame, List.replicate_dedup hlength]
  rfl

section
variable {jobs : List Job} (hjobs : Jobs jobs)
include hjobs

theorem Jobs.readDirectory_eq :
    readDirectory (directoryOf jobs) = .ok (jobs.map fun j => (j.jobIndex.toNat, j.bytes)) := by
  have hroom : 0 + 20000 * jobs.length ≤ maxTotalBytes := by
    have := hjobs.length_le
    unfold maxJobs at this
    unfold maxTotalBytes
    omega
  obtain ⟨total, hfold⟩ := foldlM_readEntry hjobs.valid [] 0 hroom
  have hindices : (jobs.map fun j => (j.jobIndex.toNat, j.bytes)).map (·.1) =
      List.range jobs.length := by
    have := congrArg (List.map Int.toNat) hjobs.indices
    rw [List.map_map, List.map_map] at this
    rw [List.map_map]
    exact this.trans (List.map_id _)
  have hsorted : (jobs.map fun j => (j.jobIndex.toNat, j.bytes)).insertionSort
      (fun a b => a.1 ≤ b.1) = jobs.map fun j => (j.jobIndex.toNat, j.bytes) := by
    refine List.Pairwise.insertionSort_eq ?_
    rw [← List.pairwise_map (f := Prod.fst) (R := (· ≤ ·)), hindices]
    exact List.pairwise_lt_range.imp Nat.le_of_lt
  have hne : jobs.map (fun j => (j.jobIndex.toNat, j.bytes)) ≠ [] := by
    simp [hjobs.ne_nil]
  unfold readDirectory directoryOf
  dsimp only
  rw [hfold]
  refine bind_eq_ok.2 ⟨_, rfl, bind_eq_ok.2 ⟨(), refuse_eq_ok.2 hne, bind_eq_ok.2 ⟨(),
    refuse_eq_ok.2 ?_, bind_eq_ok.2 ⟨(), refuse_eq_ok.2 ?_, ?_⟩⟩⟩⟩
  · rw [List.nil_append, List.length_map]
    exact Nat.not_lt.2 hjobs.length_le
  · rw [List.nil_append, hsorted, hindices, List.length_map]
    exact not_not.2 rfl
  · rw [List.nil_append, hsorted]
    rfl

theorem Jobs.sanitize_eq (hran : ∀ j ∈ jobs, 1 ≤ j.parallelism)
    (hbuild : ∀ j ∈ jobs, j.build = firstBuild jobs) (runId attempt shard : Int) (harness : Str) :
    sanitize (directoryOf jobs) runId attempt shard harness =
      .ok (evidenceOf runId attempt shard harness jobs) := by
  have hread : (jobs.map fun j => (j.jobIndex.toNat, j.bytes)).mapM readDocument = .ok jobs := by
    rw [List.mapM_map, mapM_eq_ok_iff, List.forall₂_same]
    intro j hj
    have hvalid := hjobs.valid j hj
    exact readDocument_eq_ok.2 ⟨j.document, hvalid.readText_bytes,
      hvalid.parse_document (Int.toNat_of_nonneg hvalid.jobIndex.1).symm (hran j hj)⟩
  unfold sanitize
  rw [hjobs.readDirectory_eq]
  exact bind_eq_ok.2 ⟨_, rfl, bind_eq_ok.2 ⟨jobs, hread, bind_eq_ok.2 ⟨(),
    refuse_eq_ok.2 (not_not.2 (one_text hjobs.ne_nil hbuild)), rfl⟩⟩⟩

end

/-! ## What the check takes -/

theorem expectJobs_ne_nil {value : Value} {raws : List Value} (h : expectJobs value = .ok raws) :
    raws ≠ [] := by
  unfold expectJobs at h
  split at h
  · obtain rfl := Except.ok.inj h
    exact List.cons_ne_nil _ _
  · cases h

/-- The evidence that the check returns is put together from valid jobs, and is what the file
holds. -/
theorem check_jobs {floatIs : Str → Int → Bool} {bytes : List UInt8} {runId attempt shard : Int}
    {harness : Str} {e : Evidence} (h : check floatIs bytes runId attempt shard harness = .ok e) :
    Jobs e.jobs ∧ e = evidenceOf runId attempt shard harness e.jobs ∧ serialize e = bytes := by
  unfold check at h
  simp only [bind_eq_ok, refuse_eq_ok, ne_eq, not_not, exists_const] at h
  obtain ⟨_, -, _, -, -, -, -, raws, hraws, hmany, jobs, hjobs, hindices, hbytes, h⟩ := h
  obtain rfl := Except.ok.inj h
  have hlength : raws.length = jobs.length := (mapM_eq_ok_iff.1 hjobs).length_eq
  refine ⟨⟨fun hnil => ?_, ?_, hindices, fun j hj => ?_⟩, rfl, hbytes⟩
  · obtain rfl : jobs = [] := hnil
    exact expectJobs_ne_nil hraws (List.length_eq_zero_iff.1 hlength)
  · exact hlength ▸ Nat.not_lt.1 hmany
  · obtain ⟨raw, -, hraw⟩ := (mem_mapM_ok hjobs j).1 hj
    exact checkJob_valid hraw

theorem sortedText_inj {b b' : Build} (h : Plain b.value) (h' : Plain b'.value)
    (heq : ValidateRt4.sortedText b.value = ValidateRt4.sortedText b'.value) : b = b' := by
  have hsorted : sortKeys b.value = sortKeys b'.value :=
    dumps_inj (by simp [spaced, isSpace]) (plain_sortKeys _ h) (plain_sortKeys _ h') heq
  obtain ⟨ms, hvalue, hkeys, hid, hcompiler, hsanitizers⟩ := b.member_value
  obtain ⟨ms', hvalue', hkeys', hid', hcompiler', hsanitizers'⟩ := b'.member_value
  rw [hvalue, hvalue', sortKeys, sortKeys, Value.object.injEq] at hsorted
  have hnodup : buildKeys.Nodup := by simp [buildKeys, text]
  have hmember : ∀ key, sortKeys (member ms key) = sortKeys (member ms' key) := by
    intro key
    rw [← member_sortMembers (hkeys ▸ hnodup), ← member_sortMembers (hkeys' ▸ hnodup), hsorted]
  have h1 := hmember (text "id")
  have h2 := hmember (text "compiler")
  have h3 := hmember (text "sanitizers")
  rw [hid, hid', sortKeys_string, sortKeys_string, Value.string.injEq] at h1
  rw [hcompiler, hcompiler', sortKeys_string, sortKeys_string, Value.string.injEq] at h2
  rw [hsanitizers, hsanitizers', sortKeys_string, sortKeys_string, Value.string.injEq] at h3
  obtain ⟨id, compiler, sanitizers⟩ := b
  obtain ⟨id', compiler', sanitizers'⟩ := b'
  dsimp only at h1 h2 h3
  rw [h1, h2, h3]

/-- Jobs of which the builds are written alike are of one build. -/
theorem Jobs.one_build {jobs : List Job} (hjobs : Jobs jobs)
    (h : (jobs.map fun job => ValidateRt4.sortedText job.build.value).dedup.length = 1) :
    ∀ j ∈ jobs, j.build = firstBuild jobs := by
  obtain ⟨t, ht⟩ := List.length_eq_one_iff.1 h
  have hall : ∀ j ∈ jobs, ValidateRt4.sortedText j.build.value = t := by
    intro j hj
    rw [← List.mem_singleton, ← ht, List.mem_dedup]
    exact List.mem_map_of_mem hj
  obtain ⟨first, rest, rfl⟩ := List.exists_cons_of_ne_nil hjobs.ne_nil
  intro j hj
  exact sortedText_inj (hjobs.valid j hj).plain_build
    (hjobs.valid first List.mem_cons_self).plain_build
    ((hall j hj).trans (hall first List.mem_cons_self).symm)

/-- Of what the check takes, just the evidence of jobs that ran and are of one build is what is
summed up of some telemetry directory. -/
theorem checked_emitted_iff {floatIs : Str → Int → Bool} {bytes : List UInt8}
    {runId attempt shard : Int} {harness : Str} (hharness : ∀ c ∈ harness, isScalar c = true)
    {e : Evidence} (h : check floatIs bytes runId attempt shard harness = .ok e) :
    (∃ root e', sanitize root runId attempt shard harness = .ok e' ∧ serialize e' = bytes) ↔
      ∀ j ∈ e.jobs, j.parallelism ≠ 0 ∧ j.build = e.build := by
  obtain ⟨hjobs, he, hbytes⟩ := check_jobs h
  constructor
  · rintro ⟨root, e', hsanitize, hbytes'⟩
    obtain ⟨jobs, hsummed, hran, hone, rfl⟩ := sanitize_jobs hsanitize
    rw [← hbytes'] at h
    obtain ⟨-, rfl⟩ :=
      (hsummed.check_serialize_iff runId attempt shard harness hharness floatIs).1 h
    intro j hj
    refine ⟨fun h0 => ?_, hsummed.one_build hone j hj⟩
    have := hran j hj
    omega
  · intro hall
    have hran : ∀ j ∈ e.jobs, 1 ≤ j.parallelism := by
      intro j hj
      have hne := (hall j hj).1
      have := (hjobs.valid j hj).parallelism.1
      omega
    have hbuild : ∀ j ∈ e.jobs, j.build = firstBuild e.jobs := by
      intro j hj
      rw [(hall j hj).2]
      exact congrArg Evidence.build he
    refine ⟨directoryOf e.jobs, _, hjobs.sanitize_eq hran hbuild runId attempt shard harness, ?_⟩
    rw [← he, hbytes]

/-! ## One job -/

/-- Counters of a job that counted nothing. -/
def quietSection : Section :=
  ⟨0, 0, 0, ValidateRt4.zeroMap cells, ValidateRt4.zeroMap cells, ValidateRt4.zeroMap cells,
    ValidateRt4.zeroMap verdicts⟩

/-- A job that counted nothing, with so many workers. -/
def quietJob (parallelism : Int) : Job where
  jobIndex := 0
  parallelism
  durationNs := 1
  campaign := text "c"
  fuzzer := text "f"
  build := ⟨text "b", text "c", text "s"⟩
  counters := quietSection

theorem inRange_zero : InRange 0 := ⟨Int.le_refl 0, by decide⟩

theorem mapped_zeroMap (keys : List Str) : Mapped keys (ValidateRt4.zeroMap keys) := by
  refine ⟨?_, fun p hp => ?_⟩
  · rw [ValidateRt4.zeroMap, Dict.keys, List.map_map]
    exact List.map_id keys
  · obtain ⟨key, -, rfl⟩ := List.mem_map.1 hp
    exact inRange_zero

theorem quietSection_valid : quietSection.Valid := by
  have hcloses : quietSection.Closes := ⟨rfl, rfl, by decide, rfl⟩
  exact ⟨inRange_zero, inRange_zero, inRange_zero, mapped_zeroMap _, mapped_zeroMap _,
    mapped_zeroMap _, mapped_zeroMap _, hcloses⟩

theorem quietJob_jobs {n : Int} (h0 : 0 ≤ n) (h : n ≤ maxJobs) : Jobs [quietJob n] := by
  have hduration : (0 : Int) ≤ 1 ∧ (1 : Int) ≤ maxNanos := by decide
  refine ⟨List.cons_ne_nil _ _, show 1 ≤ 8 by decide, rfl, fun j hj => ?_⟩
  rw [List.mem_singleton.1 hj]
  refine ⟨inRange_zero, ⟨h0, h⟩, hduration, ?_, ?_, ?_, ?_, ?_, quietSection_valid⟩
  all_goals simp [quietJob, inVocabulary, isAlphanumeric, text]

/-- The evidence of one quiet job. -/
def quietEvidence (parallelism : Int) : Evidence :=
  evidenceOf 100 1 0 (text "cmp_ecdsa_online_r4_tn") [quietJob parallelism]

theorem quiet_harness : ∀ c ∈ text "cmp_ecdsa_online_r4_tn", isScalar c = true := by
  decide

theorem sanitize_quiet : sanitize (directoryOf [quietJob 1]) 100 1 0 (text "cmp_ecdsa_online_r4_tn") =
    .ok (quietEvidence 1) := by
  refine (quietJob_jobs (by decide) (by decide)).sanitize_eq ?_ ?_ 100 1 0 _
  · simp [quietJob]
  · simp [firstBuild]

/-- Summed up for attempt 1, it is checked for attempt 1 and for no other. -/
theorem sanitize_checked_quiet :
    check (fun _ _ => false) (serialize (quietEvidence 1)) 100 1 0 (text "cmp_ecdsa_online_r4_tn") =
        .ok (quietEvidence 1) ∧
      ∀ e, check (fun _ _ => false) (serialize (quietEvidence 1)) 100 2 0
        (text "cmp_ecdsa_online_r4_tn") ≠ .ok e := by
  have hiff := sanitize_checked_iff (fun _ _ => false) quiet_harness sanitize_quiet
  refine ⟨(hiff 100 1 0 _ _).2 ⟨⟨rfl, rfl, rfl, rfl⟩, rfl⟩, fun e he => ?_⟩
  have := ((hiff 100 2 0 _ e).1 he).1.2.1
  omega

/-- A job with no workers is checked, and no directory is summed up to it. -/
theorem checked_emitted_idle :
    check (fun _ _ => false) (serialize (quietEvidence 0)) 100 1 0 (text "cmp_ecdsa_online_r4_tn") =
        .ok (quietEvidence 0) ∧
      ¬ ∃ root e, sanitize root 100 1 0 (text "cmp_ecdsa_online_r4_tn") = .ok e ∧
        serialize e = serialize (quietEvidence 0) := by
  have hjobs := quietJob_jobs (n := 0) (by decide) (by decide)
  have hcheck := (hjobs.check_serialize_iff 100 1 0 _ quiet_harness fun _ _ => false).2
    ⟨⟨rfl, rfl, rfl, rfl⟩, rfl⟩
  refine ⟨hcheck, fun hemitted => ?_⟩
  have hran := (checked_emitted_iff quiet_harness hcheck).1 hemitted (quietJob 0)
    (List.mem_singleton.2 rfl)
  exact hran.1 rfl

end MpcHunt.Telemetry
