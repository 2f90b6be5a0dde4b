/-
The promotion gate and the packager over one telemetry directory. The gate
asks more of a campaign and less of its numbers and strings: what it has found
ready, the packager sums up just where the directory keeps the packager's own
bounds (`Packageable`), and then to the same totals.
-/
import MpcHunt.Telemetry.EvidenceOrigin
import MpcHunt.Telemetry.Promotion

namespace MpcHunt.Telemetry

open Digits Json Checks Encoding
open Summary (Root Node)
open ValidateRt4 (Location Report validate)

/-! ## Counters -/

theorem count_eq_of_mem {m : Dict Str Int} (hnodup : m.keys.Nodup) {p : Str × Int} (hp : p ∈ m) :
    count m p.1 = p.2 := by
  unfold count
  rw [Dict.get?_of_mem hnodup hp]
  rfl

theorem total_eq_sum_count {keys : List Str} {m : Dict Str Int} (hkeys : m.keys = keys)
    (hnodup : keys.Nodup) : total m = (keys.map (count m)).sum := by
  have hm : m.keys.Nodup := hkeys ▸ hnodup
  rw [← hkeys, Dict.keys, List.map_map, total]
  refine congrArg List.sum (List.map_congr_left fun p hp => ?_)
  exact (count_eq_of_mem hm hp).symm

theorem mem_count {keys : List Str} {m : Dict Str Int} (hkeys : m.keys = keys)
    (hnodup : keys.Nodup) {key : Str} (hkey : key ∈ keys) : (key, count m key) ∈ m := by
  rw [← hkeys, Dict.keys, List.mem_map] at hkey
  obtain ⟨p, hp, rfl⟩ := hkey
  rw [count_eq_of_mem (hkeys ▸ hnodup) hp]
  exact hp

theorem le_total {m : Dict Str Int} (hnonneg : ∀ p ∈ m, 0 ≤ p.2) {p : Str × Int} (hp : p ∈ m) :
    p.2 ≤ total m := by
  refine List.single_le_sum (fun n hn => ?_) p.2 (List.mem_map_of_mem hp)
  obtain ⟨q, hq, rfl⟩ := List.mem_map.1 hn
  exact hnonneg q hq

/-- A counter map as the gate reads it. -/
structure Read (value : Value) (keys : List Str) (m : Dict Str Int) : Prop where
  same : m.keys = keys
  nonneg : ∀ p ∈ m, 0 ≤ p.2
  members : ∃ members, value = .object members ∧ sameSet (Dict.keys members) keys = true ∧
    ∀ p ∈ m, member members p.1 = .int p.2

theorem gate_expectInt_eq_ok {value : Value} {code : Str} {n : Int}
    (h : ValidateRt4.expectInt value code false = .ok n) : value = .int n ∧ 0 ≤ n := by
  cases value with
  | int m =>
    obtain ⟨hrange, h⟩ := guard_eq_ok.1 h
    obtain rfl := Except.ok.inj h
    simp only [Bool.false_eq_true, if_false] at hrange
    exact ⟨rfl, by omega⟩
  | null | bool | float | string | array | object => cases h

theorem gate_expectCounterMap_read {value : Value} {keys : List Str} {code : Str}
    {m : Dict Str Int} (h : ValidateRt4.expectCounterMap value keys code = .ok m) :
    Read value keys m := by
  obtain ⟨members, hexact, h⟩ := bind_eq_ok.1 h
  have hobject : value = .object members ∧ sameSet (Dict.keys members) keys = true := by
    cases value with
    | object ms =>
      obtain ⟨hset, h⟩ := guard_eq_ok.1 hexact
      obtain rfl := Except.ok.inj h
      exact ⟨rfl, not_not.1 hset⟩
    | null | bool | int | float | string | array => cases hexact
  have hall := mapM_eq_ok_iff.1 h
  have hentry : List.Forall₂ (fun key (p : Str × Int) =>
      key = p.1 ∧ member members p.1 = .int p.2 ∧ 0 ≤ p.2) keys m := by
    refine hall.imp fun key p hp => ?_
    cases hn : ValidateRt4.expectInt (member members key) code false with
    | error e =>
      rw [hn] at hp
      cases hp
    | ok n =>
      rw [hn] at hp
      obtain rfl := Except.ok.inj hp
      exact ⟨rfl, gate_expectInt_eq_ok hn⟩
  have hkeys : keys = m.map Prod.fst := by
    rw [← List.forall₂_eq_eq_eq, List.forall₂_map_right_iff]
    exact hentry.imp fun _ _ hp => hp.1
  have hp : ∀ p ∈ m, member members p.1 = .int p.2 ∧ 0 ≤ p.2 := by
    rw [hkeys, List.forall₂_map_left_iff] at hentry
    exact fun p hp => (List.forall₂_same.1 hentry p hp).2
  exact ⟨hkeys.symm, fun p hpm => (hp p hpm).2, members, hobject.1, hobject.2,
    fun p hpm => (hp p hpm).1⟩

theorem Read.reads {value : Value} {keys : List Str} {m : Dict Str Int} (h : Read value keys m)
    (hmax : ∀ p ∈ m, p.2 ≤ maxCounter) : ReadsMap value keys m :=
  ⟨⟨h.same, fun p hp => ⟨h.nonneg p hp, hmax p hp⟩⟩, h.members⟩

/-- What the gate has read of the counters of a document. -/
structure GateReads (counters : Dict Str Value) (c : Section) : Prop where
  execs : member counters (text "execs") = .int c.execs ∧ 0 ≤ c.execs
  doorRejects : member counters (text "door_rejects") = .int c.doorRejects ∧ 0 ≤ c.doorRejects
  decoded : member counters (text "decoded") = .int c.decoded ∧ 0 ≤ c.decoded
  selected : Read (member counters (text "selected")) cells c.selected
  applied : Read (member counters (text "applied")) cells c.applied
  notApplied : Read (member counters (text "not_applied")) cells c.notApplied
  verdicts : Read (member counters (text "verdicts")) verdicts c.verdicts
  closes : c.Closes

section
variable {counters : Dict Str Value} {c : Section} (h : GateReads counters c)
include h

/-- No counter is above the number of executions. -/
theorem GateReads.le_execs : c.doorRejects ≤ c.execs ∧ c.decoded ≤ c.execs ∧
    (∀ p ∈ c.selected, p.2 ≤ c.execs) ∧ (∀ p ∈ c.applied, p.2 ≤ c.execs) ∧
    (∀ p ∈ c.notApplied, p.2 ≤ c.execs) ∧ ∀ p ∈ c.verdicts, p.2 ≤ c.execs := by
  have hexecs := h.closes.execs
  have hdoor := h.doorRejects.2
  have hdecoded : c.decoded ≤ c.execs := by omega
  have hselected : ∀ p ∈ c.selected, p.2 ≤ c.execs := fun p hp =>
    (le_total h.selected.nonneg hp).trans (h.closes.selected.trans_le hdecoded)
  -- A cell was selected as often as it was applied and not applied together.
  have hcell : ∀ cell ∈ cells, 0 ≤ count c.applied cell ∧ 0 ≤ count c.notApplied cell ∧
      count c.applied cell + count c.notApplied cell = count c.selected cell ∧
      count c.selected cell ≤ c.execs := fun cell hc =>
    ⟨h.applied.nonneg _ (mem_count h.applied.same cells_nodup hc),
      h.notApplied.nonneg _ (mem_count h.notApplied.same cells_nodup hc), h.closes.applied cell hc,
      hselected _ (mem_count h.selected.same cells_nodup hc)⟩
  have hname : ∀ {m : Dict Str Int}, m.keys = cells → ∀ p ∈ m, p.1 ∈ cells ∧ count m p.1 = p.2 :=
    fun hm p hp => ⟨hm ▸ List.mem_map_of_mem hp, count_eq_of_mem (hm ▸ cells_nodup) hp⟩
  have happlied : total c.applied ≤ total c.selected := by
    rw [total_eq_sum_count h.applied.same cells_nodup, total_eq_sum_count h.selected.same cells_nodup]
    refine List.sum_le_sum fun cell hc => ?_
    obtain ⟨-, hnot, hsum, -⟩ := hcell cell hc
    omega
  refine ⟨by have := h.decoded.2; omega, hdecoded, hselected, fun p hp => ?_, fun p hp => ?_,
    fun p hp => ?_⟩
  · obtain ⟨hc, hcount⟩ := hname h.applied.same p hp
    obtain ⟨-, hnot, hsum, hle⟩ := hcell p.1 hc
    omega
  · obtain ⟨hc, hcount⟩ := hname h.notApplied.same p hp
    obtain ⟨hyes, -, hsum, hle⟩ := hcell p.1 hc
    omega
  · have hle := le_total h.verdicts.nonneg hp
    have hverdicts := h.closes.verdicts
    have hsum := h.closes.selected
    omega

theorem GateReads.reads (hmax : c.execs ≤ maxCounter) : ReadsSection counters c := by
  obtain ⟨hdoor, hdecoded, hselected, happlied, hnotApplied, hverdicts⟩ := h.le_execs
  have hbound : ∀ n, n ≤ c.execs → n ≤ maxCounter := fun n hn => hn.trans hmax
  exact ⟨⟨h.execs.1, h.execs.2, hmax⟩, ⟨h.doorRejects.1, h.doorRejects.2, hbound _ hdoor⟩,
    ⟨h.decoded.1, h.decoded.2, hbound _ hdecoded⟩,
    h.selected.reads fun p hp => hbound _ (hselected p hp),
    h.applied.reads fun p hp => hbound _ (happlied p hp),
    h.notApplied.reads fun p hp => hbound _ (hnotApplied p hp),
    h.verdicts.reads fun p hp => hbound _ (hverdicts p hp)⟩

end

/-! ## Documents -/

/-- The number under a key. -/
def numberAt (members : Dict Str Value) (key : Str) : Int :=
  match member members key with
  | .int n => n
  | _ => 0

/-- A counter map is determined by what is under its keys. -/
theorem eq_map_numberAt {members : Dict Str Value} {keys : List Str} {m : Dict Str Int}
    (hkeys : m.keys = keys) (hm : ∀ p ∈ m, member members p.1 = .int p.2) :
    m = keys.map fun key => (key, numberAt members key) := by
  rw [← hkeys, Dict.keys, List.map_map]
  refine (List.map_id m).symm.trans (List.map_congr_left fun p hp => ?_)
  show p = (p.1, numberAt members p.1)
  rw [numberAt, hm p hp]

theorem Read.unique {value : Value} {keys : List Str} {m m' : Dict Str Int}
    (h : Read value keys m) (h' : ReadsMap value keys m') : m' = m := by
  obtain ⟨members, rfl, -, hm⟩ := h.members
  obtain ⟨members', heq, -, hm'⟩ := h'.members
  obtain rfl := Value.object.inj heq
  rw [eq_map_numberAt h.same hm, eq_map_numberAt h'.mapped.keys hm']

/-- The counters of a document, read by both. -/
theorem GateReads.reads_iff {counters : Dict Str Value} {c c' : Section}
    (h : GateReads counters c) : ReadsSection counters c' ↔ c.execs ≤ maxCounter ∧ c' = c := by
  constructor
  · intro h'
    obtain ⟨execs, doorRejects, decoded, selected, applied, notApplied, verdicts⟩ := c'
    have hint : ∀ {key : Str} {m n : Int}, member counters key = .int m →
        member counters key = .int n → n = m := fun hm hn => Value.int.inj (hn.symm.trans hm)
    obtain rfl : execs = c.execs := hint h.execs.1 h'.execs.1
    obtain rfl : doorRejects = c.doorRejects := hint h.doorRejects.1 h'.doorRejects.1
    obtain rfl : decoded = c.decoded := hint h.decoded.1 h'.decoded.1
    obtain rfl : selected = c.selected := h.selected.unique h'.selected
    obtain rfl : applied = c.applied := h.applied.unique h'.applied
    obtain rfl : notApplied = c.notApplied := h.notApplied.unique h'.notApplied
    obtain rfl : verdicts = c.verdicts := h.verdicts.unique h'.verdicts
    exact ⟨h'.execs.2.2, rfl⟩
  · rintro ⟨hmax, rfl⟩
    exact h.reads hmax

/-- A report of the gate that keeps the bounds of the packager. -/
structure ValidateRt4.Report.Packaged (d : Report) : Prop where
  parallelism : d.parallelism ≤ maxJobs
  updated : d.updated ≤ maxNanos
  execs : d.counters.execs ≤ Telemetry.maxCounter
  campaign : inVocabulary d.identity.campaign = true
  fuzzer : inVocabulary d.identity.fuzzer = true
  id : inVocabulary d.build.id = true
  compiler : inVocabulary d.build.compiler = true
  sanitizers : inVocabulary d.build.sanitizers = true

/-- The job of a report. -/
def ValidateRt4.Report.job (d : Report) : Job :=
  ⟨d.jobIndex, d.parallelism, d.updated - d.started, d.identity.campaign, d.identity.fuzzer,
    d.build, d.counters⟩

theorem gate_expectExactKeys_eq_ok {value : Value} {keys : List Str} {code : Str}
    {members : Dict Str Value} (h : ValidateRt4.expectExactKeys value keys code = .ok members)
    (field : Str) : expectExactKeys value keys field = .ok members := by
  cases value with
  | object ms =>
    obtain ⟨hset, h⟩ := guard_eq_ok.1 h
    obtain rfl := Except.ok.inj h
    exact if_neg hset
  | null | bool | int | float | string | array => cases h

theorem gate_expectString_eq_ok {value : Value} {code s : Str}
    (h : ValidateRt4.expectString value code = .ok s) : value = .string s := by
  cases value with
  | string t =>
    obtain ⟨-, h⟩ := guard_eq_ok.1 h
    rw [Except.ok.inj h]
  | null | bool | int | float | array | object => cases h

theorem gate_expectPositive_eq_ok {value : Value} {code : Str} {n : Int}
    (h : ValidateRt4.expectInt value code true = .ok n) : value = .int n ∧ 1 ≤ n := by
  cases value with
  | int m =>
    obtain ⟨hrange, h⟩ := guard_eq_ok.1 h
    obtain rfl := Except.ok.inj h
    simp only [if_true] at hrange
    exact ⟨rfl, by omega⟩
  | null | bool | float | string | array | object => cases h

theorem gate_checkEquations_closes {c : Section} {u : Unit}
    (h : ValidateRt4.checkEquations c = .ok u) : c.Closes := by
  unfold ValidateRt4.checkEquations ValidateRt4.checkedAdd at h
  simp only [bind_eq_ok, refuse_eq_ok, guard_eq_ok, Except.ok.injEq, forM_eq_ok, ne_eq,
    not_not] at h
  obtain ⟨_, ⟨-, rfl⟩, _, hexecs, _, hselected, _, hcells, hverdicts⟩ := h
  refine ⟨hexecs, hselected, fun cell hcell => ?_, hverdicts⟩
  obtain ⟨_, ⟨-, rfl⟩, hsum⟩ := hcells cell hcell
  exact hsum

theorem gate_expectSection_reads {counters : Dict Str Value} {c : Section} {u : Unit}
    (h : ValidateRt4.expectSection counters = .ok c) (hu : ValidateRt4.checkEquations c = .ok u) :
    GateReads counters c := by
  have hcloses := gate_checkEquations_closes hu
  unfold ValidateRt4.expectSection at h
  simp only [bind_eq_ok] at h
  obtain ⟨_, hexecs, _, hdoor, _, hdecoded, _, hselected, _, happlied, _, hnotApplied, _,
    hverdicts, h⟩ := h
  cases h
  exact ⟨gate_expectInt_eq_ok hexecs, gate_expectInt_eq_ok hdoor, gate_expectInt_eq_ok hdecoded,
    gate_expectCounterMap_read hselected, gate_expectCounterMap_read happlied,
    gate_expectCounterMap_read hnotApplied, gate_expectCounterMap_read hverdicts, hcloses⟩

/-- A document that the gate takes, the packager parses just where it keeps the bounds. -/
theorem gate_parseDocument {v : Value} {n : Nat} {d : Report} (hn : (n : Int) ≤ maxCounter)
    (h : ValidateRt4.parseDocument v n = .ok d) (j : Job) :
    parseDocument v n = .ok j ↔ d.Packaged ∧ j = d.job := by
  unfold ValidateRt4.parseDocument at h
  simp only [bind_eq_ok, refuse_eq_ok] at h
  obtain ⟨root, hroot, _, hschema, identity, hidentity, campaign, hcampaign, fuzzer, hfuzzer, build,
    hbuild, id, hid, compiler, hcompiler, sanitizers, hsanitizers, process, hprocess, jobIndex,
    hindex, _, hname, parallelism, hparallelism, started, hstarted, updated, hupdated, _, horder,
    counters, hcounters, c, hc, _, hequations, h⟩ := h
  cases h
  replace hroot := gate_expectExactKeys_eq_ok hroot (text "document")
  replace hidentity := gate_expectExactKeys_eq_ok hidentity (text "identity")
  replace hbuild := gate_expectExactKeys_eq_ok hbuild (text "build")
  replace hprocess := gate_expectExactKeys_eq_ok hprocess (text "process")
  replace hcounters := gate_expectExactKeys_eq_ok hcounters (text "counters")
  obtain rfl := not_not.1 hname
  obtain ⟨hindex, -⟩ := gate_expectInt_eq_ok hindex
  obtain ⟨hparallelism, hran⟩ := gate_expectPositive_eq_ok hparallelism
  obtain ⟨hstarted, hfrom⟩ := gate_expectInt_eq_ok hstarted
  obtain ⟨hupdated, hto⟩ := gate_expectInt_eq_ok hupdated
  have hreads := gate_expectSection_reads hc hequations
  have hcloses := hreads.closes
  unfold parseDocument
  simp only [bind_eq_ok, refuse_eq_ok, checkEquations_eq_ok, expectInt, expectNanos,
    expectBounded_eq_ok, expectVocabulary_iff, expectSection_eq_ok, hroot, hidentity, hbuild,
    hprocess, hcounters, hschema, hindex, hparallelism, hstarted, hupdated,
    gate_expectString_eq_ok hcampaign, gate_expectString_eq_ok hfuzzer, gate_expectString_eq_ok hid,
    gate_expectString_eq_ok hcompiler, gate_expectString_eq_ok hsanitizers, hreads.reads_iff,
    Except.ok.injEq, exists_eq_left', Value.int.injEq, Value.string.injEq]
  constructor
  · rintro ⟨_, -, _, ⟨rfl, -⟩, _, -, _, ⟨rfl, -⟩, _, hjobs, _, ⟨rfl, -⟩, _, ⟨rfl, -, hmax⟩, _, -, _,
      ⟨hexecs, rfl⟩, _, -, _, ⟨rfl, hword⟩, _, ⟨rfl, hword'⟩, _, ⟨rfl, hid'⟩, _, ⟨rfl, hcompiler'⟩, _,
      ⟨rfl, hsanitizers'⟩, h⟩
    exact ⟨⟨by dsimp only; omega, hmax, hexecs, hword, hword', hid', hcompiler', hsanitizers'⟩,
      (Except.ok.inj h).symm⟩
  · rintro ⟨hbounds, rfl⟩
    have hjobs := hbounds.parallelism
    have hlimit : ((maxJobs : Nat) : Int) ≤ maxCounter := by decide
    have hmax := hbounds.updated
    dsimp only at hjobs hmax
    exact ⟨(), not_false, _, ⟨rfl, Int.natCast_nonneg n, hn⟩, (), not_not.2 rfl, _,
      ⟨rfl, by omega, hjobs.trans hlimit⟩, (), by omega, _, ⟨rfl, hfrom, by omega⟩, _, ⟨rfl, hto, hmax⟩,
      (), by omega, _, ⟨hbounds.execs, rfl⟩, (), hcloses, _, ⟨rfl, hbounds.campaign⟩, _,
      ⟨rfl, hbounds.fuzzer⟩, _, ⟨rfl, hbounds.id⟩, _, ⟨rfl, hbounds.compiler⟩, _,
      ⟨rfl, hbounds.sanitizers⟩, rfl⟩

/-! ## Files -/

theorem gate_hooks_le : ValidateRt4.hooks.Le .default := by
  refine ⟨fun ms v h => ?_, fun c v h => by cases h⟩
  unfold ValidateRt4.hooks at h
  dsimp only at h
  split at h
  · next hnodup => exact (default_faithful ms hnodup).trans h
  · cases h

/-- What the gate reads of a file, the packager reads of it too, and the file is not empty. -/
theorem readText_of_gate {bytes : List UInt8} {v : Value} (h : ValidateRt4.readJson bytes = .ok v) :
    readText bytes = some v ∧ bytes ≠ [] := by
  obtain ⟨-, h⟩ := guard_eq_ok.1 h
  cases hread : decodeUtf8 bytes >>= loads ValidateRt4.hooks with
  | none =>
    rw [hread] at h
    cases h
  | some w =>
    rw [hread] at h
    obtain rfl := Except.ok.inj h
    obtain ⟨s, hs, hloads⟩ := Option.bind_eq_some_iff.1 hread
    refine ⟨?_, ?_⟩
    · unfold readText
      rw [hs]
      exact newlines_loads (loads_le gate_hooks_le hloads)
    · rintro rfl
      obtain rfl : [] = s := Option.some.inj hs
      cases hloads

/-- The entry is this file of a job. -/
def IsFile (entry : Str × Node) (file : Nat × List UInt8) : Prop :=
  entry.2 = .regular file.2 ∧ numbered telemetryName entry.1 = some file.1

/-- One entry of the gate's scan. -/
def gateEntry (result : Dict Nat (List UInt8)) (entry : Str × Node) :
    Except Str (Dict Nat (List UInt8)) :=
  match entry.2 with
  | .symlink => .error (text "SYMLINK_ENTRY")
  | .other => .error (text "NON_REGULAR_ENTRY")
  | .regular bytes =>
    match numbered telemetryName entry.1 with
    | none => .error (text "UNEXPECTED_ENTRY")
    | some index =>
      if Dict.has result index then .error (text "DUPLICATE_JOB_INDEX")
      else .ok (result ++ [(index, bytes)])

theorem foldlM_gateEntry {entries : List (Str × Node)} {acc files : Dict Nat (List UInt8)}
    (hacc : acc.keys.Nodup) (h : entries.foldlM gateEntry acc = .ok files) :
    ∃ new, files = acc ++ new ∧ List.Forall₂ IsFile entries new ∧ files.keys.Nodup := by
  induction entries generalizing acc with
  | nil =>
    obtain rfl := Except.ok.inj h
    exact ⟨[], (List.append_nil acc).symm, .nil, hacc⟩
  | cons entry entries ih =>
    rw [List.foldlM_cons] at h
    obtain ⟨mid, hmid, hrest⟩ := bind_eq_ok.1 h
    obtain ⟨name, node⟩ := entry
    unfold gateEntry at hmid
    cases node with
    | symlink => cases hmid
    | other => cases hmid
    | regular bytes =>
      cases hnumber : numbered telemetryName name with
      | none =>
        simp only [hnumber] at hmid
        cases hmid
      | some index =>
        simp only [hnumber] at hmid
        obtain ⟨hfresh, hmid⟩ := guard_eq_ok.1 hmid
        obtain rfl := Except.ok.inj hmid
        have hnew : index ∉ acc.keys := fun hmem => hfresh ((Dict.has_iff acc index).2 hmem)
        have hkeys : (Dict.keys (acc ++ [(index, bytes)])).Nodup := by
          rw [Dict.keys_append]
          exact List.nodup_append.2 ⟨hacc, List.nodup_singleton index, fun k hk k' hk' heq => by
            rw [heq, List.mem_singleton.1 hk'] at hk
            exact hnew hk⟩
        obtain ⟨new, rfl, hfiles, hnodup⟩ := ih hkeys hrest
        exact ⟨(index, bytes) :: new, List.append_assoc _ _ _, .cons ⟨rfl, hnumber⟩ hfiles, hnodup⟩

/-- What the gate's scan finds: a file for each entry, and no index twice. -/
theorem strictRegularFiles_files {entries : List (Str × Node)} {code : Str}
    {files : Dict Nat (List UInt8)}
    (h : ValidateRt4.strictRegularFiles (.directory entries) telemetryName code = .ok files) :
    List.Forall₂ IsFile entries files ∧ files.keys.Nodup := by
  have hfold : entries.foldlM gateEntry [] = .ok files := h
  have hnil : (Dict.keys ([] : Dict Nat (List UInt8))).Nodup := List.nodup_nil
  obtain ⟨new, rfl, hentries, hnodup⟩ := foldlM_gateEntry hnil hfold
  exact ⟨hentries, hnodup⟩

theorem foldlM_readEntry_iff {entries : List (Str × Node)} {files : List (Nat × List UInt8)}
    (h : List.Forall₂ IsFile entries files) {found : List (Nat × List UInt8)} {total : Nat}
    (htotal : total ≤ maxTotalBytes) {acc : Found} :
    entries.foldlM readEntry (found, total) = .ok acc ↔
      (∀ file ∈ files, file.2 ≠ [] ∧ file.2.length ≤ maxFileBytes) ∧
        total + (files.map (·.2.length)).sum ≤ maxTotalBytes ∧
        acc = (found ++ files, total + (files.map (·.2.length)).sum) := by
  induction h generalizing found total with
  | nil =>
    simp only [List.foldlM_nil, List.map_nil, List.sum_nil, List.append_nil, Nat.add_zero]
    constructor
    · intro h
      exact ⟨fun file hfile => absurd hfile List.not_mem_nil, htotal, (Except.ok.inj h).symm⟩
    · rintro ⟨-, -, rfl⟩
      rfl
  | @cons entry file entries files hholds _ ih =>
    obtain ⟨name, node⟩ := entry
    obtain ⟨hnode, hnumber⟩ := hholds
    dsimp only at hnode hnumber
    obtain rfl := hnode
    have hentry : ∀ mid : Found, readEntry (found, total) (name, .regular file.2) = .ok mid ↔
        (file.2 ≠ [] ∧ file.2.length ≤ maxFileBytes) ∧ total + file.2.length ≤ maxTotalBytes ∧
          mid = (found ++ [file], total + file.2.length) := by
      intro mid
      unfold readEntry
      simp only [hnumber, bind_eq_ok, refuse_eq_ok, exists_const, List.length_eq_zero_iff, not_or,
        Nat.not_lt, gt_iff_lt]
      constructor
      · rintro ⟨hne, ⟨hfile, hroom⟩, h⟩
        exact ⟨⟨hne, hfile⟩, hroom, (Except.ok.inj h).symm⟩
      · rintro ⟨⟨hne, hfile⟩, hroom, rfl⟩
        exact ⟨hne, ⟨hfile, hroom⟩, rfl⟩
    rw [List.foldlM_cons, bind_eq_ok, List.forall_mem_cons, List.map_cons, List.sum_cons,
      ← Nat.add_assoc]
    constructor
    · rintro ⟨mid, hmid, hrest⟩
      obtain ⟨hfile, hroom, rfl⟩ := (hentry mid).1 hmid
      obtain ⟨hfiles, hsum, rfl⟩ := (ih hroom).1 hrest
      exact ⟨⟨hfile, hfiles⟩, hsum, by rw [List.append_assoc]; rfl⟩
    · rintro ⟨⟨hfile, hfiles⟩, hsum, rfl⟩
      have hroom : total + file.2.length ≤ maxTotalBytes := by omega
      refine ⟨_, (hentry _).2 ⟨hfile, hroom, rfl⟩, (ih hroom).2 ⟨hfiles, hsum, ?_⟩⟩
      rw [List.append_assoc]
      rfl

/-- The files by their index. -/
def byIndex (files : List (Nat × List UInt8)) : List (Nat × List UInt8) :=
  files.insertionSort fun a b => a.1 ≤ b.1

theorem readDirectory_iff {entries : List (Str × Node)} {files found : List (Nat × List UInt8)}
    (h : List.Forall₂ IsFile entries files) : readDirectory (some entries) = .ok found ↔
      ((∀ file ∈ files, file.2 ≠ [] ∧ file.2.length ≤ maxFileBytes) ∧
        (files.map (·.2.length)).sum ≤ maxTotalBytes) ∧
      (files ≠ [] ∧ files.length ≤ maxJobs ∧
        (byIndex files).map (·.1) = List.range files.length) ∧ found = byIndex files := by
  have hlength : (byIndex files).length = files.length := List.length_insertionSort _ _
  unfold readDirectory
  simp only [bind_eq_ok, foldlM_readEntry_iff h (Nat.zero_le _), refuse_eq_ok, exists_const,
    ne_eq, not_not, Nat.zero_add, List.nil_append]
  constructor
  · rintro ⟨_, ⟨hfiles, hsum, rfl⟩, hne, hfew, hindices, h⟩
    rw [← hlength]
    exact ⟨⟨hfiles, hsum⟩, ⟨hne, hlength ▸ Nat.not_lt.1 hfew, hindices⟩, (Except.ok.inj h).symm⟩
  · rintro ⟨⟨hfiles, hsum⟩, ⟨hne, hfew, hindices⟩, rfl⟩
    rw [← hlength] at hindices
    exact ⟨_, ⟨hfiles, hsum, rfl⟩, hne, Nat.not_lt.2 hfew, hindices, rfl⟩

section
variable {entries : List (Str × Node)} {files : Dict Nat (List UInt8)}
  (h : List.Forall₂ IsFile entries files)
include h

/-- A name of a document is there for each index found, and for no other. -/
theorem documentName_mem_iff (n : Nat) :
    documentName n ∈ entries.map Prod.fst ↔ n ∈ files.keys := by
  induction h with
  | nil => simp [Dict.keys]
  | @cons entry file entries files hfile _ ih =>
    have hname : entry.1 = documentName file.1 := numbered_telemetryName hfile.2
    have hsame : documentName n = entry.1 ↔ n = file.1 := by
      constructor
      · intro heq
        have := numbered_documentName n
        rw [heq, hfile.2] at this
        exact (Option.some.inj this).symm
      · rintro rfl
        exact hname.symm
    rw [List.map_cons, List.mem_cons, ih, hsame]
    exact List.mem_cons.symm

/-- No index is missing just where the sorted indices count up from zero. -/
theorem contiguous_iff :
    (∀ n < entries.length, documentName n ∈ entries.map Prod.fst) ↔
      (byIndex files).map (·.1) = List.range files.length := by
  have hkeys : (byIndex files).map (·.1) = sorted files.keys :=
    List.map_insertionSort (fun a b : Nat × List UInt8 => a.1 ≤ b.1) (· ≤ ·) Prod.fst files
      fun _ _ _ _ => Iff.rfl
  have hlength : files.keys.length = files.length := List.length_map _
  simp only [documentName_mem_iff h, h.length_eq, hkeys]
  constructor
  · intro hall
    have hsub : List.range files.length ⊆ files.keys := fun n hn => hall n (List.mem_range.1 hn)
    have hperm : (List.range files.length).Perm files.keys :=
      (List.nodup_range.subperm hsub).perm_of_length_le (by rw [hlength, List.length_range])
    refine ((List.perm_insertionSort (· ≤ ·) files.keys).trans hperm.symm).eq_of_pairwise'
      (List.pairwise_insertionSort _ _) ?_
    exact List.pairwise_lt_range.imp Nat.le_of_lt
  · intro hsorted n hn
    rw [← mem_sorted, hsorted]
    exact List.mem_range.2 hn

end

/-! ## Totals -/

theorem count_totalMap {keys : List Str} (maps : List (Dict Str Int)) (hnodup : keys.Nodup)
    {key : Str} (hkey : key ∈ keys) :
    count (totalMap keys maps) key = (maps.map (count · key)).sum := by
  have hkeys : Dict.keys (totalMap keys maps) = keys := by
    rw [totalMap, Dict.keys, List.map_map]
    exact List.map_id keys
  exact count_eq_of_mem (p := (key, (maps.map (count · key)).sum)) (hkeys.symm ▸ hnodup)
    (List.mem_map_of_mem hkey)

theorem addMap_totalMap {keys : List Str} {maps : List (Dict Str Int)} {m sum : Dict Str Int}
    (hnodup : keys.Nodup) (h : ValidateRt4.addMap keys (totalMap keys maps) m = .ok sum) :
    sum = totalMap keys (maps ++ [m]) := by
  have hall : List.Forall₂ (fun key (p : Str × Int) =>
      (key, count (totalMap keys maps) key + count m key) = p) keys sum := by
    refine (mapM_eq_ok_iff.1 h).imp fun key p hp => ?_
    unfold ValidateRt4.checkedAdd at hp
    by_cases hover : count (totalMap keys maps) key + count m key > ValidateRt4.maxCounter
    · rw [if_pos hover] at hp
      cases hp
    · rw [if_neg hover] at hp
      exact Except.ok.inj hp
  have hsum : keys.map (fun key => (key, count (totalMap keys maps) key + count m key)) = sum := by
    rw [← List.forall₂_eq_eq_eq, List.forall₂_map_left_iff]
    exact hall
  rw [← hsum]
  refine List.map_congr_left fun key hkey => ?_
  rw [count_totalMap maps hnodup hkey, List.map_append, List.sum_append, List.map_singleton,
    List.sum_singleton]

theorem addSection_totalSection {sections : List Section} {c sum : Section}
    (h : ValidateRt4.addSection (totalSection sections) c = .ok sum) :
    sum = totalSection (sections ++ [c]) := by
  unfold ValidateRt4.addSection at h
  simp only [bind_eq_ok, ValidateRt4.checkedAdd, guard_eq_ok, Except.ok.injEq] at h
  obtain ⟨_, ⟨-, rfl⟩, _, ⟨-, rfl⟩, _, ⟨-, rfl⟩, selected, hselected, applied, happlied, notApplied,
    hnotApplied, verdicts, hverdicts, h⟩ := h
  cases h
  have hmap : ∀ f : Section → Dict Str Int, (sections ++ [c]).map f = sections.map f ++ [f c] :=
    fun f => by rw [List.map_append, List.map_singleton]
  have hint : ∀ f : Section → Int, ((sections ++ [c]).map f).sum = (sections.map f).sum + f c :=
    fun f => by rw [List.map_append, List.sum_append, List.map_singleton, List.sum_singleton]
  rw [addMap_totalMap cells_nodup hselected, addMap_totalMap cells_nodup happlied,
    addMap_totalMap cells_nodup hnotApplied, addMap_totalMap verdicts_nodup hverdicts]
  unfold totalSection
  simp only [hmap, hint]

/-- The totals of the gate are those of the packager. -/
theorem aggregate_eq {documents : List Report} {totals : Section}
    (h : ValidateRt4.aggregate documents = .ok totals) :
    totals = totalSection (documents.map (·.counters)) := by
  have hfold : ∀ {documents : List Report} {sections : List Section},
      documents.foldlM (fun totals d => ValidateRt4.addSection totals d.counters)
        (totalSection sections) = .ok totals →
      totals = totalSection (sections ++ documents.map (·.counters)) := by
    intro documents
    induction documents with
    | nil =>
      intro sections h
      rw [List.map_nil, List.append_nil]
      exact (Except.ok.inj h).symm
    | cons d documents ih =>
      intro sections h
      rw [List.foldlM_cons] at h
      obtain ⟨mid, hmid, hrest⟩ := bind_eq_ok.1 h
      rw [addSection_totalSection hmid] at hrest
      rw [ih hrest, List.append_assoc]
      rfl
  exact @hfold documents [] h

/-! ## The gate and the packager -/

/-- The size of an entry. -/
def entrySize (entry : Str × Node) : Nat :=
  match entry.2 with
  | .regular bytes => bytes.length
  | .symlink => 0
  | .other => 0

/-- The bounds of the packager on a telemetry directory, of which every entry is a document. -/
structure Packageable (entries : List (Str × Node)) : Prop where
  few : entries.length ≤ maxJobs
  contiguous : ∀ n < entries.length, documentName n ∈ entries.map Prod.fst
  sizes : ∀ entry ∈ entries, entrySize entry ≤ maxFileBytes
  total : (entries.map entrySize).sum ≤ maxTotalBytes
  documents : ∀ name bytes n, (name, Node.regular bytes) ∈ entries →
    numbered telemetryName name = some n → ∀ v d, ValidateRt4.readJson bytes = .ok v →
      ValidateRt4.parseDocument v n = .ok d → d.Packaged

/-- The same, file by file. -/
theorem validate_eq_ok {entries : List (Str × Node)} {claims : Location} {ready : ValidateRt4.Ready}
    (h : validate (.directory entries) claims = .ok ready) :
    ∃ (files : Dict Nat (List UInt8)) (documents : List Report),
      List.Forall₂ IsFile entries files ∧ files ≠ [] ∧
      List.Forall₂ (fun file d => ∃ v, ValidateRt4.readJson file.2 = .ok v ∧
        ValidateRt4.parseDocument v file.1 = .ok d) (byIndex files) documents ∧
      (documents.map fun d => ValidateRt4.sortedText d.build.value).dedup.length = 1 ∧
      ready.totals = totalSection (documents.map (·.counters)) ∧ ready.jobs = documents.length := by
  obtain ⟨files, documents, hfiles, hne, hdocuments, hbuilds, htotals, -, hjobs⟩ := validate_reads h
  obtain ⟨hentries, hnodup⟩ := strictRegularFiles_files hfiles
  have hkeys : sorted files.keys = (byIndex files).map (·.1) :=
    (List.map_insertionSort (fun a b : Nat × List UInt8 => a.1 ≤ b.1) (· ≤ ·) Prod.fst files
      fun _ _ _ _ => Iff.rfl).symm
  rw [hkeys, List.mapM_map, mapM_eq_ok_iff] at hdocuments
  have hread : ∀ file ∈ byIndex files, ∀ d : Report, (do
      let document ← ValidateRt4.readJson ((Dict.get? files file.1).getD [])
      ValidateRt4.parseDocument document file.1) = .ok d →
      ∃ v, ValidateRt4.readJson file.2 = .ok v ∧ ValidateRt4.parseDocument v file.1 = .ok d := by
    intro file hfile d hd
    have hmem : (file.1, file.2) ∈ files :=
      (List.perm_insertionSort (fun a b : Nat × List UInt8 => a.1 ≤ b.1) files).mem_iff.1 hfile
    rw [Dict.get?_of_mem hnodup hmem, Option.getD_some] at hd
    exact bind_eq_ok.1 hd
  refine ⟨files, documents, hentries, hne, ?_, hbuilds, aggregate_eq htotals, hjobs⟩
  refine ((List.forall₂_and_left (byIndex files) documents).2 ⟨fun _ hfile => hfile, hdocuments⟩).imp
    fun file d hd => hread file hd.1 d hd.2

section
variable {entries : List (Str × Node)} {files : List (Nat × List UInt8)}
  (h : List.Forall₂ IsFile entries files)
include h

theorem map_entrySize : entries.map entrySize = files.map (·.2.length) := by
  rw [← List.forall₂_eq_eq_eq, List.forall₂_map_left_iff, List.forall₂_map_right_iff]
  refine h.imp fun entry file hfile => ?_
  rw [entrySize, hfile.1]

theorem mem_files_iff {n : Nat} {bytes : List UInt8} : (n, bytes) ∈ files ↔
    ∃ name, (name, Node.regular bytes) ∈ entries ∧ numbered telemetryName name = some n := by
  induction h with
  | nil => simp
  | @cons entry file entries files hfile _ ih =>
    obtain ⟨name, node⟩ := entry
    obtain ⟨index, content⟩ := file
    obtain ⟨rfl, hnumber⟩ := hfile
    simp only [List.mem_cons, ih, Prod.mk.injEq, Node.regular.injEq]
    constructor
    · rintro (⟨rfl, rfl⟩ | ⟨name', hmem, hn⟩)
      · exact ⟨name, .inl ⟨rfl, rfl⟩, hnumber⟩
      · exact ⟨name', .inr hmem, hn⟩
    · rintro ⟨name', ⟨rfl, rfl⟩ | hmem, hn⟩
      · exact .inl ⟨Option.some.inj (hn.symm.trans hnumber), rfl⟩
      · exact .inr ⟨name', hmem, hn⟩

/-- The bounds of the packager on the files found. -/
theorem packageable_iff : Packageable entries ↔
    ((∀ file ∈ files, file.2.length ≤ maxFileBytes) ∧
      (files.map (·.2.length)).sum ≤ maxTotalBytes) ∧
    (files.length ≤ maxJobs ∧ (byIndex files).map (·.1) = List.range files.length) ∧
    ∀ file ∈ files, ∀ v d, ValidateRt4.readJson file.2 = .ok v →
      ValidateRt4.parseDocument v file.1 = .ok d → d.Packaged := by
  have hsizes : (∀ entry ∈ entries, entrySize entry ≤ maxFileBytes) ↔
      ∀ file ∈ files, file.2.length ≤ maxFileBytes := by
    rw [← List.forall_mem_map (P := (· ≤ maxFileBytes)), map_entrySize h, List.forall_mem_map]
  constructor
  · intro hp
    refine ⟨⟨hsizes.1 hp.sizes, map_entrySize h ▸ hp.total⟩,
      ⟨h.length_eq ▸ hp.few, (contiguous_iff h).1 hp.contiguous⟩, fun file hfile v d => ?_⟩
    obtain ⟨name, hmem, hnumber⟩ := (mem_files_iff h).1 hfile
    exact hp.documents name file.2 file.1 hmem hnumber v d
  · rintro ⟨⟨hfiles, hsum⟩, ⟨hfew, hindices⟩, hdocuments⟩
    refine ⟨h.length_eq ▸ hfew, (contiguous_iff h).2 hindices, hsizes.2 hfiles,
      (map_entrySize h).symm ▸ hsum, fun name bytes n hmem hnumber => ?_⟩
    exact hdocuments (n, bytes) ((mem_files_iff h).2 ⟨name, hmem, hnumber⟩)

end

theorem mem_byIndex {files : List (Nat × List UInt8)} {file : Nat × List UInt8} :
    file ∈ byIndex files ↔ file ∈ files :=
  (List.perm_insertionSort (fun a b : Nat × List UInt8 => a.1 ≤ b.1) files).mem_iff

/-- An index that is one of the first eight. -/
theorem index_le {files : List (Nat × List UInt8)} (hfew : files.length ≤ maxJobs)
    (hindices : (byIndex files).map (·.1) = List.range files.length) {file : Nat × List UInt8}
    (hfile : file ∈ files) : (file.1 : Int) ≤ maxCounter := by
  have hmem : file.1 ∈ List.range files.length :=
    hindices ▸ List.mem_map_of_mem (mem_byIndex.2 hfile)
  have hlt := List.mem_range.1 hmem
  have hlimit : ((maxJobs : Nat) : Int) ≤ maxCounter := by decide
  omega

/-- A directory that the gate has found ready is summed up just where it keeps the packager's
bounds, and then to the totals of the gate. -/
theorem gate_packager_iff {entries : List (Str × Node)} {claims : Location}
    {ready : ValidateRt4.Ready} (h : validate (.directory entries) claims = .ok ready)
    (runId attempt shard : Int) (harness : Str) :
    ((∃ e, sanitize (some entries) runId attempt shard harness = .ok e) ↔ Packageable entries) ∧
      ∀ e, sanitize (some entries) runId attempt shard harness = .ok e →
        e.totals = ready.totals ∧ e.jobs.length = ready.jobs := by
  obtain ⟨files, documents, hfiles, hne, hdocuments, hone, htotals, hjobs⟩ := validate_eq_ok h
  have hdirectory := fun found : List (Nat × List UInt8) =>
    show readDirectory (some entries) = .ok found ↔ _ from readDirectory_iff hfiles
  -- What is summed up is packageable.
  have honly : ∀ e, sanitize (some entries) runId attempt shard harness = .ok e →
      Packageable entries := by
    intro e he
    obtain ⟨found, hfound, he⟩ := bind_eq_ok.1 he
    obtain ⟨jobs, hread, -⟩ := bind_eq_ok.1 he
    obtain ⟨⟨hsizes, hsum⟩, ⟨-, hfew, hindices⟩, rfl⟩ := (hdirectory found).1 hfound
    refine (packageable_iff hfiles).2 ⟨⟨fun file hfile => (hsizes file hfile).2, hsum⟩,
      ⟨hfew, hindices⟩, fun file hfile v d hv hd => ?_⟩
    obtain ⟨j, -, hj⟩ := exists_of_mapM_ok hread (mem_byIndex.2 hfile)
    obtain ⟨raw, hraw, hj⟩ := readDocument_eq_ok.1 hj
    obtain rfl := Option.some.inj ((readText_of_gate hv).1.symm.trans hraw)
    exact ((gate_parseDocument (index_le hfew hindices hfile) hd j).1 hj).1
  -- What is packageable is summed up, to the jobs of the documents.
  have hsummed : Packageable entries → sanitize (some entries) runId attempt shard harness =
      .ok (evidenceOf runId attempt shard harness (documents.map Report.job)) := by
    intro hp
    obtain ⟨⟨hsizes, hsum⟩, ⟨hfew, hindices⟩, hpackaged⟩ := (packageable_iff hfiles).1 hp
    have hread : (byIndex files).mapM readDocument = .ok (documents.map Report.job) := by
      rw [mapM_eq_ok_iff, List.forall₂_map_right_iff]
      refine ((List.forall₂_and_left (byIndex files) documents).2
        ⟨fun _ hfile => mem_byIndex.1 hfile, hdocuments⟩).imp fun file d hd => ?_
      obtain ⟨hfile, v, hv, hd⟩ := hd
      exact readDocument_eq_ok.2 ⟨v, (readText_of_gate hv).1,
        (gate_parseDocument (index_le hfew hindices hfile) hd d.job).2
          ⟨hpackaged file hfile v d hv hd, rfl⟩⟩
    have hnonempty : ∀ file ∈ files, file.2 ≠ [] := by
      intro file hfile
      obtain ⟨d, -, v, hv, -⟩ := exists_of_forall₂ hdocuments (mem_byIndex.2 hfile)
      exact (readText_of_gate hv).2
    refine bind_eq_ok.2 ⟨byIndex files, (hdirectory _).2 ⟨⟨fun file hfile =>
      ⟨hnonempty file hfile, hsizes file hfile⟩, hsum⟩, ⟨hne, hfew, hindices⟩, rfl⟩,
      bind_eq_ok.2 ⟨_, hread, bind_eq_ok.2 ⟨(), refuse_eq_ok.2 (not_not.2 ?_), rfl⟩⟩⟩
    rw [List.map_map]
    exact hone
  refine ⟨⟨fun ⟨e, he⟩ => honly e he, fun hp => ⟨_, hsummed hp⟩⟩, fun e he => ?_⟩
  obtain rfl := Except.ok.inj ((hsummed (honly e he)).symm.trans he)
  refine ⟨?_, ?_⟩
  · rw [htotals]
    show totalSection ((documents.map Report.job).map _) = _
    rw [List.map_map]
    rfl
  · rw [hjobs]
    exact List.length_map _

/-! ## One job -/

/-- A job that has applied each cell once, with so many workers. -/
def busyJob (parallelism : Int) : Job :=
  { quietJob parallelism with
    counters := ⟨7, 0, 7, cells.map (·, 1), cells.map (·, 1), cells.map (·, 0),
      verdicts.map fun v => (v, if v = text "CLEAN-SIGN" then 7 else 0)⟩ }

/-- Its telemetry directory. -/
def busyDirectory (parallelism : Int) : List (Str × Node) :=
  [(documentName 0, .regular (busyJob parallelism).bytes)]

theorem busy_ready : (validate (.directory (busyDirectory 9))
    (.directory [(text "job-0", .regular [])])).isOk = true := by
  decide +kernel

theorem busy_parallelism : (do
    let v ← ValidateRt4.readJson (busyJob 9).bytes
    let d ← ValidateRt4.parseDocument v 0
    refuse (d.parallelism ≠ 9) []).isOk = true := by
  decide +kernel

/-- One job of nine workers is ready at the gate, and is never summed up. -/
theorem gate_packager_busy :
    ∃ ready, validate (.directory (busyDirectory 9)) (.directory [(text "job-0", .regular [])]) =
        .ok ready ∧
      ∀ e, sanitize (some (busyDirectory 9)) 100 1 0 (text "cmp_ecdsa_online_r4_tn") ≠ .ok e := by
  obtain ⟨ready, hready⟩ := exists_of_isOk busy_ready
  refine ⟨ready, hready, fun e he => ?_⟩
  have hp := (gate_packager_iff hready 100 1 0 (text "cmp_ecdsa_online_r4_tn")).1.1 ⟨e, he⟩
  obtain ⟨_, hdocument⟩ := exists_of_isOk busy_parallelism
  obtain ⟨v, hv, hdocument⟩ := bind_eq_ok.1 hdocument
  obtain ⟨d, hd, hnine⟩ := bind_eq_ok.1 hdocument
  have hworkers := (hp.documents _ _ 0 (List.mem_singleton.2 rfl) (numbered_documentName 0) v d hv
    hd).parallelism
  rw [not_not.1 (refuse_eq_ok.1 hnine)] at hworkers
  exact absurd hworkers (by decide)

end MpcHunt.Telemetry
