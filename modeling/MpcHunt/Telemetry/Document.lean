/-
The document as a JSON value: what `publish` puts together is what
`json.dumps` writes of it, so every reader of JSON reads it back.
-/
import MpcHunt.Telemetry.JobClaims
import MpcHunt.Lib.JsonLoads

namespace MpcHunt.Telemetry

open Digits Json

/-! ## Strings that need no escape -/

/-- A character that `json.dumps` writes as it is. -/
def unescaped (c : Nat) : Bool := 32 ≤ c && c ≤ 126 && c ≠ 34 && c ≠ 92

theorem escape_unescaped {c : Nat} (h : unescaped c = true) : escape c = [c] := by
  unfold unescaped at h
  simp only [Bool.and_eq_true, decide_eq_true_eq, ne_eq] at h
  unfold escape
  rw [if_neg (by omega), if_neg (by omega), if_neg (by omega), if_neg (by omega),
    if_neg (by omega), if_neg (by omega), if_neg (by omega), if_pos (by omega)]

theorem quote_unescaped {s : Str} (h : s.all unescaped = true) : quote s = quoted s := by
  have hbody : s.flatMap escape = s := by
    induction s with
    | nil => rfl
    | cons c s ih =>
      rw [List.all_cons, Bool.and_eq_true] at h
      rw [List.flatMap_cons, escape_unescaped h.1, ih h.2]
      rfl
  unfold quote quoted
  rw [hbody]
  rfl

theorem isScalar_unescaped {s : Str} (h : s.all unescaped = true) :
    ∀ c ∈ s, isScalar c = true := by
  intro c hc
  have hplain := List.all_eq_true.1 h c hc
  unfold unescaped at hplain
  simp only [Bool.and_eq_true, decide_eq_true_eq] at hplain
  unfold isScalar
  simp only [Bool.or_eq_true, decide_eq_true_eq]
  omega

theorem unescaped_vocabulary {s : Str} (h : vocabulary s = true) : s.all unescaped = true := by
  unfold vocabulary at h
  simp only [Bool.and_eq_true] at h
  refine List.all_eq_true.2 fun c hc => ?_
  have hletter := List.all_eq_true.1 h.2 c hc
  unfold unescaped
  simp only [Bool.or_eq_true, Bool.and_eq_true, decide_eq_true_eq] at hletter ⊢
  omega

theorem unescaped_cells : ∀ cell ∈ cells, cell.all unescaped = true := by
  simp [cells, text, unescaped]

theorem unescaped_verdicts : ∀ verdict ∈ verdicts, verdict.all unescaped = true := by
  simp [verdicts, text, unescaped]

/-! ## Values -/

def CounterMap.value (m : CounterMap) : Value := .object (m.map fun p => (p.1, .int p.2.toNat))

def Counters.value (c : Counters) : Value :=
  .object [(text "execs", .int c.execs.toNat), (text "door_rejects", .int c.doorRejects.toNat),
    (text "decoded", .int c.decoded.toNat), (text "selected", c.selected.value),
    (text "applied", c.applied.value), (text "not_applied", c.notApplied.value),
    (text "verdicts", c.verdicts.value)]

/-- The identity, the same in each document. -/
def identity : Value :=
  .object [(text "campaign", .string (text "reachability_v2_r4")),
    (text "fuzzer", .string (text "opus_cmp_fuzzer_reachability_v2"))]

def Document.buildValue (d : Document) : Value :=
  .object [(text "id", .string d.buildId), (text "compiler", .string d.compiler),
    (text "sanitizers", .string d.sanitizers)]

def Document.processValue (d : Document) : Value :=
  .object [(text "job_index", .int d.jobIndex), (text "parallelism", .int d.parallelism),
    (text "started_monotonic_ns", .int d.startedNs.toNat),
    (text "updated_monotonic_ns", .int d.updatedNs.toNat)]

def Document.value (d : Document) : Value :=
  .object [(text "schema", .string (text "rt4.telemetry/2")), (text "identity", identity),
    (text "build", d.buildValue), (text "process", d.processValue),
    (text "counters", d.counters.value)]

/-- A document of strings of the vocabulary, and of the names of the lists. -/
structure Document.Clean (d : Document) : Prop where
  buildId : vocabulary d.buildId = true
  compiler : vocabulary d.compiler = true
  sanitizers : vocabulary d.sanitizers = true
  counters : d.counters.Keyed

theorem Ready.clean {config : Config} {done : List Call} {s : State} (h : Ready config done s)
    (now : UInt64) : (s.document now).Clean := by
  obtain ⟨calls, -, htally⟩ := h.counters
  obtain ⟨hbuild, hcompiler, hsanitizers⟩ := h.sets.vocabulary
  refine ⟨hbuild, hcompiler, hsanitizers, ?_⟩
  show s.counters.Keyed
  rw [htally]
  exact tally_keyed calls

/-! ## What is written -/

theorem showInt_toNat (n : UInt64) : showInt n.toNat = number n := showInt_natCast n.toNat

theorem emitMap_eq_dumps {m : CounterMap} (h : ∀ k ∈ m.keys, k.all unescaped = true) :
    emitMap m = dumps compact m.value := by
  have hmembers : List.intercalate [44] (m.map fun kv => quoted kv.1 ++ [58] ++ number kv.2) =
      dumpsMembers compact (m.map fun p => (p.1, Value.int p.2.toNat)) := by
    induction m with
    | nil => rfl
    | cons p m ih =>
      have hp : quote p.1 = quoted p.1 := quote_unescaped (h p.1 List.mem_cons_self)
      have hrest := ih fun k hk => h k (List.mem_cons_of_mem _ hk)
      cases m with
      | nil => simp [dumpsMembers, dumps, hp, showInt_toNat, compact, List.intercalate]
      | cons q m =>
        rw [List.map_cons, List.map_cons] at hrest
        rw [List.map_cons, List.map_cons, List.intercalate_cons_cons, hrest, List.map_cons,
          List.map_cons, dumpsMembers, dumps, hp, showInt_toNat]
        simp [compact]
  unfold emitMap CounterMap.value
  rw [dumps, hmembers]
  simp [text]

theorem Counters.Keyed.unescaped {c : Counters} (h : c.Keyed) :
    (∀ k ∈ c.selected.keys, k.all Telemetry.unescaped = true) ∧
      (∀ k ∈ c.applied.keys, k.all Telemetry.unescaped = true) ∧
      (∀ k ∈ c.notApplied.keys, k.all Telemetry.unescaped = true) ∧
      ∀ k ∈ c.verdicts.keys, k.all Telemetry.unescaped = true := by
  rw [h.selected, h.applied, h.notApplied, h.verdicts]
  exact ⟨fun k hk => unescaped_cells k (mem_sorted.1 hk),
    fun k hk => unescaped_cells k (mem_sorted.1 hk),
    fun k hk => unescaped_cells k (mem_sorted.1 hk),
    fun k hk => unescaped_verdicts k (mem_sorted.1 hk)⟩

theorem Counters.render_eq_dumps {c : Counters} (h : c.Keyed) :
    c.render = dumps compact c.value := by
  obtain ⟨hselected, happlied, hnotApplied, hverdicts⟩ := h.unescaped
  unfold Counters.render Counters.value
  rw [emitMap_eq_dumps hselected, emitMap_eq_dumps happlied, emitMap_eq_dumps hnotApplied,
    emitMap_eq_dumps hverdicts]
  simp [dumps, dumpsMembers, compact, quote, escape, text, showInt_toNat]

theorem Document.build_eq_dumps {d : Document} (h : d.Clean) :
    d.build = dumps compact d.buildValue := by
  unfold Document.build Document.buildValue
  rw [← quote_unescaped (unescaped_vocabulary h.buildId),
    ← quote_unescaped (unescaped_vocabulary h.compiler),
    ← quote_unescaped (unescaped_vocabulary h.sanitizers)]
  simp only [dumps, dumpsMembers]
  generalize quote d.buildId = buildId, quote d.compiler = compiler,
    quote d.sanitizers = sanitizers
  simp [compact, quote, escape, text]

theorem Document.process_eq_dumps (d : Document) : d.process = dumps compact d.processValue := by
  unfold Document.process Document.processValue
  simp [dumps, dumpsMembers, compact, quote, escape, text, showInt_toNat]

theorem identity_eq_dumps :
    text "\x7b\"campaign\":\"reachability_v2_r4\"," ++
      text "\"fuzzer\":\"opus_cmp_fuzzer_reachability_v2\"\x7d" = dumps compact identity := by
  simp [identity, dumps, dumpsMembers, compact, quote, escape, text]

/-- What `publish` writes is the text of the value, and a newline. -/
theorem Document.render_eq_dumps {d : Document} (h : d.Clean) :
    d.render = dumps compact d.value ++ [10] := by
  unfold Document.render Document.value
  rw [Counters.render_eq_dumps h.counters, build_eq_dumps h, process_eq_dumps,
    List.append_assoc (text "\x7b\"schema\":\"rt4.telemetry/2\",\"identity\":"), identity_eq_dumps,
    dumps, dumpsMembers, dumpsMembers, dumpsMembers, dumpsMembers, dumpsMembers]
  generalize dumps compact d.buildValue = build, dumps compact d.processValue = process,
    dumps compact d.counters.value = counters, dumps compact identity = identity
  simp [dumps, compact, quote, escape, text]

/-! ## What is read back -/

theorem plain_counterMap {m : CounterMap} {names : List Str} (hkeys : m.keys = sorted names)
    (hnodup : names.Nodup) (hplain : ∀ k ∈ names, k.all unescaped = true) : Plain m.value := by
  have hmembers : ∀ m : CounterMap, (∀ k ∈ m.keys, k.all unescaped = true) →
      PlainMembers (m.map fun p => (p.1, Value.int p.2.toNat)) := by
    intro m hm
    induction m with
    | nil => simp [PlainMembers]
    | cons p m ih =>
      rw [List.map_cons, PlainMembers]
      exact ⟨isScalar_unescaped (hm p.1 List.mem_cons_self), by simp [Plain],
        ih fun k hk => hm k (List.mem_cons_of_mem _ hk)⟩
  unfold CounterMap.value
  rw [Plain]
  refine ⟨hmembers m fun k hk => hplain k ?_, ?_⟩
  · rw [hkeys] at hk
    exact mem_sorted.1 hk
  · rw [List.map_map]
    show (Dict.keys m).Nodup
    rw [hkeys]
    exact nodup_sorted.2 hnodup

theorem cells_nodup : cells.Nodup := by simp [cells, text]

theorem verdicts_nodup : verdicts.Nodup := by simp [verdicts, text]

theorem Counters.Keyed.plain {c : Counters} (h : c.Keyed) : Plain c.value := by
  have hselected := plain_counterMap h.selected cells_nodup unescaped_cells
  have happlied := plain_counterMap h.applied cells_nodup unescaped_cells
  have hnotApplied := plain_counterMap h.notApplied cells_nodup unescaped_cells
  have hverdicts := plain_counterMap h.verdicts verdicts_nodup unescaped_verdicts
  simp [Counters.value, Plain, PlainMembers, hselected, happlied, hnotApplied, hverdicts, text,
    isScalar]

theorem Document.Clean.plain {d : Document} (h : d.Clean) : Plain d.value := by
  have hbuild : Plain d.buildValue := by
    have hid := isScalar_unescaped (unescaped_vocabulary h.buildId)
    have hcompiler := isScalar_unescaped (unescaped_vocabulary h.compiler)
    have hsanitizers := isScalar_unescaped (unescaped_vocabulary h.sanitizers)
    simp only [Document.buildValue, Plain, PlainMembers]
    refine ⟨⟨?_, hid, ?_, hcompiler, ?_, hsanitizers, trivial⟩, ?_⟩
    · simp [text, isScalar]
    · simp [text, isScalar]
    · simp [text, isScalar]
    · simp [text]
  have hprocess : Plain d.processValue := by
    simp [Document.processValue, Plain, PlainMembers, text, isScalar]
  have hidentity : Plain identity := by simp [identity, Plain, PlainMembers, text, isScalar]
  have hcounters := h.counters.plain
  simp [Document.value, Plain, PlainMembers, hidentity, hbuild, hprocess, hcounters, text, isScalar]

/-- Every reader that leaves objects alone reads the value back. -/
theorem Document.loads_render {d : Document} (h : d.Clean) {hooks : Hooks} (hh : hooks.Faithful) :
    loads hooks d.render = some d.value := by
  rw [Document.render_eq_dumps h]
  exact loads_dumps hh (by simp [compact]) h.plain (by decide)

end MpcHunt.Telemetry
