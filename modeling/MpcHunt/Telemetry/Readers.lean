/-
The two readers of telemetry and the counters of a document: both read back
what the recorder has published, as long as it closes and no counter is above
what the readers take.
-/
import MpcHunt.Telemetry.Document
import MpcHunt.Telemetry.ValidateRt4

namespace MpcHunt.Telemetry

open Digits Json Checks Encoding

/-! ## The numbers of a document -/

/-- The counters of some names, as numbers. -/
def CounterMap.numbers (m : CounterMap) (names : List Str) : Dict Str Int :=
  names.map fun name => (name, (m.at name : Int))

/-- What the counters are to a reader. -/
def Counters.numbers (c : Counters) : Section :=
  ⟨c.execs.toNat, c.doorRejects.toNat, c.decoded.toNat, c.selected.numbers cells,
    c.applied.numbers cells, c.notApplied.numbers cells, c.verdicts.numbers Telemetry.verdicts⟩

/-- No counter is above `limit`. -/
structure Counters.Below (limit : Nat) (c : Counters) : Prop where
  execs : c.execs.toNat ≤ limit
  doorRejects : c.doorRejects.toNat ≤ limit
  decoded : c.decoded.toNat ≤ limit
  selected : ∀ cell, c.selected.at cell ≤ limit
  applied : ∀ cell, c.applied.at cell ≤ limit
  notApplied : ∀ cell, c.notApplied.at cell ≤ limit
  verdicts : ∀ verdict, c.verdicts.at verdict ≤ limit

theorem Counters.Below.mono {c : Counters} {m n : Nat} (h : c.Below m) (hmn : m ≤ n) : c.Below n :=
  ⟨h.execs.trans hmn, h.doorRejects.trans hmn, h.decoded.trans hmn,
    fun k => (h.selected k).trans hmn, fun k => (h.applied k).trans hmn,
    fun k => (h.notApplied k).trans hmn, fun k => (h.verdicts k).trans hmn⟩

section
variable {m : CounterMap} {names : List Str}

theorem count_numbers {name : Str} (h : name ∈ names) : count (m.numbers names) name = m.at name := by
  unfold count CounterMap.numbers
  induction names with
  | nil => cases h
  | cons n names ih =>
    rw [List.map_cons, Dict.get?_cons]
    by_cases hn : n = name
    · rw [if_pos hn, hn]
      rfl
    · rw [if_neg hn]
      exact ih ((List.mem_cons.1 h).resolve_left (Ne.symm hn))

theorem total_eq_sum (hnodup : m.keys.Nodup) : m.total = (m.keys.map m.at).sum := by
  induction m with
  | nil => rfl
  | cons p m ih =>
    have hkeys : Dict.keys (p :: m) = p.1 :: Dict.keys m := rfl
    rw [hkeys, List.nodup_cons] at hnodup
    rw [CounterMap.total_cons, ih hnodup.2, hkeys, List.map_cons, List.sum_cons, CounterMap.at_cons,
      if_pos rfl]
    congr 2
    refine List.map_congr_left fun k hk => ?_
    rw [CounterMap.at_cons, if_neg]
    rintro rfl
    exact hnodup.1 hk

theorem total_numbers (hkeys : m.keys = sorted names) (hnodup : names.Nodup) :
    total (m.numbers names) = m.total := by
  have hsorted : m.keys.Nodup := by
    rw [hkeys]
    exact nodup_sorted.2 hnodup
  have hperm : ((sorted names).map m.at).sum = (names.map m.at).sum :=
    ((List.perm_insertionSort (· ≤ ·) names).map _).sum_eq
  unfold total CounterMap.numbers
  rw [total_eq_sum hsorted, hkeys, hperm, List.map_map, Nat.cast_list_sum, List.map_map]
  rfl

/-! ## Members -/

theorem sameSet_refl (xs : List Str) : sameSet xs xs = true := by
  unfold sameSet
  simp

theorem sameSet_sorted (xs : List Str) : sameSet (sorted xs) xs = true := by
  unfold sameSet
  simp

theorem member_value {name : Str} (h : name ∈ m.keys) :
    member (m.map fun p => (p.1, Value.int p.2.toNat)) name = .int (m.at name) := by
  unfold member
  induction m with
  | nil => cases h
  | cons p m ih =>
    rw [List.map_cons, Dict.get?_cons, CounterMap.at_cons]
    by_cases hp : p.1 = name
    · rw [if_pos hp, if_pos hp]
      rfl
    · rw [if_neg hp, if_neg hp]
      exact ih ((List.mem_cons.1 h).resolve_left (Ne.symm hp))

theorem expectInt_ok {n : Nat} (h : n ≤ 2 ^ 40) (field : Str) :
    expectInt (.int n) field = .ok (n : Int) := by
  unfold expectInt expectBounded maxCounter
  exact if_neg (by omega)

theorem gate_expectInt_ok {n : Nat} (h : n < 2 ^ 63) (code : Str) :
    ValidateRt4.expectInt (.int n) code false = .ok (n : Int) := by
  unfold ValidateRt4.expectInt ValidateRt4.maxCounter
  dsimp only
  rw [if_neg (by simp only [Bool.false_eq_true, if_false]; omega)]

theorem expectCounterMap_ok (hkeys : m.keys = sorted names) (h : ∀ name, m.at name ≤ 2 ^ 40)
    (field : Str) : expectCounterMap m.value names field = .ok (m.numbers names) := by
  unfold CounterMap.value expectCounterMap
  dsimp only
  rw [keys_mapValues m fun n => Value.int n.toNat, hkeys, sameSet_sorted, if_neg (by simp)]
  refine mapM_eq_ok fun name hname => ?_
  rw [member_value (hkeys ▸ mem_sorted.2 hname), expectInt_ok (h name)]
  rfl

theorem gate_expectCounterMap_ok (hkeys : m.keys = sorted names) (h : ∀ name, m.at name < 2 ^ 63)
    (code : Str) :
    ValidateRt4.expectCounterMap m.value names code = .ok (m.numbers names) := by
  unfold CounterMap.value ValidateRt4.expectCounterMap ValidateRt4.expectExactKeys
  dsimp only
  rw [keys_mapValues m fun n => Value.int n.toNat, hkeys, sameSet_sorted, if_neg (by simp)]
  refine mapM_eq_ok fun name hname => ?_
  rw [member_value (hkeys ▸ mem_sorted.2 hname), gate_expectInt_ok (h name)]
  rfl

end

/-! ## Sections -/

/-- The members of the counters of a document. -/
def Counters.members (c : Counters) : Dict Str Value :=
  [(text "execs", .int c.execs.toNat), (text "door_rejects", .int c.doorRejects.toNat),
    (text "decoded", .int c.decoded.toNat), (text "selected", c.selected.value),
    (text "applied", c.applied.value), (text "not_applied", c.notApplied.value),
    (text "verdicts", c.verdicts.value)]

/-- What is found under each key. -/
theorem Counters.member_members (c : Counters) :
    member c.members (text "execs") = .int c.execs.toNat ∧
      member c.members (text "door_rejects") = .int c.doorRejects.toNat ∧
      member c.members (text "decoded") = .int c.decoded.toNat ∧
      member c.members (text "selected") = c.selected.value ∧
      member c.members (text "applied") = c.applied.value ∧
      member c.members (text "not_applied") = c.notApplied.value ∧
      member c.members (text "verdicts") = c.verdicts.value := by
  simp [Counters.members, member, Dict.get?_cons, text]

theorem Counters.keys_members (c : Counters) : c.members.keys = counterKeys := rfl

section
variable {c : Counters} (hkeyed : c.Keyed)
include hkeyed

theorem expectSection_ok (h : c.Below (2 ^ 40)) : expectSection c.members = .ok c.numbers := by
  obtain ⟨hexecs, hdoor, hdecoded, hselected, happlied, hnotApplied, hverdicts⟩ := c.member_members
  unfold expectSection
  rw [hexecs, hdoor, hdecoded, hselected, happlied, hnotApplied, hverdicts, expectInt_ok h.execs,
    expectInt_ok h.doorRejects, expectInt_ok h.decoded, expectCounterMap_ok hkeyed.selected h.selected,
    expectCounterMap_ok hkeyed.applied h.applied, expectCounterMap_ok hkeyed.notApplied h.notApplied,
    expectCounterMap_ok hkeyed.verdicts h.verdicts]
  rfl

theorem gate_expectSection_ok (h : c.Below (2 ^ 63 - 1)) :
    ValidateRt4.expectSection c.members = .ok c.numbers := by
  obtain ⟨hexecs, hdoor, hdecoded, hselected, happlied, hnotApplied, hverdicts⟩ := c.member_members
  have hroom : ∀ n : Nat, n ≤ 2 ^ 63 - 1 → n < 2 ^ 63 := by omega
  unfold ValidateRt4.expectSection
  rw [hexecs, hdoor, hdecoded, hselected, happlied, hnotApplied, hverdicts,
    gate_expectInt_ok (hroom _ h.execs), gate_expectInt_ok (hroom _ h.doorRejects),
    gate_expectInt_ok (hroom _ h.decoded),
    gate_expectCounterMap_ok hkeyed.selected fun k => hroom _ (h.selected k),
    gate_expectCounterMap_ok hkeyed.applied fun k => hroom _ (h.applied k),
    gate_expectCounterMap_ok hkeyed.notApplied fun k => hroom _ (h.notApplied k),
    gate_expectCounterMap_ok hkeyed.verdicts fun k => hroom _ (h.verdicts k)]
  rfl

/-- The equations of the counters, as a reader states them. -/
theorem numbers_close (h : c.Closes) :
    c.numbers.doorRejects + c.numbers.decoded = c.numbers.execs ∧
      total c.numbers.selected = c.numbers.decoded ∧
      (∀ cell ∈ cells, count c.numbers.applied cell + count c.numbers.notApplied cell =
        count c.numbers.selected cell) ∧
      total c.numbers.verdicts = total c.numbers.applied := by
  have hselected := total_numbers hkeyed.selected cells_nodup
  have happlied := total_numbers hkeyed.applied cells_nodup
  have hverdicts := total_numbers hkeyed.verdicts verdicts_nodup
  refine ⟨?_, ?_, fun cell hcell => ?_, ?_⟩
  · show (c.doorRejects.toNat : Int) + c.decoded.toNat = c.execs.toNat
    exact_mod_cast h.execs
  · exact hselected.trans (congrArg _ h.selected)
  · show count (c.applied.numbers cells) cell + count (c.notApplied.numbers cells) cell =
      count (c.selected.numbers cells) cell
    rw [count_numbers hcell, count_numbers hcell, count_numbers hcell]
    exact_mod_cast h.applied cell hcell
  · exact hverdicts.trans ((congrArg _ h.verdicts).trans happlied.symm)

theorem checkEquations_ok (h : c.Closes) : checkEquations c.numbers = .ok () := by
  obtain ⟨hexecs, hselected, hcells, hverdicts⟩ := numbers_close hkeyed h
  unfold checkEquations
  refine bind_eq_ok.2 ⟨(), refuse_eq_ok.2 (not_not.2 hexecs), bind_eq_ok.2 ⟨(),
    refuse_eq_ok.2 (not_not.2 hselected), bind_eq_ok.2 ⟨(), refuse_eq_ok.2 fun hbad => ?_,
      refuse_eq_ok.2 (not_not.2 hverdicts)⟩⟩⟩
  obtain ⟨cell, hcell, hne⟩ := hbad
  exact hne (hcells cell hcell)

omit hkeyed in
theorem checkedAdd_ok {left right : Int} (h : left + right ≤ 2 ^ 63 - 1) :
    ValidateRt4.checkedAdd left right = .ok (left + right) := by
  unfold ValidateRt4.checkedAdd ValidateRt4.maxCounter
  exact if_neg (by omega)

theorem gate_checkEquations_ok (h : c.Closes) (hbelow : c.Below (2 ^ 63 - 1)) :
    ValidateRt4.checkEquations c.numbers = .ok () := by
  obtain ⟨hexecs, hselected, hcells, hverdicts⟩ := numbers_close hkeyed h
  have hroom : c.numbers.execs ≤ 2 ^ 63 - 1 := by
    have := hbelow.execs
    show (c.execs.toNat : Int) ≤ _
    omega
  have hcellwise : cells.forM (fun cell => do
      let both ← ValidateRt4.checkedAdd (count c.numbers.applied cell)
        (count c.numbers.notApplied cell)
      refuse (both ≠ count c.numbers.selected cell) (text "APPLICATION_EQUATION")) = .ok () := by
    refine forM_eq_ok.2 fun cell hcell => ?_
    have hsum := hcells cell hcell
    have hcell' : count c.numbers.selected cell ≤ 2 ^ 63 - 1 := by
      have := hbelow.selected cell
      show count (c.selected.numbers cells) cell ≤ _
      rw [count_numbers hcell]
      omega
    exact bind_eq_ok.2 ⟨_, checkedAdd_ok (hsum.symm ▸ hcell'), refuse_eq_ok.2 (not_not.2 hsum)⟩
  unfold ValidateRt4.checkEquations
  exact bind_eq_ok.2 ⟨_, checkedAdd_ok (hexecs.symm ▸ hroom), bind_eq_ok.2 ⟨(),
    refuse_eq_ok.2 (not_not.2 hexecs), bind_eq_ok.2 ⟨(), refuse_eq_ok.2 (not_not.2 hselected),
      bind_eq_ok.2 ⟨(), hcellwise, refuse_eq_ok.2 (not_not.2 hverdicts)⟩⟩⟩⟩

end

/-! ## Whole documents -/

theorem Document.isAscii_render {d : Document} (h : d.Clean) : IsAscii d.render := by
  rw [Document.render_eq_dumps h]
  exact isAscii_append (isAscii_dumps (by simp [compact, IsAscii]) d.value h.plain)
    (isAscii_cons (by decide) isAscii_nil)

/-- `json.loads(path.read_text(encoding="utf-8"))`. -/
def readText (bytes : List UInt8) : Option Value :=
  (decodeUtf8 bytes).bind fun s => loads .default (universalNewlines s)

theorem readText_render {d : Document} (h : d.Clean) :
    readText (encodeAscii d.render) = some d.value := by
  unfold readText
  rw [decodeUtf8_ascii (d.isAscii_render h)]
  exact newlines_loads (Document.loads_render h default_faithful)

theorem gate_hooks_faithful : ValidateRt4.hooks.Faithful := fun _ h => if_pos h

theorem gate_loads_render {d : Document} (h : d.Clean) :
    (decodeUtf8 (encodeAscii d.render)).bind (loads ValidateRt4.hooks) = some d.value := by
  rw [decodeUtf8_ascii (d.isAscii_render h)]
  exact Document.loads_render h gate_hooks_faithful

/-- The counters that both readers take from the bytes of a file. -/
structure ReadsBack (bytes : List UInt8) (c : Section) : Prop where
  evidence : ∃ document counters, readText bytes = some (.object document) ∧
    expectExactKeys (member document (text "counters")) counterKeys (text "counters") =
      .ok counters ∧ expectSection counters = .ok c ∧ checkEquations c = .ok ()
  gate : ∃ document counters,
    (decodeUtf8 bytes).bind (loads ValidateRt4.hooks) = some (.object document) ∧
      ValidateRt4.expectExactKeys (member document (text "counters")) counterKeys
        (text "COUNTERS_SHAPE") = .ok counters ∧
      ValidateRt4.expectSection counters = .ok c ∧ ValidateRt4.checkEquations c = .ok ()

/-- The members of a document. -/
def Document.members (d : Document) : Dict Str Value :=
  [(text "schema", .string (text "rt4.telemetry/2")), (text "identity", identity),
    (text "build", d.buildValue), (text "process", d.processValue),
    (text "counters", d.counters.value)]

/-- What is found under each key. -/
theorem Document.member_members (d : Document) :
    member d.members (text "schema") = .string (text "rt4.telemetry/2") ∧
      member d.members (text "identity") = identity ∧
      member d.members (text "build") = d.buildValue ∧
      member d.members (text "process") = d.processValue ∧
      member d.members (text "counters") = d.counters.value := by
  simp [Document.members, member, Dict.get?_cons, text]

theorem expectExactKeys_object {members : Dict Str Value} {keys : List Str}
    (h : members.keys = keys) (field : Str) :
    expectExactKeys (.object members) keys field = .ok members := by
  have hsame : sameSet (Dict.keys members) keys = true := h ▸ sameSet_refl keys
  exact if_neg (not_not.2 hsame)

theorem gate_expectExactKeys_object {members : Dict Str Value} {keys : List Str}
    (h : members.keys = keys) (code : Str) :
    ValidateRt4.expectExactKeys (.object members) keys code = .ok members := by
  have hsame : sameSet (Dict.keys members) keys = true := h ▸ sameSet_refl keys
  exact if_neg (not_not.2 hsame)

theorem Document.readsBack {d : Document} (h : d.Clean) (hcloses : d.counters.Closes)
    (hbelow : d.counters.Below (2 ^ 40)) : ReadsBack (encodeAscii d.render) d.counters.numbers := by
  have hmember := d.member_members.2.2.2.2
  have hbelow' : d.counters.Below (2 ^ 63 - 1) := hbelow.mono (by omega)
  refine ⟨⟨d.members, d.counters.members, readText_render h, ?_,
    expectSection_ok h.counters hbelow, checkEquations_ok h.counters hcloses⟩,
    ⟨d.members, d.counters.members, gate_loads_render h, ?_,
      gate_expectSection_ok h.counters hbelow', gate_checkEquations_ok h.counters hcloses hbelow'⟩⟩
  · rw [hmember]
    exact expectExactKeys_object d.counters.keys_members _
  · rw [hmember]
    exact gate_expectExactKeys_object d.counters.keys_members _

end MpcHunt.Telemetry
