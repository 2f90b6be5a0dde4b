/-
The counters of `telemetry_v2.cpp`: what each call that records adds to them,
and the four equations that they close after any calls with verdicts of the
list.
-/
import MpcHunt.Lib.Dict
import MpcHunt.Lib.Digits
import MpcHunt.Lib.Json

namespace MpcHunt.Telemetry

open Digits

/-- `CELLS`. -/
def cells : List Str :=
  [text "r1.mta_proofs[victim]|flip_bit", text "r1.mta_proofs[victim]|zero",
    text "r1.mta_proofs[victim]|truncate", text "r4.si|extra_map_key",
    text "dual.schedule|sequential", text "dual.schedule|blocked",
    text "dual.schedule|alternating"]

/-- `VERDICTS`. -/
def verdicts : List Str :=
  [text "CLEAN-SIGN", text "CLEAN-REJECT", text "INVALID-SIGNATURE", text "STATE-CORRUPTION",
    text "CRASH", text "TIMEOUT", text "HARNESS-FAULT"]

/-! ## Maps of counters -/

/-- A `std::map` from names to counters, in the order of its keys. -/
abbrev CounterMap := Dict Str UInt64

/-- Every key at zero. -/
def CounterMap.zero (keys : List Str) : CounterMap := (sorted keys).map fun key => (key, 0)

/-- `++map[key]`. -/
def CounterMap.bump (m : CounterMap) (key : Str) : CounterMap :=
  m.set key ((m.get? key).getD 0 + 1)

/-- `map[key]`, of a key that is there. -/
def CounterMap.at (m : CounterMap) (key : Str) : Nat := ((m.get? key).getD 0).toNat

def CounterMap.total (m : CounterMap) : Nat := (m.map fun p => p.2.toNat).sum

namespace CounterMap

variable {m : CounterMap} {key : Str}

theorem total_cons (p : Str × UInt64) (m : CounterMap) : total (p :: m) = p.2.toNat + total m := rfl

theorem at_cons (p : Str × UInt64) (m : CounterMap) :
    CounterMap.at (p :: m) key = if p.1 = key then p.2.toNat else m.at key := by
  obtain ⟨k, v⟩ := p
  unfold CounterMap.at
  rw [Dict.get?_cons]
  by_cases h : k = key <;> simp [h]

theorem at_le_total : m.at key ≤ m.total := by
  induction m with
  | nil => exact Nat.le_refl 0
  | cons p m ih =>
    rw [at_cons, total_cons]
    by_cases h : p.1 = key
    · rw [if_pos h]
      omega
    · rw [if_neg h]
      omega

theorem total_set (hmem : key ∈ m.keys) (v : UInt64) :
    total (m.set key v) + m.at key = m.total + v.toNat := by
  induction m with
  | nil => cases hmem
  | cons p m ih =>
    obtain ⟨k, u⟩ := p
    rw [at_cons, total_cons]
    by_cases h : k = key
    · rw [Dict.set, if_pos h, if_pos h, total_cons]
      dsimp only
      omega
    · have hmem' : key ∈ Dict.keys m := by
        rcases List.mem_cons.1 hmem with hk | hk
        · exact absurd hk.symm h
        · exact hk
      rw [Dict.set, if_neg h, if_neg h, total_cons]
      have := ih hmem'
      omega

theorem at_bump_self (hroom : m.at key + 1 < 2 ^ 64) : (m.bump key).at key = m.at key + 1 := by
  unfold bump CounterMap.at at *
  rw [Dict.get?_set_self, Option.getD_some, UInt64.toNat_add]
  exact Nat.mod_eq_of_lt hroom

theorem at_bump_other {key' : Str} (h : key' ≠ key) : (m.bump key).at key' = m.at key' := by
  unfold bump CounterMap.at
  rw [Dict.get?_set_other _ h]

theorem total_bump (hmem : key ∈ m.keys) (hroom : m.at key + 1 < 2 ^ 64) :
    (m.bump key).total = m.total + 1 := by
  have hset := total_set hmem ((m.get? key).getD 0 + 1)
  have hv : ((m.get? key).getD 0 + 1).toNat = m.at key + 1 := by
    rw [UInt64.toNat_add]
    exact Nat.mod_eq_of_lt hroom
  rw [hv] at hset
  unfold bump
  omega

theorem keys_bump (hmem : key ∈ m.keys) : (m.bump key).keys = m.keys := Dict.keys_set_of_mem hmem _

theorem keys_zero (keys : List Str) : (zero keys).keys = sorted keys := by
  unfold zero Dict.keys
  rw [List.map_map]
  exact List.map_id _

theorem total_zero (keys : List Str) : (zero keys).total = 0 := by
  unfold zero total
  rw [List.map_map]
  exact List.sum_eq_zero fun n hn => by
    obtain ⟨_, -, rfl⟩ := List.mem_map.1 hn
    rfl

theorem at_zero (keys : List Str) : (zero keys).at key = 0 :=
  Nat.le_zero.1 (total_zero keys ▸ at_le_total)

end CounterMap

/-! ## Counters -/

structure Counters where
  execs : UInt64 := 0
  doorRejects : UInt64 := 0
  decoded : UInt64 := 0
  selected : CounterMap := []
  applied : CounterMap := []
  notApplied : CounterMap := []
  verdicts : CounterMap := []

/-- The counters `configure` leaves. -/
def Counters.zero : Counters :=
  ⟨0, 0, 0, .zero cells, .zero cells, .zero cells, .zero Telemetry.verdicts⟩

/-- What `record_door_reject` counts. -/
def Counters.rejectAtDoor (c : Counters) : Counters :=
  { c with execs := c.execs + 1, doorRejects := c.doorRejects + 1 }

/-- What `record_case` counts of a case before it looks at what became of it. -/
def Counters.decode (c : Counters) (cell : Str) : Counters :=
  { c with execs := c.execs + 1, decoded := c.decoded + 1, selected := c.selected.bump cell }

/-- What it counts of a case that was applied. -/
def Counters.apply (c : Counters) (cell verdict : Str) : Counters :=
  { c with applied := c.applied.bump cell, verdicts := c.verdicts.bump verdict }

/-- What it counts of one that was not. -/
def Counters.skip (c : Counters) (cell : Str) : Counters :=
  { c with notApplied := c.notApplied.bump cell }

/-- The calls that record. -/
inductive Call where
  | doorReject
  | case (cellKey : Option Str) (wasApplied : Bool) (verdict : Option Str)

/-- What a call counts. A case is counted before its verdict is looked up. -/
def Counters.record (c : Counters) : Call → Counters
  | .doorReject => c.rejectAtDoor
  | .case none _ _ => c
  | .case (some cell) wasApplied verdict =>
    if ¬ c.selected.has cell then c
    else if wasApplied then
      match verdict with
      | none => c.decode cell
      | some verdict =>
        if ¬ c.verdicts.has verdict then c.decode cell else (c.decode cell).apply cell verdict
    else (c.decode cell).skip cell

/-- The counters after some calls. -/
def tally (calls : List Call) : Counters := calls.foldl Counters.record .zero

/-- The four equations. -/
structure Counters.Closes (c : Counters) : Prop where
  execs : c.doorRejects.toNat + c.decoded.toNat = c.execs.toNat
  selected : c.selected.total = c.decoded.toNat
  applied : ∀ cell ∈ cells, c.applied.at cell + c.notApplied.at cell = c.selected.at cell
  verdicts : c.verdicts.total = c.applied.total

/-- The keys of each map are the names of its list. -/
structure Counters.Keyed (c : Counters) : Prop where
  selected : c.selected.keys = sorted cells
  applied : c.applied.keys = sorted cells
  notApplied : c.notApplied.keys = sorted cells
  verdicts : c.verdicts.keys = sorted Telemetry.verdicts

/-- Counters that close after `n` cases and rejections. -/
structure Counters.Tallied (n : Nat) (c : Counters) : Prop where
  closes : c.Closes
  execs : c.execs.toNat = n
  total : c.applied.total ≤ n

namespace Counters

variable {c : Counters} {n : Nat}

theorem zero_keyed : zero.Keyed :=
  ⟨CounterMap.keys_zero cells, CounterMap.keys_zero cells, CounterMap.keys_zero cells,
    CounterMap.keys_zero Telemetry.verdicts⟩

theorem Keyed.has_selected (h : c.Keyed) {cell : Str} :
    c.selected.has cell = true ↔ cell ∈ cells := by
  rw [Dict.has_iff, h.selected, mem_sorted]

theorem Keyed.has_verdicts (h : c.Keyed) {verdict : Str} :
    c.verdicts.has verdict = true ↔ verdict ∈ Telemetry.verdicts := by
  rw [Dict.has_iff, h.verdicts, mem_sorted]

theorem bump_keys {m : CounterMap} {names : List Str} {key : Str} (h : m.keys = sorted names)
    (hkey : key ∈ names) : (m.bump key).keys = sorted names := by
  refine (CounterMap.keys_bump ?_).trans h
  rw [h]
  exact mem_sorted.2 hkey

theorem Keyed.decode (h : c.Keyed) {cell : Str} (hcell : cell ∈ cells) : (c.decode cell).Keyed :=
  ⟨bump_keys h.selected hcell, h.applied, h.notApplied, h.verdicts⟩

theorem Keyed.apply (h : c.Keyed) {cell verdict : Str} (hcell : cell ∈ cells)
    (hverdict : verdict ∈ Telemetry.verdicts) : (c.apply cell verdict).Keyed :=
  ⟨h.selected, bump_keys h.applied hcell, h.notApplied, bump_keys h.verdicts hverdict⟩

theorem Keyed.skip (h : c.Keyed) {cell : Str} (hcell : cell ∈ cells) : (c.skip cell).Keyed :=
  ⟨h.selected, h.applied, bump_keys h.notApplied hcell, h.verdicts⟩

/-! ## One call -/

/-- What a call may do to the counters. -/
theorem Keyed.record_cases (h : c.Keyed) (call : Call) :
    c.record call = c ∨
      call = .doorReject ∧ c.record call = c.rejectAtDoor ∨
      ∃ cell ∈ cells, ∃ wasApplied verdict, call = .case (some cell) wasApplied verdict ∧
        (c.record call = (c.decode cell).skip cell ∧ wasApplied = false ∨
          wasApplied = true ∧ ((∃ v ∈ Telemetry.verdicts, verdict = some v ∧
              c.record call = (c.decode cell).apply cell v) ∨
            (∀ v ∈ Telemetry.verdicts, verdict ≠ some v) ∧ c.record call = c.decode cell)) := by
  cases call with
  | doorReject => exact .inr (.inl ⟨rfl, rfl⟩)
  | case cellKey wasApplied verdict =>
    cases cellKey with
    | none => exact .inl rfl
    | some cell =>
      by_cases hhas : c.selected.has cell = true
      · refine .inr (.inr ⟨cell, h.has_selected.1 hhas, wasApplied, verdict, rfl, ?_⟩)
        cases wasApplied with
        | false => exact .inl ⟨by simp [record, hhas], rfl⟩
        | true =>
          refine .inr ⟨rfl, ?_⟩
          cases verdict with
          | none => exact .inr ⟨nofun, by simp [record, hhas]⟩
          | some v =>
            by_cases hv : c.verdicts.has v = true
            · exact .inl ⟨v, h.has_verdicts.1 hv, rfl, by simp [record, hhas, hv]⟩
            · refine .inr ⟨fun v' hv' heq => ?_, by simp [record, hhas, hv]⟩
              cases heq
              exact hv (h.has_verdicts.2 hv')
      · exact .inl (by simp [record, hhas])

theorem zero_tallied : zero.Tallied 0 where
  closes := {
    execs := rfl
    selected := CounterMap.total_zero cells
    applied := fun _ _ => by simp [zero, CounterMap.at_zero]
    verdicts := by simp [zero, CounterMap.total_zero] }
  execs := rfl
  total := Nat.le_of_eq (CounterMap.total_zero cells)

theorem toNat_succ {v : UInt64} (h : v.toNat + 1 < 2 ^ 64) : (v + 1).toNat = v.toNat + 1 := by
  rw [UInt64.toNat_add]
  exact Nat.mod_eq_of_lt h

theorem Tallied.rejectAtDoor (h : c.Tallied n) (hn : n + 1 < 2 ^ 64) :
    c.rejectAtDoor.Tallied (n + 1) := by
  have hexecs := h.closes.execs
  have htally := h.execs
  refine ⟨⟨?_, h.closes.selected, h.closes.applied, h.closes.verdicts⟩, ?_,
    Nat.le_succ_of_le h.total⟩
  · simp only [Counters.rejectAtDoor]
    rw [toNat_succ (by omega), toNat_succ (by omega)]
    omega
  · simp only [Counters.rejectAtDoor]
    rw [toNat_succ (by omega), htally]

theorem Tallied.selected_room (h : c.Tallied n) (hn : n + 1 < 2 ^ 64) (cell : Str) :
    c.selected.at cell + 1 < 2 ^ 64 := by
  have hle : c.selected.at cell ≤ c.selected.total := CounterMap.at_le_total
  have hsel := h.closes.selected
  have hexecs := h.closes.execs
  have htally := h.execs
  omega

section
variable (h : c.Tallied n) (hkeyed : c.Keyed) {cell : Str} (hcell : cell ∈ cells)
  (hn : n + 1 < 2 ^ 64)
include h hkeyed hcell hn

theorem Tallied.decode :
    (c.decode cell).execs.toNat = n + 1 ∧
      (c.decode cell).doorRejects.toNat + (c.decode cell).decoded.toNat = n + 1 ∧
      (c.decode cell).selected.total = (c.decode cell).decoded.toNat := by
  have hexecs := h.closes.execs
  have htally := h.execs
  have hmem : cell ∈ c.selected.keys := by
    rw [hkeyed.selected]
    exact mem_sorted.2 hcell
  simp only [Counters.decode]
  refine ⟨?_, ?_, ?_⟩
  · rw [toNat_succ (by omega), htally]
  · rw [toNat_succ (by omega)]
    omega
  · rw [CounterMap.total_bump hmem (h.selected_room hn cell), toNat_succ (by omega),
      h.closes.selected]

/-- A case that was applied, with one of the verdicts. -/
theorem Tallied.apply {verdict : Str} (hverdict : verdict ∈ Telemetry.verdicts) :
    ((c.decode cell).apply cell verdict).Tallied (n + 1) := by
  obtain ⟨hexecs, hdoor, hselected⟩ := h.decode hkeyed hcell hn
  have hroom := h.selected_room hn cell
  have happlied : cell ∈ c.applied.keys := by
    rw [hkeyed.applied]
    exact mem_sorted.2 hcell
  have hverdicts : verdict ∈ c.verdicts.keys := by
    rw [hkeyed.verdicts]
    exact mem_sorted.2 hverdict
  have hcellwise := h.closes.applied cell hcell
  have htotal : (c.applied.bump cell).total = c.applied.total + 1 :=
    CounterMap.total_bump happlied (by omega)
  have hverdictRoom : c.verdicts.at verdict + 1 < 2 ^ 64 := by
    have hle : c.verdicts.at verdict ≤ c.verdicts.total := CounterMap.at_le_total
    have hsum := h.closes.verdicts
    have hbound := h.total
    omega
  refine ⟨⟨hdoor.trans hexecs.symm, hselected, fun cell' hcell' => ?_, ?_⟩, hexecs, ?_⟩
  · simp only [Counters.apply, Counters.decode]
    by_cases hsame : cell' = cell
    · rw [hsame, CounterMap.at_bump_self (by omega), CounterMap.at_bump_self hroom]
      omega
    · rw [CounterMap.at_bump_other hsame, CounterMap.at_bump_other hsame]
      exact h.closes.applied cell' hcell'
  · simp only [Counters.apply, Counters.decode]
    rw [CounterMap.total_bump hverdicts hverdictRoom, htotal, h.closes.verdicts]
  · simp only [Counters.apply, Counters.decode]
    have hbound := h.total
    omega

/-- A case that was not applied. -/
theorem Tallied.skip : ((c.decode cell).skip cell).Tallied (n + 1) := by
  obtain ⟨hexecs, hdoor, hselected⟩ := h.decode hkeyed hcell hn
  have hroom := h.selected_room hn cell
  have hcellwise := h.closes.applied cell hcell
  refine ⟨⟨hdoor.trans hexecs.symm, hselected, fun cell' hcell' => ?_, h.closes.verdicts⟩, hexecs,
    Nat.le_succ_of_le h.total⟩
  simp only [Counters.skip, Counters.decode]
  by_cases hsame : cell' = cell
  · rw [hsame, CounterMap.at_bump_self (by omega), CounterMap.at_bump_self hroom]
    omega
  · rw [CounterMap.at_bump_other hsame, CounterMap.at_bump_other hsame]
    exact h.closes.applied cell' hcell'

end

end Counters

/-! ## Any calls -/

/-- A verdict of the list, where a case of a cell of the list was applied. -/
def Call.Proper : Call → Prop
  | .doorReject => True
  | .case cellKey wasApplied verdict => ∀ cell ∈ cells, cellKey = some cell → wasApplied = true →
      ∃ v ∈ verdicts, verdict = some v

/-- Proper calls, fewer than the counters can count. -/
def Proper (calls : List Call) : Prop := calls.length < 2 ^ 64 ∧ ∀ c ∈ calls, c.Proper

theorem Proper.sublist {l calls : List Call} (h : Proper calls) (hl : l.Sublist calls) : Proper l :=
  ⟨hl.length_le.trans_lt h.1, fun c hc => h.2 c (hl.subset hc)⟩

open Counters in
theorem record_keyed {c : Counters} (h : c.Keyed) (call : Call) : (c.record call).Keyed := by
  rcases h.record_cases call with heq | ⟨-, heq⟩ | ⟨cell, hcell, _, _, -, hcase⟩
  · rwa [heq]
  · rw [heq]
    exact ⟨h.selected, h.applied, h.notApplied, h.verdicts⟩
  · rcases hcase with ⟨heq, -⟩ | ⟨-, ⟨v, hv, -, heq⟩ | ⟨-, heq⟩⟩
    · rw [heq]
      exact (h.decode hcell).skip hcell
    · rw [heq]
      exact (h.decode hcell).apply hcell hv
    · rw [heq]
      exact h.decode hcell

theorem record_tallied {c : Counters} {n : Nat} (h : c.Tallied n) (hkeyed : c.Keyed)
    (hn : n + 1 < 2 ^ 64) {call : Call} (hcall : call.Proper) :
    (c.record call).Tallied n ∨ (c.record call).Tallied (n + 1) := by
  rcases hkeyed.record_cases call with heq | ⟨-, heq⟩ | ⟨cell, hcell, applied, verdict, rfl, hcase⟩
  · rw [heq]
    exact .inl h
  · rw [heq]
    exact .inr (h.rejectAtDoor hn)
  · rcases hcase with ⟨heq, -⟩ | ⟨happlied, ⟨v, hv, -, heq⟩ | ⟨hnone, heq⟩⟩
    · rw [heq]
      exact .inr (h.skip hkeyed hcell hn)
    · rw [heq]
      exact .inr (h.apply hkeyed hcell hn hv)
    · obtain ⟨v, hv, hverdict⟩ := hcall cell hcell rfl happlied
      exact absurd hverdict (hnone v hv)

theorem tally_concat (calls : List Call) (call : Call) :
    tally (calls ++ [call]) = (tally calls).record call := List.foldl_concat ..

theorem tally_keyed (calls : List Call) : (tally calls).Keyed := by
  induction calls using List.reverseRecOn with
  | nil => exact Counters.zero_keyed
  | append_singleton calls call ih =>
    rw [tally_concat]
    exact record_keyed ih call

theorem tally_tallied {calls : List Call} (h : Proper calls) :
    ∃ n ≤ calls.length, (tally calls).Tallied n := by
  induction calls using List.reverseRecOn with
  | nil => exact ⟨0, Nat.le_refl 0, Counters.zero_tallied⟩
  | append_singleton calls call ih =>
    obtain ⟨n, hn, htally⟩ := ih (h.sublist (List.sublist_append_left _ _))
    have hlen := h.1
    rw [List.length_append, List.length_singleton] at hlen ⊢
    rw [tally_concat]
    rcases record_tallied htally (tally_keyed calls) (by omega) (h.2 call (by simp)) with ht | ht
    · exact ⟨n, by omega, ht⟩
    · exact ⟨n + 1, by omega, ht⟩

/-- Proper calls close the equations. -/
theorem tally_closes {calls : List Call} (h : Proper calls) : (tally calls).Closes :=
  let ⟨_, _, htally⟩ := tally_tallied h
  htally.closes

/-! ## Counters only grow -/

/-- No counter is less. -/
structure Counters.Le (c c' : Counters) : Prop where
  execs : c.execs ≤ c'.execs
  doorRejects : c.doorRejects ≤ c'.doorRejects
  decoded : c.decoded ≤ c'.decoded
  selected : ∀ cell, c.selected.at cell ≤ c'.selected.at cell
  applied : ∀ cell, c.applied.at cell ≤ c'.applied.at cell
  notApplied : ∀ cell, c.notApplied.at cell ≤ c'.notApplied.at cell
  verdicts : ∀ verdict, c.verdicts.at verdict ≤ c'.verdicts.at verdict

namespace Counters

variable {c : Counters} {n : Nat}

theorem Le.refl (c : Counters) : c.Le c :=
  ⟨UInt64.le_refl _, UInt64.le_refl _, UInt64.le_refl _, fun _ => Nat.le_refl _,
    fun _ => Nat.le_refl _, fun _ => Nat.le_refl _, fun _ => Nat.le_refl _⟩

theorem Le.trans {c' c'' : Counters} (h : c.Le c') (h' : c'.Le c'') : c.Le c'' :=
  ⟨UInt64.le_trans h.execs h'.execs, UInt64.le_trans h.doorRejects h'.doorRejects,
    UInt64.le_trans h.decoded h'.decoded, fun k => (h.selected k).trans (h'.selected k),
    fun k => (h.applied k).trans (h'.applied k), fun k => (h.notApplied k).trans (h'.notApplied k),
    fun k => (h.verdicts k).trans (h'.verdicts k)⟩

theorem le_succ {v : UInt64} (h : v.toNat + 1 < 2 ^ 64) : v ≤ v + 1 := by
  rw [UInt64.le_iff_toNat_le, toNat_succ h]
  omega

theorem at_le_bump {m : CounterMap} {key : Str} (h : m.at key + 1 < 2 ^ 64) (key' : Str) :
    m.at key' ≤ (m.bump key).at key' := by
  by_cases hsame : key' = key
  · rw [hsame, CounterMap.at_bump_self h]
    omega
  · rw [CounterMap.at_bump_other hsame]

theorem Tallied.rejectAtDoor_le (h : c.Tallied n) (hn : n + 1 < 2 ^ 64) : c.Le c.rejectAtDoor := by
  have hexecs := h.closes.execs
  have htally := h.execs
  exact { Le.refl c with execs := le_succ (by omega), doorRejects := le_succ (by omega) }

theorem Tallied.decode_le (h : c.Tallied n) (hn : n + 1 < 2 ^ 64) (cell : Str) :
    c.Le (c.decode cell) := by
  have hexecs := h.closes.execs
  have htally := h.execs
  exact { Le.refl c with
    execs := le_succ (by omega)
    decoded := le_succ (by omega)
    selected := at_le_bump (h.selected_room hn cell) }

section
variable (h : c.Tallied n) (hn : n + 1 < 2 ^ 64) {cell : Str} (hcell : cell ∈ cells)
include h hn hcell

theorem Tallied.apply_le (verdict : Str) : c.Le ((c.decode cell).apply cell verdict) := by
  have hroom := h.selected_room hn cell
  have hcellwise := h.closes.applied cell hcell
  have hverdict : c.verdicts.at verdict ≤ c.verdicts.total := CounterMap.at_le_total
  have hsum := h.closes.verdicts
  have hbound := h.total
  exact { h.decode_le hn cell with
    applied := at_le_bump (by omega)
    verdicts := at_le_bump (by omega) }

theorem Tallied.skip_le : c.Le ((c.decode cell).skip cell) := by
  have hroom := h.selected_room hn cell
  have hcellwise := h.closes.applied cell hcell
  exact { h.decode_le hn cell with notApplied := at_le_bump (by omega) }

end

/-- One more call. -/
theorem Tallied.record_le (h : c.Tallied n) (hkeyed : c.Keyed) (hn : n + 1 < 2 ^ 64) (call : Call) :
    c.Le (c.record call) := by
  rcases hkeyed.record_cases call with heq | ⟨-, heq⟩ | ⟨cell, hcell, _, _, -, hcase⟩
  · rw [heq]
    exact Le.refl c
  · rw [heq]
    exact h.rejectAtDoor_le hn
  · rcases hcase with ⟨heq, -⟩ | ⟨-, ⟨v, -, -, heq⟩ | ⟨-, heq⟩⟩
    · rw [heq]
      exact h.skip_le hn hcell
    · rw [heq]
      exact h.apply_le hn hcell v
    · rw [heq]
      exact h.decode_le hn cell

end Counters

end MpcHunt.Telemetry
