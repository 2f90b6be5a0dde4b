/-
The byte form of a public summary. The emitter accepts exactly the seven
lines, in order, that obey the rules and hold no forbidden marker, with any
ends the splitter knows; the form it was to accept is the one in which every
line ends with a line feed.
-/
import MpcHunt.Lib.Checks
import MpcHunt.Summary.EmitSummary

namespace MpcHunt.Summary

open Encoding Lines Checks

/-- A line of the summary. -/
def line (key value : Str) : Str := key ++ 61 :: value

def lineOf (p : Str × Str) : Str := line p.1 p.2

/-- The lines of the fields with these values. -/
def linesOf (values : List Str) : List Str := List.zipWith line ORDER values

/-- Values that obey the rules, one for each field. -/
def Obeys (values : List Str) : Prop :=
  List.Forall₂ (fun rule value => value ∈ rule.2.lang) RULES values

/-- The text of the summary: every line with a line feed. -/
def render (values : List Str) : Str := (linesOf values).flatMap fun l => l ++ [10]

/-- The one byte form of a summary. -/
def Canonical (raw : List UInt8) : Prop :=
  ∃ values, Obeys values ∧ FORBIDDEN.search (render values) = false ∧
    raw = encodeAscii (render values)

/-- The lines of a summary, with their ends. -/
structure Lined (values : List Str) (ps : List (Str × Str)) : Prop where
  obeys : Obeys values
  lines : ps.map Prod.fst = linesOf values
  ended : Ended strBreak ps
  ascii : IsAscii (weave ps)
  clean : FORBIDDEN.search (weave ps) = false

/-- The lines of a summary, one of which ends otherwise: at another boundary that the splitter
knows or, the last one, at the end of the file. -/
def EndsOtherwise (raw : List UInt8) : Prop :=
  ∃ values ps, Lined values ps ∧ raw = encodeAscii (weave ps) ∧ ∃ p ∈ ps, p.2 ≠ [10]

/-! ## The loop over the lines -/

theorem field_eq_ok {parsed parsed' : Dict Str Str} {l : Str} :
    field parsed l = .ok parsed' ↔ ∃ p rule, l = lineOf p ∧ parsed.has p.1 = false ∧
      RULES.get? p.1 = some rule ∧ p.2 ∈ rule.lang ∧ parsed' = parsed.set p.1 p.2 := by
  unfold field
  constructor
  · intro h
    rcases hp : partition 61 l with ⟨key, separator, value⟩
    rw [hp] at h
    obtain ⟨hbad, h⟩ := guard_eq_ok.1 h
    rw [not_or, not_not] at hbad
    rw [hbad.1] at hp
    obtain ⟨hl, -⟩ := partition_eq.1 hp
    cases hrule : RULES.get? key with
    | none =>
      rw [hrule] at h
      cases h
    | some rule =>
      rw [hrule] at h
      obtain ⟨hmatch, h⟩ := guard_eq_ok.1 h
      have hvalue : rule.fullmatch value = true := by simpa using hmatch
      exact ⟨(key, value), rule, hl, Bool.eq_false_of_not_eq_true hbad.2, hrule,
        (Re.fullmatch_iff rule value).1 hvalue, (Except.ok.inj h).symm⟩
  · intro ⟨⟨key, value⟩, rule, hl, hhas, hrule, hvalue, hparsed⟩
    have hkey : key ∈ ORDER := (Dict.mem_keys_iff RULES key).2 ⟨rule, hrule⟩
    have hsep : 61 ∉ key := fun h => (keys_plain key hkey 61 h).2.2 rfl
    have hp : partition 61 l = (key, [61], value) := partition_eq.2 ⟨hl, hsep⟩
    rw [hp]
    dsimp only
    rw [if_neg (by simp [hhas]), hrule]
    dsimp only
    rw [(Re.fullmatch_iff rule value).2 hvalue, hparsed]
    rfl

/-- A field the rules know, with a value that obeys its rule. -/
def Ruled (p : Str × Str) : Prop := ∃ rule, RULES.get? p.1 = some rule ∧ p.2 ∈ rule.lang

theorem fold_eq_ok {ls : List Str} {parsed parsed' : Dict Str Str} (hd : parsed.keys.Nodup) :
    ls.foldlM field parsed = .ok parsed' ↔ ∃ pairs : Dict Str Str, ls = pairs.map lineOf ∧
      (∀ p ∈ pairs, Ruled p) ∧ parsed' = parsed ++ pairs ∧ parsed'.keys.Nodup := by
  induction ls generalizing parsed with
  | nil =>
    constructor
    · intro h
      obtain rfl : parsed = parsed' := Except.ok.inj h
      exact ⟨[], rfl, by simp, by simp, hd⟩
    · intro ⟨pairs, hmap, _, hparsed, _⟩
      obtain rfl : pairs = [] := by simpa using hmap.symm
      rw [hparsed, List.append_nil]
      rfl
  | cons l ls ih =>
    rw [List.foldlM_cons]
    constructor
    · intro h
      obtain ⟨mid, hmid, hrest⟩ := bind_eq_ok.1 h
      obtain ⟨p, rule, hl, hhas, hrule, hvalue, rfl⟩ := field_eq_ok.1 hmid
      have hnew : p.1 ∉ parsed.keys := fun hmem => by simp [(Dict.has_iff parsed p.1).2 hmem] at hhas
      obtain ⟨pairs, hls, hruled, hparsed, hnodup⟩ :=
        (ih (Dict.nodup_keys_set hd p.1 p.2)).1 hrest
      refine ⟨p :: pairs, by rw [hl, hls, List.map_cons], ?_, ?_, hnodup⟩
      · exact List.forall_mem_cons.2 ⟨⟨rule, hrule, hvalue⟩, hruled⟩
      · rw [hparsed, Dict.set_of_not_mem hnew, List.append_assoc]
        rfl
    · intro ⟨pairs, hmap, hruled, hparsed, hnodup⟩
      cases pairs with
      | nil => cases hmap
      | cons p pairs =>
        obtain ⟨hl, hls⟩ := List.cons.inj hmap
        obtain ⟨⟨rule, hrule, hvalue⟩, hruled⟩ := List.forall_mem_cons.1 hruled
        have hnew : p.1 ∉ parsed.keys := by
          rw [hparsed, Dict.keys_append] at hnodup
          intro hmem
          exact List.disjoint_of_nodup_append hnodup hmem List.mem_cons_self
        have hhas : parsed.has p.1 = false := by
          rw [← Bool.not_eq_true, Dict.has_iff]
          exact hnew
        refine bind_eq_ok.2 ⟨_, field_eq_ok.2 ⟨p, rule, hl, hhas, hrule, hvalue, rfl⟩, ?_⟩
        refine (ih (Dict.nodup_keys_set hd p.1 p.2)).2 ⟨pairs, hls, hruled, ?_, hnodup⟩
        rw [hparsed, Dict.set_of_not_mem hnew, List.append_assoc]
        rfl

/-- The loop succeeds on the lines of the fields it returns. -/
theorem parse_eq_ok {text : Str} {parsed : Dict Str Str} :
    parse text = .ok parsed ↔ splitlines strBreak text = parsed.map lineOf ∧
      (∀ p ∈ parsed, Ruled p) ∧ parsed.keys.Nodup := by
  unfold parse
  rw [fold_eq_ok (by simp [Dict.keys])]
  constructor
  · intro h'
    obtain ⟨pairs, hls, hruled, hparsed, hnodup⟩ := h'
    obtain rfl : parsed = pairs := hparsed
    exact ⟨hls, hruled, hnodup⟩
  · intro h'
    obtain ⟨hls, hruled, hnodup⟩ := h'
    exact ⟨parsed, hls, hruled, rfl, hnodup⟩

theorem order_nodup : ORDER.Nodup := by decide

/-- Fields in the order of some rules obey them one by one. -/
theorem forall₂_of_ruled {rules : Dict Str (Re Nat)} {pairs : Dict Str Str}
    (hrules : ∀ rule ∈ rules, RULES.get? rule.1 = some rule.2) (hkeys : pairs.keys = rules.keys)
    (h : ∀ p ∈ pairs, Ruled p) :
    List.Forall₂ (fun rule value => value ∈ rule.2.lang) rules (pairs.map Prod.snd) := by
  induction rules generalizing pairs with
  | nil =>
    obtain rfl : pairs = [] := by simpa [Dict.keys] using hkeys
    exact .nil
  | cons rule rules ih =>
    cases pairs with
    | nil => cases hkeys
    | cons p pairs =>
      obtain ⟨hkey, hkeys⟩ := List.cons.inj hkeys
      obtain ⟨⟨rule', hrule', hvalue⟩, h⟩ := List.forall_mem_cons.1 h
      obtain ⟨hrule, hrules⟩ := List.forall_mem_cons.1 hrules
      rw [show p.1 = rule.1 from hkey, hrule] at hrule'
      exact .cons (Option.some.inj hrule' ▸ hvalue) (ih hrules hkeys h)

theorem get?_rules : ∀ rule ∈ RULES, RULES.get? rule.1 = some rule.2 :=
  fun _ h => Dict.get?_of_mem order_nodup h

theorem map_lineOf_zip (keys values : List Str) :
    (keys.zip values).map lineOf = List.zipWith line keys values := by
  rw [List.map_zip_eq_zipWith]
  rfl

/-- The fields that `parse` returns, in order: values that obey the rules. -/
theorem ordered_iff {parsed : Dict Str Str} :
    ((∀ p ∈ parsed, Ruled p) ∧ parsed.keys = ORDER) ↔
      ∃ values, Obeys values ∧ parsed = ORDER.zip values := by
  constructor
  · intro ⟨hruled, hkeys⟩
    refine ⟨parsed.map Prod.snd, forall₂_of_ruled get?_rules hkeys hruled, ?_⟩
    exact List.zip_of_prod hkeys rfl
  · intro ⟨values, hobeys, hparsed⟩
    have hlen : ORDER.length = values.length := by
      rw [← hobeys.length_eq]
      rfl
    refine ⟨?_, ?_⟩
    · intro p hp
      rw [hparsed, ORDER, Dict.keys, List.zip_map_left] at hp
      obtain ⟨⟨rule, value⟩, hmem, rfl⟩ := List.mem_map.1 hp
      exact ⟨rule.2, get?_rules rule (List.of_mem_zip hmem).1,
        List.forall₂_iff_zip.1 hobeys |>.2 hmem⟩
    · rw [hparsed]
      exact List.map_fst_zip hlen.le

/-! ## The symbols and the length of the lines -/

theorem obeys_plain {values : List Str} (h : Obeys values) : ∀ v ∈ values, ∀ c ∈ v, Plain c := by
  intro v hv
  obtain ⟨i, hi, rfl⟩ := List.getElem_of_mem hv
  have hrule := h.get (h.length_eq ▸ hi) hi
  exact value_plain (get?_rules _ (List.get_mem _ _)) hrule

theorem linesOf_plain {values : List Str} (h : Obeys values) :
    ∀ l ∈ linesOf values, l ≠ [] ∧ ∀ c ∈ l, Plain c ∨ c = 61 := by
  intro l hl
  rw [linesOf, ← map_lineOf_zip] at hl
  obtain ⟨⟨key, value⟩, hp, rfl⟩ := List.mem_map.1 hl
  obtain ⟨hkey, hvalue⟩ := List.of_mem_zip hp
  refine ⟨by simp [lineOf, line], ?_⟩
  intro c hc
  simp only [lineOf, line, List.mem_append, List.mem_cons] at hc
  rcases hc with hc | hc | hc
  · exact .inl (keys_plain key hkey c hc)
  · exact .inr hc
  · exact .inl (obeys_plain h value hvalue c hc)

theorem linesOf_unbroken {values : List Str} (h : Obeys values) :
    ∀ l ∈ linesOf values, l ≠ [] ∧ ∀ c ∈ l, strBreak c = false := by
  intro l hl
  obtain ⟨hne, hplain⟩ := linesOf_plain h l hl
  refine ⟨hne, ?_⟩
  intro c hc
  rcases hplain c hc with hc | rfl
  · exact hc.not_break
  · rfl

/-- The length a line may have. -/
def room (rule : Str × Re Nat) : Nat := rule.1.length + 1 + rule.2.maxLength.getD 0

theorem rules_bounded : ∀ rule ∈ RULES, rule.2.maxLength.isSome := by decide

theorem lines_le {rules : Dict Str (Re Nat)} {values : List Str}
    (hb : ∀ rule ∈ rules, rule.2.maxLength.isSome)
    (h : List.Forall₂ (fun rule value => value ∈ rule.2.lang) rules values) :
    (List.zipWith line rules.keys values).flatten.length ≤ (rules.map room).sum := by
  induction h with
  | nil => exact Nat.le_refl 0
  | @cons rule value rules values hvalue _ ih =>
    obtain ⟨hsome, hb⟩ := List.forall_mem_cons.1 hb
    obtain ⟨n, hn⟩ := Option.isSome_iff_exists.1 hsome
    have hline : (line rule.1 value).length ≤ room rule := by
      have := Re.length_le_maxLength hn hvalue
      simp only [line, room, hn, Option.getD_some, List.length_append, List.length_cons]
      omega
    have htail := ih hb
    simp only [Dict.keys, List.map_cons, List.zipWith_cons_cons, List.flatten_cons,
      List.length_append, List.sum_cons] at htail ⊢
    omega

theorem weave_length_le {brk : Nat → Bool} {ps : List (Str × Str)} (h : Ended brk ps) :
    (weave ps).length ≤ (ps.map Prod.fst).flatten.length + 2 * ps.length := by
  induction ps with
  | nil => exact Nat.le_refl 0
  | cons p rest ih =>
    obtain ⟨l, e⟩ := p
    obtain ⟨-, hend, hrest⟩ := h
    have he : e.length ≤ 2 := by
      rcases hend with (rfl | ⟨c, -, rfl⟩) | ⟨rfl, -⟩ <;> simp
    have := ih hrest
    simp only [weave, List.flatMap_cons, List.length_append, List.map_cons, List.flatten_cons,
      List.length_cons] at this ⊢
    omega

theorem mem_weave {brk : Nat → Bool} {ps : List (Str × Str)} (h : Ended brk ps) {c : Nat}
    (hc : c ∈ weave ps) : (∃ l ∈ ps.map Prod.fst, c ∈ l) ∨ c = 13 ∨ c = 10 ∨ brk c = true := by
  induction ps with
  | nil => cases hc
  | cons p rest ih =>
    obtain ⟨l, e⟩ := p
    obtain ⟨-, hend, hrest⟩ := h
    simp only [weave, List.flatMap_cons, List.mem_append] at hc
    rcases hc with (hc | hc) | hc
    · exact .inl ⟨l, List.mem_cons_self, hc⟩
    · rcases hend with (rfl | ⟨d, hd, rfl⟩) | ⟨rfl, -⟩
      · rcases List.mem_cons.1 hc with rfl | hc
        · exact .inr (.inl rfl)
        · exact .inr (.inr (.inl (List.mem_singleton.1 hc)))
      · rw [List.mem_singleton.1 hc]
        exact .inr (.inr (.inr hd))
      · cases hc
    · rcases ih hrest hc with ⟨m, hm, hc⟩ | hc
      · exact .inl ⟨m, List.mem_cons_of_mem l hm, hc⟩
      · exact .inr hc

section
variable {values : List Str} {ps : List (Str × Str)} (h : Lined values ps)
include h

theorem Lined.length_eq : ps.length = 7 := by
  have hlen : (ps.map Prod.fst).length = ps.length := List.length_map _
  rw [← hlen, h.lines, linesOf, List.length_zipWith, ← h.obeys.length_eq]
  rfl

theorem Lined.short : (weave ps).length ≤ 2048 := by
  have hw := weave_length_le h.ended
  have hl : (linesOf values).flatten.length ≤ (RULES.map room).sum := lines_le rules_bounded h.obeys
  have hroom : (RULES.map room).sum ≤ 2000 := by decide
  rw [h.lines, h.length_eq] at hw
  omega

theorem Lined.nonzero : 0 ∉ weave ps := by
  intro hc
  rcases mem_weave h.ended hc with ⟨l, hl, hc⟩ | hc | hc | hc
  · rw [h.lines] at hl
    rcases (linesOf_plain h.obeys l hl).2 0 hc with hc | hc
    · exact absurd hc.1 (by decide)
    · cases hc
  · cases hc
  · cases hc
  · cases hc

end

/-! ## What is accepted -/

theorem splitlines_weave {values : List Str} {ps : List (Str × Str)} (h : Lined values ps) :
    splitlines strBreak (weave ps) = linesOf values := by
  rw [splitlines, lines_weave rfl rfl h.ended, h.lines]

theorem parse_weave {values : List Str} {ps : List (Str × Str)} (h : Lined values ps) :
    parse (weave ps) = .ok (ORDER.zip values) := by
  obtain ⟨hruled, hkeys⟩ := ordered_iff.2 ⟨values, h.obeys, rfl⟩
  refine parse_eq_ok.2 ⟨?_, hruled, ?_⟩
  · rw [splitlines_weave h, map_lineOf_zip, linesOf]
  · rw [hkeys]
    exact order_nodup

theorem zero_mem_encodeAscii {s : Str} (h : IsAscii s) : 0 ∈ encodeAscii s ↔ 0 ∈ s := by
  constructor
  · intro hz
    have := List.mem_map_of_mem (f := UInt8.toNat) hz
    rwa [toNat_encodeAscii h] at this
  · intro hz
    exact List.mem_map_of_mem (f := UInt8.ofNat) hz

/-- `validate` accepts the lines of a summary, with whatever ends they have, and returns them
with those ends. -/
theorem validate_eq_ok {raw : List UInt8} {t : Str} :
    validate raw = .ok t ↔ ∃ values ps, Lined values ps ∧ t = weave ps ∧ raw = encodeAscii t := by
  unfold validate
  constructor
  · intro h
    obtain ⟨-, h⟩ := guard_eq_ok.1 h
    cases hdec : decodeAscii raw with
    | none =>
      rw [hdec] at h
      cases h
    | some s =>
      rw [hdec] at h
      obtain ⟨hascii, hraw⟩ := decodeAscii_eq_some.1 hdec
      obtain ⟨hclean, h⟩ := guard_eq_ok.1 h
      obtain ⟨-, h⟩ := guard_eq_ok.1 h
      cases hparse : parse s with
      | error e =>
        rw [hparse] at h
        cases h
      | ok parsed =>
        rw [hparse] at h
        obtain ⟨hkeys, h⟩ := guard_eq_ok.1 h
        obtain rfl := Except.ok.inj h
        obtain ⟨hlines, hruled, -⟩ := parse_eq_ok.1 hparse
        obtain ⟨values, hobeys, rfl⟩ := ordered_iff.1 ⟨hruled, not_not.1 hkeys⟩
        rw [map_lineOf_zip] at hlines
        have hend : Ended strBreak (lines strBreak s) := by
          refine ended_lines fun p hp => ?_
          have hmem : p.1 ∈ linesOf values := by
            rw [linesOf, ← hlines]
            exact List.mem_map_of_mem hp
          exact (linesOf_plain hobeys p.1 hmem).1
        have hw : weave (lines strBreak s) = s := weave_lines s
        refine ⟨values, lines strBreak s, ⟨hobeys, hlines, hend, ?_, ?_⟩, hw.symm, hraw⟩
        · rwa [hw]
        · rw [hw]
          exact Bool.eq_false_of_not_eq_true hclean
  · intro ⟨values, ps, hl, ht, hraw⟩
    have hascii : IsAscii t := ht ▸ hl.ascii
    have hlen : raw.length = t.length := by rw [hraw, encodeAscii, List.length_map]
    have hz : 0 ∉ raw := by
      rw [hraw, zero_mem_encodeAscii hascii, ht]
      exact hl.nonzero
    have hsplit : splitlines strBreak t = linesOf values := by rw [ht, splitlines_weave hl]
    have hseven : (linesOf values).length = 7 := by
      rw [← hl.lines, List.length_map, hl.length_eq]
    have hparse : parse t = .ok (ORDER.zip values) := by rw [ht, parse_weave hl]
    have hkeys : Dict.keys (ORDER.zip values) = ORDER := (ordered_iff.2 ⟨values, hl.obeys, rfl⟩).2
    refine guard_eq_ok.2 ⟨?_, ?_⟩
    · rw [not_or]
      exact ⟨by rw [hlen, ht]; exact Nat.not_lt.2 hl.short, hz⟩
    · rw [decodeAscii_eq_some.2 ⟨hascii, hraw⟩]
      refine guard_eq_ok.2 ⟨by rw [ht, hl.clean]; decide, guard_eq_ok.2 ⟨?_, ?_⟩⟩
      · rw [hsplit, hseven]
        decide
      · rw [hparse]
        exact guard_eq_ok.2 ⟨not_not.2 hkeys, rfl⟩

/-- Lines that all end with a line feed. -/
def ended10 (values : List Str) : List (Str × Str) := (linesOf values).map fun l => (l, [10])

theorem weave_ended10 (values : List Str) : weave (ended10 values) = render values := by
  rw [weave, ended10, List.flatMap_map]
  rfl

theorem ended_of_unbroken {brk : Nat → Bool} (h10 : brk 10 = true) {ls : List Str}
    (h : ∀ l ∈ ls, l ≠ [] ∧ ∀ c ∈ l, brk c = false) : Ended brk (ls.map fun l => (l, [10])) := by
  induction ls with
  | nil => trivial
  | cons l ls ih =>
    obtain ⟨hl, hls⟩ := List.forall_mem_cons.1 h
    exact ⟨hl, .inl (.inr ⟨10, h10, rfl⟩), ih hls⟩

theorem mem_render {values : List Str} (h : Obeys values) {c : Nat} (hc : c ∈ render values) :
    Plain c ∨ c = 61 ∨ c = 10 := by
  obtain ⟨l, hl, hc⟩ := List.mem_flatMap.1 hc
  rcases List.mem_append.1 hc with hc | hc
  · rcases (linesOf_plain h l hl).2 c hc with hc | hc
    · exact .inl hc
    · exact .inr (.inl hc)
  · exact .inr (.inr (List.mem_singleton.1 hc))

theorem render_ascii {values : List Str} (h : Obeys values) : IsAscii (render values) := by
  intro c hc
  rcases mem_render h hc with hc | rfl | rfl
  · exact hc.2.1.trans (by decide)
  · decide
  · decide

theorem lined_ended10 {values : List Str} (h : Obeys values)
    (hclean : FORBIDDEN.search (render values) = false) : Lined values (ended10 values) where
  obeys := h
  lines := by
    rw [ended10, List.map_map]
    exact List.map_id _
  ended := ended_of_unbroken rfl (linesOf_unbroken h)
  ascii := by
    rw [weave_ended10]
    exact render_ascii h
  clean := by rw [weave_ended10, hclean]

/-- Lines that all end with a line feed are those of the one form. -/
theorem eq_ended10 {values : List Str} {ps : List (Str × Str)} (h : Lined values ps)
    (hend : ∀ p ∈ ps, p.2 = [10]) : ps = ended10 values := by
  rw [ended10, ← h.lines, List.map_map]
  conv_lhs => rw [← List.map_id ps]
  exact List.map_congr_left fun p hp => Prod.ext rfl (hend p hp)

theorem validate_of_canonical {raw : List UInt8} (h : Canonical raw) :
    ∃ t, validate raw = .ok t := by
  obtain ⟨values, hobeys, hclean, hraw⟩ := h
  exact ⟨render values, validate_eq_ok.2 ⟨values, ended10 values, lined_ended10 hobeys hclean,
    (weave_ended10 values).symm, hraw⟩⟩

theorem not_canonical_of_endsOtherwise {raw : List UInt8} (h : EndsOtherwise raw) :
    ¬ Canonical raw := by
  obtain ⟨values, ps, hl, hraw, p, hp, hne⟩ := h
  intro ⟨values', hobeys, hclean, hraw'⟩
  have hl' := lined_ended10 hobeys hclean
  have hascii := hl'.ascii
  rw [weave_ended10] at hascii
  have ht : weave ps = render values' := by
    rw [← toNat_encodeAscii hl.ascii, ← hraw, hraw', toNat_encodeAscii hascii]
  have hps : ps = ended10 values' := by
    rw [← lines_weave rfl rfl hl.ended, ht, ← weave_ended10, lines_weave rfl rfl hl'.ended]
  rw [hps] at hp
  obtain ⟨l, -, rfl⟩ := List.mem_map.1 hp
  exact hne rfl

theorem canonical_or_endsOtherwise {raw : List UInt8} {t : Str} (h : validate raw = .ok t) :
    Canonical raw ∧ raw = encodeAscii t ∨ EndsOtherwise raw := by
  obtain ⟨values, ps, hl, ht, hraw⟩ := validate_eq_ok.1 h
  by_cases hend : ∀ p ∈ ps, p.2 = [10]
  · have hrender : t = render values := by rw [ht, eq_ended10 hl hend, weave_ended10]
    have hclean := hl.clean
    rw [← ht, hrender] at hclean
    exact .inl ⟨⟨values, hl.obeys, hclean, hrender ▸ hraw⟩, hraw⟩
  · push Not at hend
    exact .inr ⟨values, ps, hl, ht ▸ hraw, hend⟩

/-- A file of the one form has no byte but those of its fields, `=` and the line feed. -/
theorem mem_canonical {raw : List UInt8} (h : Canonical raw) {b : UInt8} (hb : b ∈ raw) :
    Plain b.toNat ∨ b.toNat = 61 ∨ b.toNat = 10 := by
  obtain ⟨values, hobeys, -, hraw⟩ := h
  have hmem := List.mem_map_of_mem (f := UInt8.toNat) hb
  rw [hraw, toNat_encodeAscii (render_ascii hobeys)] at hmem
  exact mem_render hobeys hmem

theorem parse_canonical {raw : List UInt8} {t : Str} (h : validate raw = .ok t)
    (hends : ¬ EndsOtherwise raw) :
    ∃ values, Obeys values ∧ raw = encodeAscii (render values) ∧
      parse t = .ok (ORDER.zip values) := by
  rcases canonical_or_endsOtherwise h with ⟨⟨values, hobeys, hclean, hraw⟩, ht⟩ | h'
  · have hl := lined_ended10 hobeys hclean
    have hrender : t = render values := by
      obtain ⟨values', ps, hl', ht', hraw'⟩ := validate_eq_ok.1 h
      rw [ht', ← toNat_encodeAscii hl'.ascii, ← ht', ← hraw', hraw,
        toNat_encodeAscii (render_ascii hobeys)]
    refine ⟨values, hobeys, hraw, ?_⟩
    rw [hrender, ← weave_ended10, parse_weave hl]
  · exact absurd h' hends

theorem zip_order_inj {values values' : List Str} (h : Obeys values) (h' : Obeys values')
    (heq : ORDER.zip values = ORDER.zip values') : values = values' := by
  have hlen : ORDER.length = values.length := h.length_eq ▸ rfl
  have hlen' : ORDER.length = values'.length := h'.length_eq ▸ rfl
  rw [← List.map_snd_zip hlen.ge, heq, List.map_snd_zip hlen'.ge]

theorem main_of_ok {raw : List UInt8} {t : Str} (h : validate raw = .ok t) :
    main (some raw) = (t, 0) := by
  rw [main, h]

theorem main_of_error {raw : List UInt8} {e : String} (h : validate raw = .error e) :
    main (some raw) = ([], 1) := by
  rw [main, h]

/-- A file is accepted exactly when it is of the one form, only such a file is printed, byte for
byte, and no other accepted file has its values: this holds of a file unless it is a summary one
of whose lines ends otherwise than with a line feed. -/
theorem validate_one_form_iff (raw : List UInt8) :
    (((∃ t, validate raw = .ok t) ↔ Canonical raw) ∧
      ((main (some raw)).1 ≠ [] → Canonical raw ∧ encodeAscii (main (some raw)).1 = raw) ∧
      (∀ raw' t t', validate raw = .ok t → validate raw' = .ok t' → parse t = parse t' →
        ¬ EndsOtherwise raw' → raw = raw')) ↔
      ¬ EndsOtherwise raw := by
  constructor
  · intro ⟨hiff, _⟩ hends
    obtain ⟨values, ps, hl, hraw, -⟩ := id hends
    have hok := validate_eq_ok.2 ⟨values, ps, hl, rfl, hraw⟩
    exact not_canonical_of_endsOtherwise hends (hiff.1 ⟨_, hok⟩)
  · intro hends
    have hform : ∀ t, validate raw = .ok t → Canonical raw ∧ raw = encodeAscii t := fun t ht =>
      (canonical_or_endsOtherwise ht).resolve_right hends
    refine ⟨⟨fun ⟨t, ht⟩ => (hform t ht).1, validate_of_canonical⟩, ?_, ?_⟩
    · intro hprinted
      cases hv : validate raw with
      | error e =>
        rw [main_of_error hv] at hprinted
        exact absurd rfl hprinted
      | ok t =>
        rw [main_of_ok hv]
        exact ⟨(hform t hv).1, (hform t hv).2.symm⟩
    · intro raw' t t' ht ht' hparse hends'
      obtain ⟨values, hobeys, hraw, hvalues⟩ := parse_canonical ht hends
      obtain ⟨values', hobeys', hraw', hvalues'⟩ := parse_canonical ht' hends'
      rw [hvalues, hvalues'] at hparse
      rw [hraw, hraw', zip_order_inj hobeys hobeys' (Except.ok.inj hparse)]

/-- A summary in which the first line ends with a carriage return and a line feed. -/
def returned : List UInt8 := encodeAscii <|
  text "harness=cmp_ecdsa_online\r\n" ++ text "shard=0\n" ++ text "exit_code=0\n" ++
    text "sanitizer=none\n" ++ text "summary=no_finding\n" ++ text "stack_normalized=none\n" ++
    text "sha256=" ++ List.replicate 64 48 ++ [10]

/-- It is accepted, and printed with the carriage return. -/
theorem validate_carriage_return :
    ¬ ((∃ t, validate returned = .ok t) ↔ Canonical returned) ∧
      13 ∈ (main (some returned)).1 := by
  have hok : validate returned = .ok (returned.map UInt8.toNat) := by decide +kernel
  refine ⟨?_, ?_⟩
  · intro hiff
    have hmem : (13 : UInt8) ∈ returned := by decide +kernel
    rcases mem_canonical (hiff.1 ⟨_, hok⟩) hmem with h | h | h
    · exact absurd h.1 (by decide)
    · cases h
    · cases h
  · rw [main_of_ok hok]
    decide +kernel

end MpcHunt.Summary
