/-
Producer against emitter: what `build` puts in the fields obeys the rules,
so the file that is written is accepted unless one of the frames it shows
holds a forbidden marker, which the frame allowlist does not rule out.
-/
import MpcHunt.Summary.OneForm
import MpcHunt.Summary.PublicSummary

namespace MpcHunt.Summary

open Encoding Lines Checks

/-! ## The frames of a log -/

/-- The frames of some lines, in order. -/
def framesOf (ls : List Str) : List Str :=
  ls.filterMap fun line => if line.length > 65536 then none else frameSearch line

/-- The published frames of a log: the first eight distinct ones. -/
def published (allowed : List Str) (log : Str) : List Str :=
  ((framesOf (splitlines bytesBreak log)).map (shown allowed)).eraseDups.take 8

theorem filter_notMem_snoc {frames : List Str} {x : Str} (xs : List Str) :
    xs.filter (· ∉ frames ++ [x]) = (xs.filter (· ∉ frames)).filter fun y => !y == x := by
  rw [List.filter_filter]
  refine List.filter_congr fun y _ => ?_
  by_cases hx : y = x <;> simp [hx]

/-- The loop collects the frames it has not got yet, until there are eight. -/
theorem framesLoop_eq (allowed ls : List Str) {frames : List Str} (h : frames.length < 8) :
    framesLoop allowed ls frames =
      frames ++ (((framesOf ls).map (shown allowed)).filter (· ∉ frames)).eraseDups.take
        (8 - frames.length) := by
  induction ls generalizing frames with
  | nil => simp [framesLoop, framesOf]
  | cons line ls ih =>
    unfold framesLoop
    by_cases hlong : line.length > 65536
    · rw [if_pos hlong, ih h]
      simp [framesOf, hlong]
    · rw [if_neg hlong]
      cases hf : frameSearch line with
      | none =>
        dsimp only
        rw [ih h]
        simp [framesOf, hlong, hf]
      | some frame =>
        have hof : framesOf (line :: ls) = frame :: framesOf ls := by
          simp [framesOf, hlong, hf]
        dsimp only
        rw [hof, List.map_cons]
        by_cases hmem : shown allowed frame ∈ frames
        · rw [addNew, if_pos hmem, if_neg (by omega), ih h, List.filter_cons_of_neg (by simpa using hmem)]
        · rw [addNew, if_neg hmem, List.filter_cons_of_pos (by simpa using hmem), List.eraseDups_cons,
            List.length_append, List.length_singleton]
          by_cases hfull : frames.length + 1 = 8
          · rw [if_pos hfull, show 8 - frames.length = 1 by omega]
            rfl
          · have hlen : (frames ++ [shown allowed frame]).length < 8 := by
              rw [List.length_append, List.length_singleton]
              omega
            rw [if_neg hfull, ih hlen, filter_notMem_snoc, List.append_assoc,
              List.length_append, List.length_singleton,
              show 8 - frames.length = 8 - (frames.length + 1) + 1 by omega]
            rfl

theorem framesLoop_nil (allowed : List Str) (log : Str) :
    framesLoop allowed (splitlines bytesBreak log) [] = published allowed log := by
  rw [framesLoop_eq allowed _ (by decide)]
  simp [published]

/-! ## The values obey the rules -/

theorem frame_cons {c : Nat} {w : Str} (hc : isHead c = true) (hw : ∀ d ∈ w, isTail d = true)
    (hlen : w.length ≤ 127) : c :: w ∈ frame.lang := by
  refine (Re.mem_lang_seq _ _ _).2 ⟨[c], ⟨c, hc, rfl⟩, w, ?_, rfl⟩
  exact Re.mem_lang_between.2 ⟨w.length, Nat.zero_le _, by omega, Re.mem_pow_cls hw⟩

theorem frame_FRAME {s f : Str} (h : FRAME s = some f) : f ∈ frame.lang := by
  simp only [FRAME, bind, Option.bind_eq_some_iff] at h
  obtain ⟨_, _, _, _, _, _, _, _, _, _, _, _, _, _, rest, _, h⟩ := h
  cases rest with
  | nil => cases h
  | cons c rest =>
    obtain ⟨hc, hf⟩ := Option.ite_none_right_eq_some.1 h
    obtain rfl := Option.some.inj hf
    refine frame_cons hc ?_ (List.length_take_le _ _)
    intro d hd
    exact List.mem_takeWhile_imp (List.mem_of_mem_take hd)

theorem frame_unknown : text "unknown" ∈ frame.lang :=
  frame_cons (c := 117) (w := text "nknown") (by decide) (by decide) (by decide)

theorem published_frame {allowed : List Str} {log : Str} :
    ∀ f ∈ published allowed log, f ∈ frame.lang := by
  intro f hf
  have hmem := List.mem_eraseDups.1 (List.mem_of_mem_take hf)
  obtain ⟨g, hg, rfl⟩ := List.mem_map.1 hmem
  obtain ⟨line, -, hline⟩ := List.mem_filterMap.1 hg
  unfold shown
  by_cases hallowed : g ∈ allowed
  · rw [if_pos hallowed]
    obtain ⟨-, hsearch⟩ := Option.ite_none_left_eq_some.1 hline
    obtain ⟨s, -, hs⟩ := List.exists_of_findSome?_eq_some hsearch
    exact frame_FRAME hs
  · rw [if_neg hallowed]
    exact frame_unknown

theorem intercalate_cons (c : Nat) (f : Str) (rest : List Str) :
    [c].intercalate (f :: rest) = f ++ (rest.map ([c] ++ ·)).flatten := by
  induction rest generalizing f with
  | nil => simp [List.intercalate]
  | cons g rest ih =>
    have hstep : [c].intercalate (f :: g :: rest) = f ++ ([c] ++ [c].intercalate (g :: rest)) := by
      simp [List.intercalate]
    rw [hstep, ih, List.map_cons, List.flatten_cons, List.append_assoc]

/-- Up to eight frames, joined, obey the rule of the stack. -/
theorem stackValue_mem {frames : List Str} (h : ∀ f ∈ frames, f ∈ frame.lang)
    (hlen : frames.length ≤ 8) : stackValue frames ∈ stackRule.lang := by
  cases frames with
  | nil =>
    refine (Re.mem_lang_oneOf _ _).2 ⟨word "none", List.mem_cons_self, ?_⟩
    exact (Re.mem_lang_lit _ _).2 rfl
  | cons f rest =>
    obtain ⟨hf, hrest⟩ := List.forall_mem_cons.1 h
    refine (Re.mem_lang_oneOf _ _).2 ⟨_, List.mem_cons_of_mem _ List.mem_cons_self, ?_⟩
    rw [stackValue, if_neg (List.cons_ne_nil f rest), intercalate_cons]
    refine (Re.mem_lang_seq _ _ _).2 ⟨f, hf, _, ?_, rfl⟩
    refine Re.mem_lang_between.2 ⟨(rest.map ([62] ++ ·)).length, Nat.zero_le _, ?_, ?_⟩
    · simp only [List.length_cons, List.length_map] at hlen ⊢
      omega
    · refine Re.flatten_mem_pow ?_
      intro w hw
      obtain ⟨g, hg, rfl⟩ := List.mem_map.1 hw
      refine (Re.mem_lang_seq _ _ _).2 ⟨[62], ?_, g, hrest g hg, rfl⟩
      exact (Re.mem_lang_lit _ _).2 rfl

theorem hexDigit_mem {n : Nat} (h : n < 16) :
    inRanges [(48, 57), (97, 102)] (hexDigit n) = true := by
  unfold hexDigit
  by_cases hn : n < 10
  · rw [if_pos hn]
    simp [inRanges]
    omega
  · rw [if_neg hn]
    simp [inRanges]
    omega

theorem hex_mem {w : Str} (hlen : w.length = 64)
    (hw : ∀ c ∈ w, inRanges [(48, 57), (97, 102)] c = true) : w ∈ sha256Rule.lang := by
  have hpow := Re.mem_pow_cls hw
  rw [hlen] at hpow
  exact ⟨64, ⟨Nat.le_refl 64, fun m hm => by omega⟩, hpow⟩

theorem digestOf_hex (sha256 : List UInt8 → Vector UInt8 32)
    (artifacts : List (List UInt8 × Kind)) :
    (digestOf sha256 artifacts).length = 64 ∧
      ∀ c ∈ digestOf sha256 artifacts, inRanges [(48, 57), (97, 102)] c = true := by
  cases artifacts with
  | nil =>
    refine ⟨by simp [digestOf], ?_⟩
    intro c hc
    rw [List.eq_of_mem_replicate hc]
    decide
  | cons p rest =>
    refine ⟨?_, ?_⟩
    · simp [digestOf, hexdigest, List.length_flatMap]
    · intro c hc
      obtain ⟨b, -, hc⟩ := List.mem_flatMap.1 hc
      have hb := b.toNat_lt
      simp only [List.mem_cons, List.not_mem_nil, or_false] at hc
      rcases hc with rfl | rfl
      · exact hexDigit_mem (by omega)
      · exact hexDigit_mem (by omega)

theorem numbers_match : (∀ k < 25, shardRule.fullmatch (Digits.decimal k) = true) ∧
    ∀ n < 256, exitCodeRule.fullmatch (Digits.decimal n) = true := by decide +kernel

theorem shard_mem {k : Nat} (h : k < 25) : Digits.decimal k ∈ shardRule.lang :=
  (Re.fullmatch_iff _ _).1 (numbers_match.1 k h)

theorem exitCode_mem {n : Nat} (h : n ≤ 255) : Digits.decimal n ∈ exitCodeRule.lang :=
  (Re.fullmatch_iff _ _).1 (numbers_match.2 n (Nat.lt_succ_of_le h))

theorem mem_words {s : String} {ss : List String} (h : s ∈ ss) : text s ∈ (words ss).lang := by
  refine (Re.mem_lang_oneOf _ _).2 ⟨word s, List.mem_map_of_mem h, ?_⟩
  exact (Re.mem_lang_lit _ _).2 rfl

theorem harness_mem {harness : Str} (h : harness ∈ HARNESSES) : harness ∈ harnessRule.lang := by
  simp only [HARNESSES, List.mem_cons, List.not_mem_nil, or_false] at h
  rcases h with rfl | rfl | rfl <;> exact mem_words (by simp)

theorem Sanitizer.name_mem (s : Sanitizer) : s.name ∈ sanitizerRule.lang := by
  cases s <;> exact mem_words (by simp)

theorem Outcome.name_mem (o : Outcome) : o.name ∈ summaryRule.lang := by
  cases o <;> exact mem_words (by simp)

/-! ## The forbidden markers -/

/-- A symbol the case of which does not matter: no upper-case letter. -/
theorem lower_of_not_upper {d : Nat} (h : ¬ (65 ≤ d ∧ d ≤ 90)) : lower d = d := if_neg h

/-- The symbols that hold a summary together: the line feed, `=` and `>`. -/
def seps : List Nat := [10, 61, 62]

theorem within_anyCase {s : String} (h : ∀ c ∈ text s, lower c ∉ seps) :
    (anyCase s).Within (· ∉ seps) := by
  refine Re.within_all.2 fun r hr => ?_
  obtain ⟨c, hc, rfl⟩ := List.mem_map.1 hr
  intro d hd hmem
  have hlower : lower d = d := by
    refine lower_of_not_upper ?_
    have : ∀ x ∈ seps, ¬ (65 ≤ x ∧ x ≤ 90) := by decide
    exact this d hmem
  have hc' := h c hc
  rw [← of_decide_eq_true hd, hlower] at hc'
  exact hc' hmem

theorem forbidden_within : FORBIDDEN.Within (· ∉ seps) := by
  have hhex : (range [(48, 57), (97, 102), (65, 70)]).Within (· ∉ seps) := by
    refine within_range fun r hr c hlo hhi hmem => ?_
    have : ∀ r ∈ [(48, 57), (97, 102), (65, 70)], ∀ x ∈ seps, ¬ (r.1 ≤ x ∧ x ≤ r.2) := by decide
    exact this r hr c hmem ⟨hlo, hhi⟩
  refine ⟨within_anyCase ?_, within_anyCase ?_, within_anyCase ?_, within_anyCase ?_,
    within_anyCase ?_, ⟨within_anyCase ?_, hhex⟩, ⟨within_anyCase ?_, within_anyCase ?_,
    within_anyCase ?_, trivial⟩, within_anyCase ?_, trivial⟩ <;> decide

/-- No match of the forbidden markers has a symbol that holds the summary together. -/
theorem forbidden_cut {c : Nat} (hc : c ∈ seps) : ∀ m ∈ FORBIDDEN.lang, c ∉ m :=
  fun _ hm hmem => Re.forall_of_within forbidden_within hm c hmem hc

def isHex : Nat → Bool := inRanges [(48, 57), (97, 102)]

theorem meets_anyCase (s : String) (c : Nat) (hc : c ∈ text s) (h : isHex (lower c) = false) :
    (anyCase s).Meets (isHex · = false) := by
  refine Re.meets_all.2 ⟨_, List.mem_map_of_mem hc, ?_⟩
  intro d hd
  rw [← of_decide_eq_true hd] at h
  by_cases hupper : 65 ≤ d ∧ d ≤ 90
  · simp [isHex, inRanges]
    omega
  · rwa [lower_of_not_upper hupper] at h

theorem forbidden_meets : FORBIDDEN.Meets (isHex · = false) := by
  have hpath : (Re.oneOf [anyCase "/home/", anyCase "/Users/", anyCase "C:\\Users\\"]).Meets
      (isHex · = false) := by
    refine Re.meets_oneOf.2 ?_
    simp only [List.forall_mem_cons, List.not_mem_nil, false_implies, implies_true, and_true]
    refine ⟨?_, ?_, ?_⟩
    · exact meets_anyCase "/home/" 47 (by decide) (by decide)
    · exact meets_anyCase "/Users/" 47 (by decide) (by decide)
    · exact meets_anyCase "C:\\Users\\" 58 (by decide) (by decide)
  refine Re.meets_oneOf.2 ?_
  simp only [List.forall_mem_cons, List.not_mem_nil, false_implies, implies_true, and_true]
  refine ⟨?_, ?_, ?_, ?_, ?_, .inl ?_, hpath, ?_⟩
  · exact meets_anyCase "Base64:" 58 (by decide) (by decide)
  · exact meets_anyCase "MS:" 58 (by decide) (by decide)
  · exact meets_anyCase "ASCII" 83 (by decide) (by decide)
  · exact meets_anyCase "artifact_prefix" 95 (by decide) (by decide)
  · exact meets_anyCase "Test unit written" 32 (by decide) (by decide)
  · exact meets_anyCase "0x" 120 (by decide) (by decide)
  · exact meets_anyCase "input bytes" 32 (by decide) (by decide)

/-- Digits, and lower-case hexadecimal ones, make up no marker. -/
theorem clean_hex {w : Str} (h : ∀ c ∈ w, isHex c = true) : FORBIDDEN.search w = false := by
  refine Re.search_eq_false forbidden_meets fun c hc => ?_
  rw [h c hc]
  decide

theorem clean_decimal (n : Nat) : FORBIDDEN.search (Digits.decimal n) = false := by
  refine clean_hex fun c hc => ?_
  have := (Digits.decimal_canonical n).1 c hc
  simp only [Digits.isDigit, Bool.and_eq_true, decide_eq_true_eq] at this
  simp [isHex, inRanges]
  omega

/-- No constant of the summary holds a marker. -/
theorem clean_constants : ∀ w ∈ ORDER ++ HARNESSES ++ [text "none"] ++
    [Sanitizer.none, .asan, .ubsan, .msan, .oracle, .libfuzzer, .multiple, .tool].map
      Sanitizer.name ++
    [Outcome.noFinding, .memorySafety, .undefinedBehavior, .uninitializedMemory, .oracleViolation,
      .timeout, .oom, .slowUnit, .crashSignal, .leak, .multipleSignals, .executionFailed,
      .budgetExhausted, .containerOom].map Outcome.name, FORBIDDEN.search w = false := by
  decide +kernel

theorem clean_key {key : Str} (h : key ∈ ORDER) : FORBIDDEN.search key = false :=
  clean_constants key (by simp [h])

theorem clean_harness {harness : Str} (h : harness ∈ HARNESSES) :
    FORBIDDEN.search harness = false := clean_constants harness (by simp [h])

theorem clean_sanitizer (s : Sanitizer) : FORBIDDEN.search s.name = false :=
  clean_constants s.name (by cases s <;> simp)

theorem clean_outcome (o : Outcome) : FORBIDDEN.search o.name = false :=
  clean_constants o.name (by cases o <;> simp)

theorem search_line (key value : Str) :
    FORBIDDEN.search (line key value) = true ↔
      FORBIDDEN.search key = true ∨ FORBIDDEN.search value = true :=
  Re.search_append_cons (forbidden_cut (by decide)) key value

theorem search_lines (ls : List Str) :
    FORBIDDEN.search (ls.flatMap fun l => l ++ [10]) = true ↔
      ∃ l ∈ ls, FORBIDDEN.search l = true := by
  induction ls with
  | nil =>
    have hnil : FORBIDDEN.search [] = false := by decide
    simp [hnil]
  | cons l ls ih =>
    rw [List.flatMap_cons, List.append_assoc, List.singleton_append,
      Re.search_append_cons (forbidden_cut (by decide)), ih]
    simp

/-- A marker in the text of a summary is one in a value. -/
theorem search_render {values : List Str} (h : values.length = 7) :
    FORBIDDEN.search (render values) = true ↔ ∃ v ∈ values, FORBIDDEN.search v = true := by
  rw [render, search_lines, linesOf, ← map_lineOf_zip]
  constructor
  · intro h'
    obtain ⟨l, hl, hsearch⟩ := h'
    obtain ⟨⟨key, value⟩, hp, rfl⟩ := List.mem_map.1 hl
    obtain ⟨hkey, hvalue⟩ := List.of_mem_zip hp
    rcases (search_line key value).1 hsearch with hsearch | hsearch
    · rw [clean_key hkey] at hsearch
      cases hsearch
    · exact ⟨value, hvalue, hsearch⟩
  · intro h'
    obtain ⟨v, hv, hsearch⟩ := h'
    obtain ⟨i, hi, rfl⟩ := List.getElem_of_mem hv
    have hkey : i < ORDER.length := by rw [h] at hi; exact hi
    refine ⟨lineOf (ORDER[i], values[i]), List.mem_map_of_mem ?_, ?_⟩
    · rw [← List.getElem_zip (h := by rw [List.length_zip]; omega)]
      exact List.getElem_mem _
    · exact (search_line _ _).2 (.inr hsearch)

theorem search_stackValue (frames : List Str) :
    FORBIDDEN.search (stackValue frames) = true ↔ ∃ f ∈ frames, FORBIDDEN.search f = true := by
  unfold stackValue
  by_cases h : frames = []
  · have hnone : FORBIDDEN.search (text "none") = false := clean_constants _ (by simp)
    rw [if_pos h, hnone, h]
    simp
  · rw [if_neg h]
    exact Re.search_intercalate (forbidden_cut (by decide)) (by decide) frames

/-! ## The two programs -/

theorem fields_eq_order : FIELDS = ORDER := rfl

theorem dataOf_eq {fields : Dict Str Str} (hkeys : fields.keys = FIELDS) :
    dataOf fields = fields.flatMap fun p => lineOf p ++ [10] := by
  have hnodup : fields.keys.Nodup := by
    rw [hkeys, fields_eq_order]
    exact order_nodup
  rw [dataOf, ← hkeys, Dict.keys, List.flatMap_map]
  refine List.flatMap_congr fun p hp => ?_
  rw [Dict.get?_of_mem hnodup hp]
  simp [lineOf, line]

theorem dataOf_zip {values : List Str} (h : values.length = 7) :
    dataOf (FIELDS.zip values) = render values := by
  have hkeys : Dict.keys (FIELDS.zip values) = FIELDS := List.map_fst_zip (by rw [h]; decide)
  rw [dataOf_eq hkeys, render, linesOf, ← map_lineOf_zip, fields_eq_order, List.flatMap_map]

/-- The bytes of a file of the private directory. -/
def evidence (root : Root) (name : Str) : Option (List UInt8) :=
  match regularDepthOne root with
  | .error _ => none
  | .ok byName => byName.get? name

section
variable {sha256 : List UInt8 → Vector UInt8 32} {allowed : List Str} {root : Root}
  {harness : Str} {k code : Nat}

/-- What `build` returns: values that obey the rules, of which only the stack can hold a
marker. -/
theorem build_values (hk : k < 25) (hcode : code ≤ 255)
    (hexit : (evidence root (text "exit_code")).bind stripText = some (Digits.decimal code))
    {fields : Dict Str Str}
    (h : build sha256 allowed root harness (Digits.decimal k) = .ok fields) :
    ∃ values bytes, fields = FIELDS.zip values ∧ Obeys values ∧
      evidence root (text "fuzzer.raw.log") = some bytes ∧
      ((∃ v ∈ values, FORBIDDEN.search v = true) ↔
        ∃ f ∈ published allowed (bytes.map UInt8.toNat), FORBIDDEN.search f = true) := by
  simp only [build, bind_eq_ok, refuse_eq_ok, need_eq_ok] at h
  obtain ⟨_, hharness, _, -, byName, hroot, bytes, hlog, exitBytes, hexitBytes, _, -, exitText,
    htext, _, -, artifacts, -, _, -, stack, hstack, h⟩ := h
  have hev : ∀ name, evidence root name = byName.get? name := by
    intro name
    rw [evidence, hroot]
  rw [hev, hexitBytes, Option.bind_some, htext, Option.some.injEq] at hexit
  obtain ⟨-, hstack⟩ := guard_eq_ok.1 hstack
  rw [framesLoop_nil] at hstack
  obtain rfl := Except.ok.inj hstack
  rw [not_not] at hharness
  obtain ⟨hlen, hhex⟩ := digestOf_hex sha256 artifacts
  refine ⟨_, bytes, (Except.ok.inj h).symm, ?_, by rw [hev, hlog], ?_⟩
  · refine .cons (harness_mem hharness) (.cons (shard_mem hk) (.cons ?_ (.cons ?_ (.cons ?_
      (.cons ?_ (.cons (hex_mem hlen hhex) .nil))))))
    · rw [hexit]
      exact exitCode_mem hcode
    · exact Sanitizer.name_mem _
    · exact Outcome.name_mem _
    · exact stackValue_mem published_frame (List.length_take_le 8 _)
  · rw [← search_stackValue (published allowed _)]
    simp [clean_harness hharness, clean_decimal, hexit, clean_sanitizer, clean_outcome,
      clean_hex hhex]

/-- What is written is accepted, and its text returned, exactly when it holds no marker. -/
theorem accepted_iff_clean {values : List Str} (hobeys : Obeys values)
    (hbuild : build sha256 allowed root harness (Digits.decimal k) = .ok (FIELDS.zip values)) :
    (∃ raw, produce sha256 allowed root harness (Digits.decimal k) .free = .ok raw ∧
      validate raw = .ok (dataOf (FIELDS.zip values))) ↔
      ∀ v ∈ values, FORBIDDEN.search v = false := by
  have hlen : values.length = 7 := hobeys.length_eq.symm
  have hascii := render_ascii hobeys
  have hproduce : produce sha256 allowed root harness (Digits.decimal k) .free =
      .ok (encodeAscii (render values)) := by
    simp only [produce, bind_eq_ok, refuse_eq_ok, hbuild]
    refine ⟨_, rfl, (), by decide, (), ?_, ?_⟩
    · rw [dataOf_zip hlen, not_not, List.all_eq_true]
      intro c hc
      exact decide_eq_true (hascii c hc)
    · rw [dataOf_zip hlen]
      rfl
  have hclean : (∀ v ∈ values, FORBIDDEN.search v = false) ↔
      FORBIDDEN.search (render values) = false := by
    rw [← Bool.not_eq_true (FORBIDDEN.search (render values)), search_render hlen]
    simp
  rw [hclean, dataOf_zip hlen]
  constructor
  · intro ⟨raw, _, hvalid⟩
    obtain ⟨values', ps, hl, ht, -⟩ := validate_eq_ok.1 hvalid
    rw [ht]
    exact hl.clean
  · intro hsearch
    refine ⟨_, hproduce, validate_eq_ok.2 ⟨values, ended10 values, ?_, ?_, rfl⟩⟩
    · exact lined_ended10 hobeys hsearch
    · rw [weave_ended10]

/-- The emitter accepts what the producer writes, and returns its text, exactly when none of the
published frames holds a forbidden marker. -/
theorem validate_produced_iff (hk : k < 25) (hcode : code ≤ 255)
    (hexit : (evidence root (text "exit_code")).bind stripText = some (Digits.decimal code))
    {fields : Dict Str Str}
    (hbuild : build sha256 allowed root harness (Digits.decimal k) = .ok fields)
    {log : List UInt8} (hlog : evidence root (text "fuzzer.raw.log") = some log) :
    (∃ raw, produce sha256 allowed root harness (Digits.decimal k) .free = .ok raw ∧
      validate raw = .ok (dataOf fields)) ↔
      ∀ f ∈ published allowed (log.map UInt8.toNat), FORBIDDEN.search f = false := by
  obtain ⟨values, bytes, rfl, hobeys, hbytes, hmarker⟩ := build_values hk hcode hexit hbuild
  obtain rfl : bytes = log := Option.some.inj (hbytes.symm.trans hlog)
  rw [accepted_iff_clean hobeys hbuild]
  simpa using not_congr hmarker

end

/-! ## A log with one frame -/

/-- A log of one line, with a frame of the given name. -/
def oneFrame (name : Str) : Str := text "#0 0x1 in " ++ name

def oneFrameRoot (name : Str) : Root :=
  some [(text "fuzzer.raw.log", .regular (encodeAscii (oneFrame name))),
    (text "exit_code", .regular (encodeAscii (text "0\n")))]

theorem published_oneFrame {allowed : List Str} {log name : Str} (hmem : name ∈ allowed)
    (hframes : framesOf (splitlines bytesBreak log) = [name]) : published allowed log = [name] := by
  rw [published, hframes, List.map_singleton, shown, if_pos hmem, List.eraseDups_cons]
  rfl

theorem normalizedStack_oneFrame {allowed : List Str} {log name : Str} (hmem : name ∈ allowed)
    (hframes : framesOf (splitlines bytesBreak log) = [name])
    (hsafe : ¬ (name.length > 512 ∨ 47 ∈ name ∨ 92 ∈ name ∨
      contains (text "0x") (name.map lower))) :
    normalizedStack allowed log = .ok name := by
  have hvalue : stackValue (framesLoop allowed (splitlines bytesBreak log) []) = name := by
    rw [framesLoop_nil, published_oneFrame hmem hframes, stackValue, if_neg (by simp)]
    simp [List.intercalate]
  rw [normalizedStack, hvalue]
  exact if_neg hsafe

theorem strip_oneFrame : stripText (encodeAscii (text "0\n")) = some (Digits.decimal 0) := by
  decide +kernel

theorem exit_oneFrame (name : Str) :
    (evidence (oneFrameRoot name) (text "exit_code")).bind stripText = some (Digits.decimal 0) :=
  strip_oneFrame

theorem log_oneFrame (name : Str) :
    evidence (oneFrameRoot name) (text "fuzzer.raw.log") = some (encodeAscii (oneFrame name)) := rfl

theorem build_oneFrame {sha256 : List UInt8 → Vector UInt8 32} {allowed : List Str} {name : Str}
    (hascii : (encodeAscii (oneFrame name)).map UInt8.toNat = oneFrame name)
    (hlen : (encodeAscii (oneFrame name)).length ≤ 1024)
    (hstack : normalizedStack allowed (oneFrame name) = .ok name) :
    ∃ fields, build sha256 allowed (oneFrameRoot name) (text "cmp_ecdsa_online")
      (Digits.decimal 0) = .ok fields := by
  simp only [build, bind_eq_ok, refuse_eq_ok, need_eq_ok]
  refine ⟨_, (), by simp [HARNESSES], (), by decide, _, rfl, _, rfl, _, rfl, (), ?_, [48], ?_, (),
    ?_, _, rfl, (), ?_, name, ?_, rfl⟩
  · exact Nat.not_lt.2 (hlen.trans (by decide))
  · exact strip_oneFrame
  · decide
  · decide
  · show normalizedStack allowed ((encodeAscii (oneFrame name)).map UInt8.toNat) = .ok name
    rw [hascii, hstack]

/-- A name that is read back from its log, and is safe to publish. -/
def Readable (name : Str) : Prop :=
  (encodeAscii (oneFrame name)).map UInt8.toNat = oneFrame name ∧
    (encodeAscii (oneFrame name)).length ≤ 1024 ∧
    framesOf (splitlines bytesBreak (oneFrame name)) = [name] ∧
    ¬ (name.length > 512 ∨ 47 ∈ name ∨ 92 ∈ name ∨ contains (text "0x") (name.map lower))

instance (name : Str) : Decidable (Readable name) := inferInstanceAs (Decidable (_ ∧ _ ∧ _ ∧ _))

def zeroDigest (_ : List UInt8) : Vector UInt8 32 := .replicate 32 0

/-- A log with the frame `main`, which is listed: its summary passes the emitter. -/
theorem validate_produced_main :
    ∃ fields, build zeroDigest [text "main"] (oneFrameRoot (text "main"))
        (text "cmp_ecdsa_online") (Digits.decimal 0) = .ok fields ∧
      ∃ raw, produce zeroDigest [text "main"] (oneFrameRoot (text "main"))
        (text "cmp_ecdsa_online") (Digits.decimal 0) .free = .ok raw ∧
      validate raw = .ok (dataOf fields) := by
  obtain ⟨⟨hascii, hlen, hframes, hsafe⟩, hclean⟩ :
      Readable (text "main") ∧ FORBIDDEN.search (text "main") = false := by decide +kernel
  have hmem : text "main" ∈ [text "main"] := List.mem_singleton.2 rfl
  obtain ⟨fields, hbuild⟩ :=
    build_oneFrame hascii hlen (normalizedStack_oneFrame hmem hframes hsafe)
  refine ⟨fields, hbuild, ?_⟩
  refine (validate_produced_iff (by decide) (by decide) (exit_oneFrame _) hbuild
    (log_oneFrame _)).2 ?_
  rw [hascii, published_oneFrame hmem hframes]
  simpa using hclean

/-- Producer and emitter agree under an allowlist: whenever `build` succeeds for a shard number
and an exit code as the workflow supplies them, the file is accepted and its text returned. -/
def Agree (allowed : List Str) : Prop :=
  ∀ sha256 root harness k code fields, k < 25 → code ≤ 255 →
    (evidence root (text "exit_code")).bind stripText = some (Digits.decimal code) →
    build sha256 allowed root harness (Digits.decimal k) = .ok fields →
    ∃ raw, produce sha256 allowed root harness (Digits.decimal k) .free = .ok raw ∧
      validate raw = .ok (dataOf fields)

/-- They do not under a frame allowlist that lists `fuzzer::PrintASCII`. -/
theorem not_agree_printASCII :
    ¬ ∃ allowed, text "fuzzer::PrintASCII" ∈ allowed ∧ Agree allowed := by
  intro ⟨allowed, hmem, hagree⟩
  obtain ⟨⟨hascii, hlen, hframes, hsafe⟩, hsearch⟩ : Readable (text "fuzzer::PrintASCII") ∧
      FORBIDDEN.search (text "fuzzer::PrintASCII") = true := by decide +kernel
  obtain ⟨fields, hbuild⟩ :=
    build_oneFrame hascii hlen (normalizedStack_oneFrame hmem hframes hsafe)
  have hok := hagree zeroDigest _ _ 0 0 fields (by decide) (by decide) (exit_oneFrame _) hbuild
  obtain ⟨values, bytes, rfl, hobeys, hbytes, hmarker⟩ :=
    build_values (by decide) (by decide) (exit_oneFrame _) hbuild
  have hclean := (accepted_iff_clean hobeys hbuild).1 hok
  have hlog : bytes.map UInt8.toNat = oneFrame (text "fuzzer::PrintASCII") := by
    rw [← Option.some.inj ((log_oneFrame _).symm.trans hbytes), hascii]
  rw [hlog, published_oneFrame hmem hframes] at hmarker
  obtain ⟨v, hv, hfound⟩ := hmarker.2 ⟨_, List.mem_singleton.2 rfl, hsearch⟩
  rw [hclean v hv] at hfound
  cases hfound

end MpcHunt.Summary
