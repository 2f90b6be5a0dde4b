/-
Which logs `normalized_stack` gives a value for. Of its last checks only the
one on the length can fail: the symbols of a frame and an allowlist without
"0x" leave nothing for the others.
-/
import MpcHunt.Summary.Agreement

namespace MpcHunt.Summary

open Encoding Lines

/-! ## The frames that are shown -/

theorem nodup_eraseDups (fs : List Str) : fs.eraseDups.Nodup := by
  induction hlen : fs.length using Nat.strong_induction_on generalizing fs with
  | _ len ih =>
    cases fs with
    | nil => exact List.nodup_nil
    | cons f fs =>
      rw [List.eraseDups_cons, List.nodup_cons]
      have hshorter : (fs.filter fun g => !g == f).length < len := by
        have hle := List.length_filter_le (fun g => !g == f) fs
        rw [List.length_cons] at hlen
        omega
      exact ⟨by simp, ih _ hshorter _ rfl⟩

theorem nodup_published (allowed : List Str) (log : Str) : (published allowed log).Nodup :=
  (nodup_eraseDups _).sublist (List.take_sublist _ _)

theorem length_published_le (allowed : List Str) (log : Str) : (published allowed log).length ≤ 8 :=
  List.length_take_le _ _

theorem published_shown {allowed : List Str} {log f : Str} (h : f ∈ published allowed log) :
    f ∈ allowed ∨ f = text "unknown" := by
  obtain ⟨g, -, rfl⟩ := List.mem_map.1 (List.mem_eraseDups.1 (List.mem_of_mem_take h))
  unfold shown
  by_cases hallowed : g ∈ allowed
  · rw [if_pos hallowed]
    exact .inl hallowed
  · rw [if_neg hallowed]
    exact .inr rfl

theorem published_eq_nil_iff (allowed : List Str) (log : Str) : published allowed log = [] ↔
    ∀ line ∈ splitlines bytesBreak log, line.length ≤ 65536 → frameSearch line = none := by
  have hnone : published allowed log = [] ↔ framesOf (splitlines bytesBreak log) = [] := by
    unfold published
    cases framesOf (splitlines bytesBreak log) with
    | nil => simp
    | cons f fs => simp [List.eraseDups_cons]
  rw [hnone, framesOf, List.filterMap_eq_nil_iff]
  refine forall₂_congr fun line _ => ?_
  by_cases hlong : line.length > 65536
  · rw [if_pos hlong]
    exact iff_of_true rfl fun hle => absurd hle (Nat.not_le.2 hlong)
  · rw [if_neg hlong]
    exact ⟨fun h _ => h, fun h => h (Nat.not_lt.1 hlong)⟩

/-! ## The last checks -/

theorem contains_eq_search (needle s : Str) : contains needle s = (Re.lit needle).search s := by
  rw [Bool.eq_iff_iff, Re.search_iff]
  constructor
  · intro h
    obtain ⟨rest, hrest, hprefix⟩ := List.any_eq_true.1 h
    obtain ⟨u, rfl⟩ := (List.mem_tails _ _).1 hrest
    obtain ⟨v, rfl⟩ := List.isPrefixOf_iff_prefix.1 hprefix
    exact ⟨u, needle, v, rfl, (Re.mem_lang_lit _ _).2 rfl⟩
  · intro h
    obtain ⟨u, m, v, rfl, hm⟩ := h
    obtain rfl := (Re.mem_lang_lit _ _).1 hm
    refine List.any_eq_true.2 ⟨m ++ v, (List.mem_tails _ _).2 ⟨u, rfl⟩, ?_⟩
    exact List.isPrefixOf_iff_prefix.2 ⟨v, rfl⟩

theorem map_intercalate (g : Nat → Nat) (c : Nat) (fs : List Str) :
    ([c].intercalate fs).map g = [g c].intercalate (fs.map (·.map g)) := by
  cases fs with
  | nil => rfl
  | cons f fs =>
    rw [intercalate_cons, List.map_cons, intercalate_cons]
    simp [List.map_flatten, Function.comp_def]

/-- No hexadecimal number is put together from frames that show none. -/
theorem contains_hex_stackValue {frames : List Str}
    (h : ∀ f ∈ frames, contains (text "0x") (f.map lower) = false) :
    contains (text "0x") ((stackValue frames).map lower) = false := by
  unfold stackValue
  by_cases hnil : frames = []
  · rw [if_pos hnil]
    decide
  · rw [if_neg hnil, map_intercalate, contains_eq_search, Bool.eq_false_iff]
    intro hsearch
    have hcut : ∀ m ∈ (Re.lit (text "0x")).lang, lower 62 ∉ m := by
      intro m hm
      rw [(Re.mem_lang_lit _ _).1 hm]
      decide
    obtain ⟨w, hw, hfound⟩ := (Re.search_intercalate hcut (by decide) _).1 hsearch
    obtain ⟨f, hf, rfl⟩ := List.mem_map.1 hw
    rw [← contains_eq_search, h f hf] at hfound
    cases hfound

/-- `/` and the backslash are in no class of the rule. -/
theorem stackRule_within : stackRule.Within fun c => c ≠ 47 ∧ c ≠ 92 := by
  have hrange : ∀ rs : List (Nat × Nat), (∀ r ∈ rs, ∀ c, (c = 47 ∨ c = 92) → ¬ (r.1 ≤ c ∧ c ≤ r.2)) →
      (range rs).Within fun c => c ≠ 47 ∧ c ≠ 92 := fun rs h =>
    within_range fun r hr c hlo hhi =>
      ⟨fun hc => h r hr c (.inl hc) ⟨hlo, hhi⟩, fun hc => h r hr c (.inr hc) ⟨hlo, hhi⟩⟩
  have hframe : frame.Within fun c => c ≠ 47 ∧ c ≠ 92 := by
    refine ⟨hrange _ fun r hr c hc => ?_, hrange _ fun r hr c hc => ?_⟩
    · simp only [List.mem_cons, List.not_mem_nil, or_false] at hr
      rcases hr with rfl | rfl | rfl | rfl <;> omega
    · simp only [List.mem_cons, List.not_mem_nil, or_false] at hr
      rcases hr with rfl | rfl | rfl | rfl | rfl | rfl | rfl | rfl <;> omega
  exact ⟨within_word (by decide), ⟨hframe, within_word (by decide), hframe⟩, trivial⟩

/-- All that can be unsafe about a stack is its length. -/
theorem normalizedStack_eq {allowed : List Str}
    (hplain : ∀ f ∈ allowed, contains (text "0x") (f.map lower) = false) (log : Str) :
    normalizedStack allowed log = if (stackValue (published allowed log)).length > 512 then
      .error "unsafe normalized stack" else .ok (stackValue (published allowed log)) := by
  have hsymbols := Re.forall_of_within stackRule_within
    (stackValue_mem published_frame (length_published_le allowed log))
  have hhex : contains (text "0x") ((stackValue (published allowed log)).map lower) = false := by
    refine contains_hex_stackValue fun f hf => ?_
    rcases published_shown hf with hallowed | rfl
    · exact hplain f hallowed
    · decide
  have hslash : 47 ∉ stackValue (published allowed log) := fun h => (hsymbols 47 h).1 rfl
  have hback : 92 ∉ stackValue (published allowed log) := fun h => (hsymbols 92 h).2 rfl
  unfold normalizedStack
  rw [framesLoop_nil]
  simp [hhex, hslash, hback]

/-! ## Which stacks are summarised -/

/-- What is published of any log, frames looked for on lines of up to 65536 bytes; and the
stack of a log is that, if it is no longer than 512. -/
theorem normalizedStack_published (allowed : List Str)
    (hplain : ∀ f ∈ allowed, contains (text "0x") (f.map lower) = false) (log : Str) :
    (published allowed log = [] ↔
      ∀ line ∈ splitlines bytesBreak log, line.length ≤ 65536 → frameSearch line = none) ∧
    (published allowed log).length ≤ 8 ∧ (published allowed log).Nodup ∧
    (∀ f ∈ published allowed log, f ∈ allowed ∨ f = text "unknown") ∧
    ((stackValue (published allowed log)).length ≤ 512 →
      normalizedStack allowed log = .ok (stackValue (published allowed log))) := by
  refine ⟨published_eq_nil_iff allowed log, length_published_le allowed log,
    nodup_published allowed log, fun f => published_shown, fun hlen => ?_⟩
  rw [normalizedStack_eq hplain, if_neg (Nat.not_lt.2 hlen)]

/-- The stack that all lines of a log show is its normalized stack. -/
def Summarises (allowed : List Str) (log : Str) : Prop :=
  normalizedStack allowed log = .ok (stackValue
    ((((splitlines bytesBreak log).filterMap frameSearch).map (shown allowed)).eraseDups.take 8))

def sanitizerAllocator : Str := text "__sanitizer::SizeClassAllocator64"

def sanitizerView : Str := text "__asan::AP64<" ++ text "__sanitizer::LocalAddressSpaceView>"

def uniquePtr (key : Str) : Str :=
  text "_ZNSt10unique_ptrI" ++ key ++ text "PFvPS0_EEC2IS3_vEES1_" ++
    text "NSt9enable_ifIXntsr19is_lvalue_" ++ text "referenceIT_EE5valueEOS7_E4typeE"

/-- The five longest symbols of the frame allowlist. -/
def longestFrames : List Str :=
  [sanitizerAllocator ++ text "LocalCache<" ++ sanitizerAllocator ++ [60] ++ sanitizerView,
    uniquePtr (text "21ring_pedersen_private"),
    uniquePtr (text "20paillier_private_key"),
    text "std::__Fuzzer::pair<" ++ text "std::__Fuzzer::__hash_iterator<" ++
      text "std::__Fuzzer::__hash_node<" ++ text "std::__Fuzzer::__hash_value_type<" ++
      text "unsigned",
    text "__sanitizer::CombinedAllocator<" ++ sanitizerAllocator ++ [60] ++ sanitizerView]

/-- A log of frames, one a line. -/
def logOf (frames : List Str) : Str := frames.flatMap fun f => oneFrame f ++ [10]

/-- They are read from their log, differ, and are too long together. -/
theorem longest_stack :
    framesOf (splitlines bytesBreak (logOf longestFrames)) = longestFrames ∧
      longestFrames.eraseDups.take 8 = longestFrames ∧
      (stackValue longestFrames).length > 512 := by
  decide +kernel

theorem published_longest {allowed : List Str} (h : ∀ f ∈ longestFrames, f ∈ allowed) :
    published allowed (logOf longestFrames) = longestFrames := by
  have hshown : longestFrames.map (shown allowed) = longestFrames := by
    refine (List.map_congr_left fun f hf => ?_).trans (List.map_id _)
    exact if_pos (h f hf)
  rw [published, longest_stack.1, hshown, longest_stack.2.1]

/-- A line of 65552 bytes with a frame. -/
def longLine : Str := text "#0 0x1 in main " ++ List.replicate 65537 88

theorem length_longLine : longLine.length > 65536 := by
  rw [longLine, List.length_append, List.length_replicate]
  omega

theorem splitlines_longLine : splitlines bytesBreak longLine = [longLine] := by
  have hinner : ∀ c ∈ longLine, bytesBreak c = false := by
    intro c hc
    rcases List.mem_append.1 hc with hc | hc
    · have hprefix : ∀ c ∈ text "#0 0x1 in main ", bytesBreak c = false := by decide +kernel
      exact hprefix c hc
    · rw [List.eq_of_mem_replicate hc]
      decide
  have hne : longLine ≠ [] := List.ne_nil_of_length_pos (Nat.zero_lt_of_lt length_longLine)
  rw [splitlines, lines_last (by decide) hne hinner]
  rfl

theorem frameSearch_main (rest : Str) :
    frameSearch (text "#0 0x1 in main " ++ rest) = some (text "main") := by
  simp [text]
  rfl

/-- A stack longer than 512 is refused; a frame on a long line is not seen. -/
theorem not_every_stack_summarised :
    (¬ ∃ allowed, (∀ f ∈ longestFrames, f ∈ allowed) ∧ ∀ log, Summarises allowed log) ∧
    ¬ ∃ allowed, text "main" ∈ allowed ∧ ∀ log, Summarises allowed log := by
  constructor
  · intro h
    obtain ⟨allowed, hmem, hall⟩ := h
    have hok := hall (logOf longestFrames)
    unfold Summarises normalizedStack at hok
    rw [framesLoop_nil, published_longest hmem, if_pos (.inl longest_stack.2.2)] at hok
    cases hok
  · intro h
    obtain ⟨allowed, hmem, hall⟩ := h
    have hok := hall longLine
    have hnone : published allowed longLine = [] := by
      rw [published_eq_nil_iff, splitlines_longLine]
      intro line hline hle
      rw [List.mem_singleton.1 hline] at hle
      exact absurd hle (Nat.not_le.2 length_longLine)
    unfold Summarises normalizedStack at hok
    rw [framesLoop_nil, hnone, splitlines_longLine] at hok
    have hfound : frameSearch longLine = some (text "main") := frameSearch_main _
    have hall : ((([longLine].filterMap frameSearch).map (shown allowed)).eraseDups.take 8) =
        [text "main"] := by
      rw [List.filterMap_cons_some hfound, List.filterMap_nil, List.map_singleton, shown,
        if_pos hmem, List.eraseDups_cons]
      rfl
    rw [hall] at hok
    revert hok
    decide +kernel

/-- A log with a frame twice, and one that is not listed. -/
def mixedLog : Str := logOf [text "main", text "other", text "main"]

theorem published_mixed :
    published [text "main"] mixedLog = [text "main", text "unknown"] := by
  decide +kernel

/-- What is published of that log, and its stack. -/
theorem normalizedStack_published_mixed :
    published [text "main"] mixedLog = [text "main", text "unknown"] ∧
    normalizedStack [text "main"] mixedLog = .ok (text "main>unknown") := by
  obtain ⟨-, -, -, -, hstack⟩ := normalizedStack_published [text "main"] (by decide) mixedLog
  rw [published_mixed] at hstack
  exact ⟨published_mixed, hstack (by decide)⟩

end MpcHunt.Summary
