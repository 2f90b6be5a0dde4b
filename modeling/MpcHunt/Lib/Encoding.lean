/-
Bytes as text: strict UTF-8, and the universal newlines of a file opened as
text. ASCII text is its own encoding.
-/
import MpcHunt.Lib.Digits

namespace MpcHunt.Encoding

/-- A continuation byte. -/
def isTail (b : UInt8) : Bool := 0x80 ≤ b && b ≤ 0xBF

/-- The character that starts with a byte, and the rest: the well-formed sequences of
Unicode, so no surrogates and no longer forms than needed. -/
def decodeChar (b : UInt8) (s : List UInt8) : Option (Nat × List UInt8) :=
  if b < 0x80 then some (b.toNat, s)
  else
    match s with
    | [] => none
    | b1 :: s1 =>
      if 0xC2 ≤ b ∧ b ≤ 0xDF then
        if isTail b1 then some ((b.toNat - 0xC0) * 64 + (b1.toNat - 0x80), s1) else none
      else
        match s1 with
        | [] => none
        | b2 :: s2 =>
          let low := (b1.toNat - 0x80) * 64 + (b2.toNat - 0x80)
          if 0xE0 ≤ b ∧ b ≤ 0xEF then
            if isTail b1 ∧ isTail b2 ∧ (b = 0xE0 → 0xA0 ≤ b1) ∧ (b = 0xED → b1 ≤ 0x9F) then
              some ((b.toNat - 0xE0) * 4096 + low, s2)
            else none
          else
            match s2 with
            | [] => none
            | b3 :: s3 =>
              if (0xF0 ≤ b ∧ b ≤ 0xF4) ∧ isTail b1 ∧ isTail b2 ∧ isTail b3 ∧
                  (b = 0xF0 → 0x90 ≤ b1) ∧ (b = 0xF4 → b1 ≤ 0x8F) then
                some ((b.toNat - 0xF0) * 262144 + low * 64 + (b3.toNat - 0x80), s3)
              else none

/-- The characters of some bytes, with fuel for as many. -/
def decodeFuel : Nat → List UInt8 → Option Str
  | _, [] => some []
  | 0, _ :: _ => none
  | fuel + 1, b :: s =>
    match decodeChar b s with
    | none => none
    | some (c, rest) => (decodeFuel fuel rest).map (c :: ·)

/-- `bytes.decode("utf-8")`. -/
def decodeUtf8 (bytes : List UInt8) : Option Str := decodeFuel bytes.length bytes

/-- What reading a file as text makes of the ends of its lines. -/
def universalNewlines : Str → Str
  | [] => []
  | 13 :: 10 :: s => 10 :: universalNewlines s
  | c :: s => (if c = 13 then 10 else c) :: universalNewlines s

/-- `str.encode("ascii")` of a text that is. -/
def encodeAscii (s : Str) : List UInt8 := s.map UInt8.ofNat

def IsAscii (s : Str) : Prop := ∀ c ∈ s, c < 128

/-- `bytes.decode("ascii")`. -/
def decodeAscii (bytes : List UInt8) : Option Str :=
  if bytes.all (· < 128) then some (bytes.map UInt8.toNat) else none

theorem encodeAscii_toNat (bytes : List UInt8) : encodeAscii (bytes.map UInt8.toNat) = bytes := by
  unfold encodeAscii
  rw [List.map_map]
  conv_rhs => rw [← List.map_id bytes]
  exact List.map_congr_left fun b _ => UInt8.ofNat_toNat

theorem toNat_encodeAscii {s : Str} (h : IsAscii s) : (encodeAscii s).map UInt8.toNat = s := by
  unfold encodeAscii
  rw [List.map_map]
  conv_rhs => rw [← List.map_id s]
  refine List.map_congr_left fun c hc => ?_
  have := h c hc
  rw [Function.comp_apply, UInt8.toNat_ofNat', id]
  omega

theorem decodeAscii_eq_some {bytes : List UInt8} {s : Str} :
    decodeAscii bytes = some s ↔ IsAscii s ∧ bytes = encodeAscii s := by
  unfold decodeAscii
  constructor
  · intro h
    obtain ⟨hall, hs⟩ := Option.ite_none_right_eq_some.1 h
    obtain rfl := Option.some.inj hs
    refine ⟨?_, (encodeAscii_toNat bytes).symm⟩
    intro c hc
    obtain ⟨b, hb, rfl⟩ := List.mem_map.1 hc
    simpa [UInt8.lt_iff_toNat_lt] using List.all_eq_true.1 hall b hb
  · intro ⟨hascii, hbytes⟩
    rw [hbytes, toNat_encodeAscii hascii, if_pos]
    simp only [encodeAscii, List.all_map, List.all_eq_true, Function.comp_apply, decide_eq_true_eq]
    intro c hc
    have := hascii c hc
    rw [UInt8.lt_iff_toNat_lt, UInt8.toNat_ofNat']
    exact Nat.lt_of_le_of_lt (Nat.mod_le _ _) this

theorem decodeFuel_ascii {s : Str} (h : IsAscii s) {fuel : Nat} (hf : s.length ≤ fuel) :
    decodeFuel fuel (encodeAscii s) = some s := by
  induction s generalizing fuel with
  | nil => cases fuel <;> rfl
  | cons c s ih =>
    cases fuel with
    | zero => cases hf
    | succ fuel =>
      have hc : c < 128 := h c List.mem_cons_self
      have hnat : (UInt8.ofNat c).toNat = c := by
        rw [UInt8.toNat_ofNat']
        omega
      have hchar : decodeChar (UInt8.ofNat c) (encodeAscii s) = some (c, encodeAscii s) := by
        unfold decodeChar
        rw [if_pos (UInt8.lt_iff_toNat_lt.2 (by rw [hnat]; exact hc)), hnat]
      show (match decodeChar (UInt8.ofNat c) (encodeAscii s) with
        | none => none
        | some (c, rest) => (decodeFuel fuel rest).map (c :: ·)) = _
      rw [hchar]
      dsimp only
      rw [ih (fun d hd => h d (List.mem_cons_of_mem c hd)) (Nat.le_of_succ_le_succ hf)]
      rfl

/-- ASCII text is read as it was written. -/
theorem decodeUtf8_ascii {s : Str} (h : IsAscii s) : decodeUtf8 (encodeAscii s) = some s := by
  unfold decodeUtf8
  refine decodeFuel_ascii h ?_
  unfold encodeAscii
  rw [List.length_map]

theorem universalNewlines_cons {c : Nat} (h : c ≠ 13) (s : Str) :
    universalNewlines (c :: s) = c :: universalNewlines s := by
  rw [universalNewlines, if_neg h]
  intro s' hc
  exact absurd hc h

/-- A carriage return becomes a line feed, with the line feed after it or without. -/
theorem universalNewlines_return (s : Str) :
    ∃ s', universalNewlines (13 :: s) = 10 :: universalNewlines s' ∧ (s' = s ∨ s = 10 :: s') := by
  cases s with
  | nil => exact ⟨[], rfl, .inl rfl⟩
  | cons d s =>
    by_cases hd : d = 10
    · exact ⟨s, by rw [hd, universalNewlines], .inr (by rw [hd])⟩
    · refine ⟨d :: s, ?_, .inl rfl⟩
      rw [universalNewlines, if_pos rfl]
      intro s' _ hs
      exact absurd (List.cons.inj hs).1 hd

theorem universalNewlines_append {w : Str} (h : 13 ∉ w) (s : Str) :
    universalNewlines (w ++ s) = w ++ universalNewlines s := by
  induction w with
  | nil => rfl
  | cons c w ih =>
    simp only [List.mem_cons, not_or] at h
    rw [List.cons_append, universalNewlines_cons (Ne.symm h.1), ih h.2]
    rfl

end MpcHunt.Encoding
