/-
Machine words as bytes: big-endian and little-endian 64-bit words, and the
rules for reading a concatenation back from its front.
-/
import Mathlib

namespace MpcHunt.Words

/-- The eight bytes of a word, most significant first. -/
def be64 (v : UInt64) : List UInt8 :=
  [(v >>> 56).toUInt8, (v >>> 48).toUInt8, (v >>> 40).toUInt8, (v >>> 32).toUInt8,
    (v >>> 24).toUInt8, (v >>> 16).toUInt8, (v >>> 8).toUInt8, v.toUInt8]

/-- The four bytes of a word, most significant first. -/
def be32 (v : UInt32) : List UInt8 :=
  [(v >>> 24).toUInt8, (v >>> 16).toUInt8, (v >>> 8).toUInt8, v.toUInt8]

/-- The eight bytes of a word, least significant first. -/
def le64 (v : UInt64) : List UInt8 :=
  [v.toUInt8, (v >>> 8).toUInt8, (v >>> 16).toUInt8, (v >>> 24).toUInt8,
    (v >>> 32).toUInt8, (v >>> 40).toUInt8, (v >>> 48).toUInt8, (v >>> 56).toUInt8]

@[simp] theorem length_be64 (v : UInt64) : (be64 v).length = 8 := rfl

@[simp] theorem length_le64 (v : UInt64) : (le64 v).length = 8 := rfl

theorem be64_inj {v w : UInt64} : be64 v = be64 w ↔ v = w := by
  refine ⟨fun h => ?_, fun h => by rw [h]⟩
  simp only [be64, List.cons.injEq, and_true, ← UInt8.toNat_inj, UInt64.toNat_toUInt8,
    UInt64.toNat_shiftRight, Nat.shiftRight_eq_div_pow] at h
  have hv := v.toNat_lt
  have hw := w.toNat_lt
  refine UInt64.toNat_inj.1 ?_
  have e : UInt64.toNat 56 % 64 = 56 ∧ UInt64.toNat 48 % 64 = 48 ∧ UInt64.toNat 40 % 64 = 40 ∧
      UInt64.toNat 32 % 64 = 32 ∧ UInt64.toNat 24 % 64 = 24 ∧ UInt64.toNat 16 % 64 = 16 ∧
      UInt64.toNat 8 % 64 = 8 := by decide
  obtain ⟨e56, e48, e40, e32, e24, e16, e8⟩ := e
  simp only [e56, e48, e40, e32, e24, e16, e8] at h
  omega

@[simp] theorem length_be32 (v : UInt32) : (be32 v).length = 4 := rfl

/-! ## Reading a word back -/

/-- The word some bytes spell, most significant first. -/
def ofBe32 (l : List UInt8) : UInt32 := l.foldl (fun v b => (v <<< 8) ||| b.toUInt32) 0

/-- The word some bytes spell, most significant first. -/
def ofBe64 (l : List UInt8) : UInt64 := l.foldl (fun v b => (v <<< 8) ||| b.toUInt64) 0

theorem toNat_shl8_or_32 {v : UInt32} {b : UInt8} (h : v.toNat < 2 ^ 24) :
    ((v <<< 8) ||| b.toUInt32).toNat = v.toNat * 256 + b.toNat := by
  have hb := b.toNat_lt
  have hshift : v.toNat <<< 8 = v.toNat * 256 := by rw [Nat.shiftLeft_eq]
  have hor := Nat.shiftLeft_add_eq_or_of_lt (i := 8) (by simpa using hb) v.toNat
  have e : UInt32.toNat 8 % 32 = 8 := by decide
  rw [UInt32.toNat_or, UInt32.toNat_shiftLeft, UInt8.toNat_toUInt32, e, Nat.mod_eq_of_lt (by omega),
    ← hor, hshift]

theorem toNat_shl8_or_64 {v : UInt64} {b : UInt8} (h : v.toNat < 2 ^ 56) :
    ((v <<< 8) ||| b.toUInt64).toNat = v.toNat * 256 + b.toNat := by
  have hb := b.toNat_lt
  have hshift : v.toNat <<< 8 = v.toNat * 256 := by rw [Nat.shiftLeft_eq]
  have hor := Nat.shiftLeft_add_eq_or_of_lt (i := 8) (by simpa using hb) v.toNat
  have e : UInt64.toNat 8 % 64 = 8 := by decide
  rw [UInt64.toNat_or, UInt64.toNat_shiftLeft, UInt8.toNat_toUInt64, e, Nat.mod_eq_of_lt (by omega),
    ← hor, hshift]

theorem toNat_foldl_32 (l : List UInt8) (v : UInt32) (h : (v.toNat + 1) * 256 ^ l.length ≤ 2 ^ 32) :
    (l.foldl (fun (v : UInt32) b => (v <<< 8) ||| b.toUInt32) v).toNat =
      l.foldl (fun n b => n * 256 + b.toNat) v.toNat := by
  induction l generalizing v with
  | nil => rfl
  | cons b l ih =>
    have hb := b.toNat_lt
    have hpow : 1 ≤ 256 ^ l.length := Nat.one_le_pow _ _ (by decide)
    have hv : v.toNat < 2 ^ 24 := by
      simp only [List.length_cons, pow_succ] at h
      nlinarith
    rw [List.foldl_cons, List.foldl_cons, ih _ ?_, toNat_shl8_or_32 hv]
    rw [toNat_shl8_or_32 hv]
    calc (v.toNat * 256 + b.toNat + 1) * 256 ^ l.length
        ≤ ((v.toNat + 1) * 256) * 256 ^ l.length := Nat.mul_le_mul_right _ (by omega)
      _ = (v.toNat + 1) * 256 ^ (b :: l).length := by rw [List.length_cons]; ring
      _ ≤ 2 ^ 32 := h

theorem toNat_foldl_64 (l : List UInt8) (v : UInt64) (h : (v.toNat + 1) * 256 ^ l.length ≤ 2 ^ 64) :
    (l.foldl (fun (v : UInt64) b => (v <<< 8) ||| b.toUInt64) v).toNat =
      l.foldl (fun n b => n * 256 + b.toNat) v.toNat := by
  induction l generalizing v with
  | nil => rfl
  | cons b l ih =>
    have hb := b.toNat_lt
    have hpow : 1 ≤ 256 ^ l.length := Nat.one_le_pow _ _ (by decide)
    have hv : v.toNat < 2 ^ 56 := by
      simp only [List.length_cons, pow_succ] at h
      nlinarith
    rw [List.foldl_cons, List.foldl_cons, ih _ ?_, toNat_shl8_or_64 hv]
    rw [toNat_shl8_or_64 hv]
    calc (v.toNat * 256 + b.toNat + 1) * 256 ^ l.length
        ≤ ((v.toNat + 1) * 256) * 256 ^ l.length := Nat.mul_le_mul_right _ (by omega)
      _ = (v.toNat + 1) * 256 ^ (b :: l).length := by rw [List.length_cons]; ring
      _ ≤ 2 ^ 64 := h

theorem ofBe32_be32 (v : UInt32) : ofBe32 (be32 v) = v := by
  have hv := v.toNat_lt
  have e : UInt32.toNat 24 % 32 = 24 ∧ UInt32.toNat 16 % 32 = 16 ∧ UInt32.toNat 8 % 32 = 8 := by decide
  obtain ⟨e24, e16, e8⟩ := e
  refine UInt32.toNat_inj.1 ?_
  rw [ofBe32, toNat_foldl_32 _ _ (by simp)]
  simp only [be32, List.foldl_cons, List.foldl_nil, UInt32.toNat_toUInt8, UInt32.toNat_shiftRight,
    Nat.shiftRight_eq_div_pow, e24, e16, e8, UInt32.toNat_zero]
  omega

theorem be32_ofBe32 {l : List UInt8} (h : l.length = 4) : be32 (ofBe32 l) = l := by
  obtain ⟨a, b, c, d, rfl⟩ := List.length_eq_four.1 h
  have hlt := And.intro a.toNat_lt (And.intro b.toNat_lt (And.intro c.toNat_lt d.toNat_lt))
  have e : UInt32.toNat 24 % 32 = 24 ∧ UInt32.toNat 16 % 32 = 16 ∧ UInt32.toNat 8 % 32 = 8 := by decide
  obtain ⟨e24, e16, e8⟩ := e
  have hn : (ofBe32 [a, b, c, d]).toNat =
      ((a.toNat * 256 + b.toNat) * 256 + c.toNat) * 256 + d.toNat := by
    rw [ofBe32, toNat_foldl_32 _ _ (by simp)]
    simp
  simp only [be32, List.cons.injEq, and_true, ← UInt8.toNat_inj, UInt32.toNat_toUInt8,
    UInt32.toNat_shiftRight, Nat.shiftRight_eq_div_pow, e24, e16, e8, hn]
  omega

theorem ofBe64_be64 (v : UInt64) : ofBe64 (be64 v) = v := by
  have hv := v.toNat_lt
  have e : UInt64.toNat 56 % 64 = 56 ∧ UInt64.toNat 48 % 64 = 48 ∧ UInt64.toNat 40 % 64 = 40 ∧
      UInt64.toNat 32 % 64 = 32 ∧ UInt64.toNat 24 % 64 = 24 ∧ UInt64.toNat 16 % 64 = 16 ∧
      UInt64.toNat 8 % 64 = 8 := by decide
  obtain ⟨e56, e48, e40, e32, e24, e16, e8⟩ := e
  refine UInt64.toNat_inj.1 ?_
  rw [ofBe64, toNat_foldl_64 _ _ (by simp)]
  simp only [be64, List.foldl_cons, List.foldl_nil, UInt64.toNat_toUInt8, UInt64.toNat_shiftRight,
    Nat.shiftRight_eq_div_pow, e56, e48, e40, e32, e24, e16, e8, UInt64.toNat_zero]
  omega

theorem be64_ofBe64 {l : List UInt8} (h : l.length = 8) : be64 (ofBe64 l) = l := by
  obtain ⟨a, l, rfl⟩ := List.exists_cons_of_length_eq_add_one h
  obtain ⟨b, l, rfl⟩ := List.exists_cons_of_length_eq_add_one (n := 6) (by simpa using h)
  obtain ⟨c, l, rfl⟩ := List.exists_cons_of_length_eq_add_one (n := 5) (by simpa using h)
  obtain ⟨d, l, rfl⟩ := List.exists_cons_of_length_eq_add_one (n := 4) (by simpa using h)
  obtain ⟨i, j, k, m, rfl⟩ := List.length_eq_four.1 (by simpa using h : l.length = 4)
  have hlt := And.intro a.toNat_lt (And.intro b.toNat_lt (And.intro c.toNat_lt (And.intro d.toNat_lt
    (And.intro i.toNat_lt (And.intro j.toNat_lt (And.intro k.toNat_lt m.toNat_lt))))))
  have e : UInt64.toNat 56 % 64 = 56 ∧ UInt64.toNat 48 % 64 = 48 ∧ UInt64.toNat 40 % 64 = 40 ∧
      UInt64.toNat 32 % 64 = 32 ∧ UInt64.toNat 24 % 64 = 24 ∧ UInt64.toNat 16 % 64 = 16 ∧
      UInt64.toNat 8 % 64 = 8 := by decide
  obtain ⟨e56, e48, e40, e32, e24, e16, e8⟩ := e
  have hn : (ofBe64 [a, b, c, d, i, j, k, m]).toNat =
      ((((((a.toNat * 256 + b.toNat) * 256 + c.toNat) * 256 + d.toNat) * 256 + i.toNat) * 256 +
        j.toNat) * 256 + k.toNat) * 256 + m.toNat := by
    rw [ofBe64, toNat_foldl_64 _ _ (by simp)]
    simp
  simp only [be64, List.cons.injEq, and_true, ← UInt8.toNat_inj, UInt64.toNat_toUInt8,
    UInt64.toNat_shiftRight, Nat.shiftRight_eq_div_pow, e56, e48, e40, e32, e24, e16, e8, hn]
  omega

/-! ## Reading a concatenation from its front -/

variable {α : Type}

/-- Two lists that start with parts of one length agree part by part. -/
theorem append_inj_of_length {a b s t : List α} (hlen : a.length = b.length) :
    a ++ s = b ++ t ↔ a = b ∧ s = t :=
  ⟨fun h => List.append_inj h hlen, fun h => by rw [h.1, h.2]⟩

theorem be64_append_inj {v w : UInt64} {s t : List UInt8} :
    be64 v ++ s = be64 w ++ t ↔ v = w ∧ s = t := by
  rw [append_inj_of_length (by simp), be64_inj]

theorem vector_append_inj {n : Nat} {v w : Vector α n} {s t : List α} :
    v.toList ++ s = w.toList ++ t ↔ v = w ∧ s = t := by
  rw [append_inj_of_length (by simp), Vector.toList_inj]

/-- Two lists written part after part agree part by part, where parts of one shape that have
`P` can be told apart from their front, and the shapes agree. -/
theorem flatMap_append_inj_of {β γ : Type} {f : α → List β} {shape : α → γ} {P : α → Prop}
    (hf : ∀ a b, P a → P b → shape a = shape b → ∀ s t, f a ++ s = f b ++ t → a = b ∧ s = t)
    {l l' : List α} (hl : ∀ a ∈ l, P a) (hl' : ∀ a ∈ l', P a)
    (hshape : l.map shape = l'.map shape) {s t : List β} :
    l.flatMap f ++ s = l'.flatMap f ++ t ↔ l = l' ∧ s = t := by
  refine ⟨fun h => ?_, fun h => by rw [h.1, h.2]⟩
  induction l generalizing l' with
  | nil =>
    obtain rfl : l' = [] := by simpa using hshape.symm
    exact ⟨rfl, h⟩
  | cons a l ih =>
    cases l' with
    | nil => simp at hshape
    | cons b l' =>
      simp only [List.map_cons, List.cons.injEq] at hshape
      simp only [List.flatMap_cons, List.append_assoc] at h
      obtain ⟨hab, hrest⟩ := hf a b (hl a (by simp)) (hl' b (by simp)) hshape.1 _ _ h
      obtain ⟨htail, hst⟩ := ih (fun c hc => hl c (by simp [hc])) (fun c hc => hl' c (by simp [hc]))
        hshape.2 hrest
      exact ⟨by rw [hab, htail], hst⟩

/-- As `flatMap_append_inj_of`, of parts that can all be told apart. -/
theorem flatMap_append_inj {β γ : Type} {f : α → List β} {shape : α → γ}
    (hf : ∀ a b, shape a = shape b → ∀ s t, f a ++ s = f b ++ t → a = b ∧ s = t)
    {l l' : List α} (hshape : l.map shape = l'.map shape) {s t : List β} :
    l.flatMap f ++ s = l'.flatMap f ++ t ↔ l = l' ∧ s = t :=
  flatMap_append_inj_of (P := fun _ => True) (fun a b _ _ => hf a b) (fun _ _ => trivial)
    (fun _ _ => trivial) hshape

end MpcHunt.Words
