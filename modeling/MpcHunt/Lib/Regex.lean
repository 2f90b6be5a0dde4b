/-
Regular expressions over classes of symbols, with counted repetition: the
language of one, the matcher by derivatives, and searching in a text.
-/
import Mathlib

namespace MpcHunt

/-- A regular expression. `rep r lo more` repeats `r` from `lo` times to `lo + more` times,
without bound where there is no `more`. -/
inductive Re (α : Type) where
  | empty
  | eps
  | cls (p : α → Bool)
  | seq (r q : Re α)
  | alt (r q : Re α)
  | rep (r : Re α) (lo : Nat) (more : Option Nat)

namespace Re

variable {α : Type}

/-! ## Shorthands -/

/-- One of several. -/
def oneOf (rs : List (Re α)) : Re α := rs.foldr alt empty

/-- One after another. -/
def all (rs : List (Re α)) : Re α := rs.foldr seq eps

/-- Exactly these symbols. -/
def lit [DecidableEq α] (s : List α) : Re α := all (s.map fun c => cls fun d => d = c)

/-- `r{lo,hi}`. -/
def between (r : Re α) (lo hi : Nat) : Re α := rep r lo (some (hi - lo))

/-- `r{n}`. -/
def times (r : Re α) (n : Nat) : Re α := rep r n (some 0)

/-- `r?`. -/
def opt (r : Re α) : Re α := rep r 0 (some 1)

/-- `r+`. -/
def plus (r : Re α) : Re α := rep r 1 none

/-! ## The language -/

/-- How often a repetition may repeat. -/
def Counts (lo : Nat) (more : Option Nat) (n : Nat) : Prop := lo ≤ n ∧ ∀ m ∈ more, n ≤ lo + m

def lang : Re α → Language α
  | empty => 0
  | eps => 1
  | cls p => {w | ∃ a, p a = true ∧ w = [a]}
  | seq r q => lang r * lang q
  | alt r q => lang r + lang q
  | rep r lo more => {w | ∃ n, Counts lo more n ∧ w ∈ lang r ^ n}

@[simp] theorem mem_lang_empty (w : List α) : ¬ w ∈ lang (empty : Re α) := Language.notMem_zero w

@[simp] theorem mem_lang_eps (w : List α) : w ∈ lang (eps : Re α) ↔ w = [] := Language.mem_one w

theorem mem_lang_cls (p : α → Bool) (w : List α) : w ∈ lang (cls p) ↔ ∃ a, p a = true ∧ w = [a] :=
  Iff.rfl

theorem mem_lang_seq (r q : Re α) (w : List α) :
    w ∈ lang (seq r q) ↔ ∃ u ∈ lang r, ∃ v ∈ lang q, u ++ v = w := Language.mem_mul

theorem mem_lang_alt (r q : Re α) (w : List α) : w ∈ lang (alt r q) ↔ w ∈ lang r ∨ w ∈ lang q :=
  Language.mem_add _ _ _

theorem mem_lang_rep (r : Re α) (lo : Nat) (more : Option Nat) (w : List α) :
    w ∈ lang (rep r lo more) ↔ ∃ n, Counts lo more n ∧ w ∈ lang r ^ n := Iff.rfl

theorem mem_lang_oneOf (rs : List (Re α)) (w : List α) :
    w ∈ lang (oneOf rs) ↔ ∃ r ∈ rs, w ∈ lang r := by
  induction rs with
  | nil => simp [oneOf]
  | cons r rs ih =>
    unfold oneOf at ih ⊢
    rw [List.foldr_cons, mem_lang_alt, ih]
    simp

theorem mem_lang_lit [DecidableEq α] (s w : List α) : w ∈ lang (lit s) ↔ w = s := by
  unfold lit all
  induction s generalizing w with
  | nil => simp
  | cons c s ih =>
    rw [List.map_cons, List.foldr_cons, mem_lang_seq]
    constructor
    · intro ⟨u, ⟨a, ha, hu⟩, v, hv, hw⟩
      rw [← hw, hu, (ih v).1 hv]
      simpa using ha
    · intro hw
      exact ⟨[c], ⟨c, by simp, rfl⟩, s, (ih s).2 rfl, by simp [hw]⟩

/-- Some symbols of one class. -/
theorem mem_pow_cls {p : α → Bool} {w : List α} (h : ∀ c ∈ w, p c = true) :
    w ∈ lang (cls p) ^ w.length := by
  induction w with
  | nil => exact (Language.mem_one _).2 rfl
  | cons c w ih =>
    obtain ⟨hc, hw⟩ := List.forall_mem_cons.1 h
    rw [List.length_cons, pow_succ']
    exact Language.mem_mul.2 ⟨[c], ⟨c, hc, rfl⟩, w, ih hw, rfl⟩

/-- Some words of one language, one after another. -/
theorem flatten_mem_pow {l : Language α} {ws : List (List α)} (h : ∀ w ∈ ws, w ∈ l) :
    ws.flatten ∈ l ^ ws.length := by
  induction ws with
  | nil => exact (Language.mem_one _).2 rfl
  | cons w ws ih =>
    obtain ⟨hw, hws⟩ := List.forall_mem_cons.1 h
    rw [List.length_cons, pow_succ', List.flatten_cons]
    exact Language.mem_mul.2 ⟨w, hw, ws.flatten, ih hws, rfl⟩

theorem mem_lang_between {r : Re α} {lo hi : Nat} {w : List α} :
    w ∈ lang (between r lo hi) ↔ ∃ n, lo ≤ n ∧ n ≤ lo + (hi - lo) ∧ w ∈ lang r ^ n := by
  unfold between
  simp [mem_lang_rep, Counts, and_assoc]

/-! ## The matcher -/

/-- Whether the empty text matches. -/
def nullable : Re α → Bool
  | empty => false
  | eps => true
  | cls _ => false
  | seq r q => r.nullable && q.nullable
  | alt r q => r.nullable || q.nullable
  | rep r lo _ => lo = 0 || r.nullable

/-- One after the other, where the first may be known to match nothing or only the empty text. -/
def cat : Re α → Re α → Re α
  | empty, _ => empty
  | eps, q => q
  | r, q => seq r q

/-- One of two, where one may be known to match nothing. -/
def either : Re α → Re α → Re α
  | empty, q => q
  | r, empty => r
  | r, q => alt r q

/-- What must follow a symbol. -/
def deriv (a : α) : Re α → Re α
  | empty => empty
  | eps => empty
  | cls p => if p a then eps else empty
  | seq r q =>
    if r.nullable then either (cat (r.deriv a) q) (q.deriv a) else cat (r.deriv a) q
  | alt r q => either (r.deriv a) (q.deriv a)
  | rep r lo more =>
    match lo, more with
    | lo + 1, more => cat (r.deriv a) (rep r lo more)
    | 0, none => cat (r.deriv a) (rep r 0 none)
    | 0, some 0 => empty
    | 0, some (more + 1) => cat (r.deriv a) (rep r 0 (some more))

/-- `fullmatch`. -/
def fullmatch : Re α → List α → Bool
  | r, [] => r.nullable
  | r, a :: s => (r.deriv a).fullmatch s

theorem lang_cat (r q : Re α) : lang (cat r q) = lang (seq r q) := by
  cases r with
  | empty => exact (zero_mul _).symm
  | eps => exact (one_mul _).symm
  | cls | seq | alt | rep => rfl

theorem lang_either (r q : Re α) : lang (either r q) = lang (alt r q) := by
  cases r with
  | empty => exact (zero_add _).symm
  | eps | cls | seq | alt | rep =>
    cases q with
    | empty => exact (add_zero _).symm
    | eps | cls | seq | alt | rep => rfl

theorem nil_mem_pow {l : Language α} (h : [] ∈ l) (n : Nat) : [] ∈ l ^ n := by
  induction n with
  | zero => exact (Language.mem_one _).2 rfl
  | succ n ih =>
    rw [pow_succ]
    exact Language.mem_mul.2 ⟨[], ih, [], h, rfl⟩

theorem nil_mem_pow_iff {l : Language α} (n : Nat) : [] ∈ l ^ n ↔ n = 0 ∨ [] ∈ l := by
  constructor
  · intro h
    cases n with
    | zero => exact .inl rfl
    | succ n =>
      rw [pow_succ] at h
      obtain ⟨u, -, v, hv, huv⟩ := Language.mem_mul.1 h
      obtain ⟨-, rfl⟩ := List.append_eq_nil_iff.1 huv
      exact .inr hv
  · intro h
    rcases h with rfl | h
    · exact (Language.mem_one _).2 rfl
    · exact nil_mem_pow h n

theorem nullable_iff (r : Re α) : r.nullable = true ↔ [] ∈ lang r := by
  induction r with
  | empty => simp [nullable]
  | eps => simp [nullable]
  | cls p => simp [nullable, mem_lang_cls]
  | seq r q ihr ihq =>
    rw [nullable, Bool.and_eq_true, ihr, ihq, mem_lang_seq]
    constructor
    · intro ⟨hr, hq⟩
      exact ⟨[], hr, [], hq, rfl⟩
    · intro ⟨u, hu, v, hv, huv⟩
      obtain ⟨rfl, rfl⟩ := List.append_eq_nil_iff.1 huv
      exact ⟨hu, hv⟩
  | alt r q ihr ihq => rw [nullable, Bool.or_eq_true, ihr, ihq, mem_lang_alt]
  | rep r lo more ih =>
    rw [nullable, Bool.or_eq_true, decide_eq_true_iff, ih, mem_lang_rep]
    constructor
    · intro h
      refine ⟨lo, ⟨Nat.le_refl lo, fun m _ => Nat.le_add_right lo m⟩, ?_⟩
      exact (nil_mem_pow_iff lo).2 h
    · intro ⟨n, hn, h⟩
      rcases (nil_mem_pow_iff n).1 h with rfl | h
      · exact .inl (Nat.le_zero.1 hn.1)
      · exact .inr h

/-- A symbol at the front of a repetition is at the front of one of its parts; parts before it
are empty and can go after it. -/
theorem cons_mem_pow {l : Language α} {a : α} {n : Nat} {w : List α} :
    a :: w ∈ l ^ (n + 1) ↔ ∃ u v, u ++ v = w ∧ a :: u ∈ l ∧ v ∈ l ^ n := by
  constructor
  · intro h
    induction n generalizing w with
    | zero => exact ⟨w, [], List.append_nil w, by simpa using h, (Language.mem_one _).2 rfl⟩
    | succ n ih =>
      rw [pow_succ'] at h
      obtain ⟨x, hx, y, hy, hxy⟩ := Language.mem_mul.1 h
      cases x with
      | cons b u =>
        rw [List.cons_append, List.cons.injEq] at hxy
        obtain ⟨rfl, hw⟩ := hxy
        exact ⟨u, y, hw, hx, hy⟩
      | nil =>
        rw [List.nil_append] at hxy
        rw [hxy] at hy
        obtain ⟨u, v, hw, hu, hv⟩ := ih hy
        refine ⟨u, v, hw, hu, ?_⟩
        rw [pow_succ']
        exact Language.mem_mul.2 ⟨[], hx, v, hv, rfl⟩
  · intro ⟨u, v, hw, hu, hv⟩
    rw [pow_succ', ← hw]
    exact Language.mem_mul.2 ⟨a :: u, hu, v, hv, rfl⟩

theorem cons_mem_rep {r : Re α} {lo : Nat} {more : Option Nat} {a : α} {w : List α} :
    a :: w ∈ lang (rep r lo more) ↔
      ∃ n, Counts lo more (n + 1) ∧ ∃ u v, u ++ v = w ∧ a :: u ∈ lang r ∧ v ∈ lang r ^ n := by
  rw [mem_lang_rep]
  constructor
  · intro ⟨n, hn, h⟩
    cases n with
    | zero => cases (Language.mem_one _).1 h
    | succ n => exact ⟨n, hn, cons_mem_pow.1 h⟩
  · intro ⟨n, hn, h⟩
    exact ⟨n + 1, hn, cons_mem_pow.2 h⟩

theorem mem_deriv (r : Re α) (a : α) (w : List α) : w ∈ lang (r.deriv a) ↔ a :: w ∈ lang r := by
  induction r generalizing w with
  | empty => simp [deriv]
  | eps => simp [deriv]
  | cls p =>
    rw [deriv, mem_lang_cls]
    by_cases h : p a = true
    · rw [if_pos h, mem_lang_eps]
      constructor
      · intro hw
        exact ⟨a, h, by rw [hw]⟩
      · intro ⟨b, _, hb⟩
        exact (List.cons.inj hb).2
    · rw [if_neg h]
      constructor
      · intro hw
        exact absurd hw (mem_lang_empty w)
      · intro ⟨b, hb, hw⟩
        rw [(List.cons.inj hw).1] at h
        exact absurd hb h
  | seq r q ihr ihq =>
    have hcons : a :: w ∈ lang (seq r q) ↔
        w ∈ lang (seq (r.deriv a) q) ∨ r.nullable = true ∧ a :: w ∈ lang q := by
      rw [mem_lang_seq, mem_lang_seq, nullable_iff]
      constructor
      · intro ⟨u, hu, v, hv, huv⟩
        cases u with
        | nil =>
          rw [List.nil_append] at huv
          exact .inr ⟨hu, huv ▸ hv⟩
        | cons b u =>
          rw [List.cons_append, List.cons.injEq] at huv
          obtain ⟨rfl, huv⟩ := huv
          exact .inl ⟨u, (ihr u).2 hu, v, hv, huv⟩
      · intro h
        rcases h with ⟨u, hu, v, hv, huv⟩ | ⟨hnil, hq⟩
        · exact ⟨a :: u, (ihr u).1 hu, v, hv, by rw [List.cons_append, huv]⟩
        · exact ⟨[], hnil, a :: w, hq, rfl⟩
    rw [hcons, deriv]
    by_cases h : r.nullable = true
    · rw [if_pos h, lang_either, mem_lang_alt, lang_cat, ihq]
      simp [h]
    · rw [if_neg h, lang_cat]
      simp [h]
  | alt r q ihr ihq => rw [deriv, lang_either, mem_lang_alt, mem_lang_alt, ihr, ihq]
  | rep r lo more ih =>
    -- one part less: the counts of what follows are those of `n` with `n + 1` counted
    have key : ∀ lo' more', (∀ n, Counts lo more (n + 1) ↔ Counts lo' more' n) →
        (w ∈ lang (cat (r.deriv a) (rep r lo' more')) ↔ a :: w ∈ lang (rep r lo more)) := by
      intro lo' more' hcounts
      rw [lang_cat, mem_lang_seq, cons_mem_rep]
      constructor
      · intro ⟨u, hu, v, ⟨n, hn, hv⟩, huv⟩
        exact ⟨n, (hcounts n).2 hn, u, v, huv, (ih u).1 hu, hv⟩
      · intro ⟨n, hn, u, v, huv, hu, hv⟩
        exact ⟨u, (ih u).2 hu, v, ⟨n, (hcounts n).1 hn, hv⟩, huv⟩
    cases lo with
    | succ lo =>
      refine key lo more fun n => ?_
      unfold Counts
      constructor
      · intro ⟨h, hm⟩
        exact ⟨by omega, fun m hmem => by have := hm m hmem; omega⟩
      · intro ⟨h, hm⟩
        exact ⟨by omega, fun m hmem => by have := hm m hmem; omega⟩
    | zero =>
      cases more with
      | none =>
        refine key 0 none fun n => ?_
        simp [Counts]
      | some k =>
        cases k with
        | zero =>
          rw [cons_mem_rep]
          constructor
          · intro h
            exact absurd h (mem_lang_empty w)
          · intro ⟨n, hn, _⟩
            have := hn.2 0 rfl
            omega
        | succ k =>
          refine key 0 (some k) fun n => ?_
          simp [Counts]

/-- The matcher decides the language. -/
theorem fullmatch_iff (r : Re α) (s : List α) : r.fullmatch s = true ↔ s ∈ lang r := by
  induction s generalizing r with
  | nil => exact nullable_iff r
  | cons a s ih => rw [fullmatch, ih, mem_deriv]

/-! ## Searching -/

/-- Whether some start of the text matches. -/
def matchesFront : Re α → List α → Bool
  | empty, _ => false
  | r, [] => r.nullable
  | r, a :: s => r.nullable || (r.deriv a).matchesFront s

/-- `search`. -/
def search (r : Re α) : List α → Bool
  | [] => r.matchesFront []
  | a :: s => r.matchesFront (a :: s) || search r s

theorem matchesFront_nil (r : Re α) : r.matchesFront [] = r.nullable := by
  cases r <;> rfl

theorem matchesFront_cons (r : Re α) (a : α) (s : List α) :
    r.matchesFront (a :: s) = (r.nullable || (r.deriv a).matchesFront s) := by
  cases r with
  | empty => cases s <;> rfl
  | eps | cls | seq | alt | rep => rfl

theorem matchesFront_iff (r : Re α) (s : List α) :
    r.matchesFront s = true ↔ ∃ u v, s = u ++ v ∧ u ∈ lang r := by
  induction s generalizing r with
  | nil =>
    rw [matchesFront_nil, nullable_iff]
    constructor
    · intro h
      exact ⟨[], [], rfl, h⟩
    · intro ⟨u, v, huv, hu⟩
      obtain ⟨rfl, -⟩ := List.append_eq_nil_iff.1 huv.symm
      exact hu
  | cons a s ih =>
    rw [matchesFront_cons, Bool.or_eq_true, nullable_iff, ih]
    constructor
    · intro h
      rcases h with h | ⟨u, v, huv, hu⟩
      · exact ⟨[], a :: s, rfl, h⟩
      · exact ⟨a :: u, v, by rw [huv, List.cons_append], (mem_deriv r a u).1 hu⟩
    · intro ⟨u, v, huv, hu⟩
      cases u with
      | nil => exact .inl hu
      | cons b u =>
        rw [List.cons_append, List.cons.injEq] at huv
        obtain ⟨rfl, huv⟩ := huv
        exact .inr ⟨u, v, huv, (mem_deriv r a u).2 hu⟩

theorem search_iff (r : Re α) (s : List α) :
    r.search s = true ↔ ∃ u m v, s = u ++ (m ++ v) ∧ m ∈ lang r := by
  induction s with
  | nil =>
    rw [search, matchesFront_iff]
    constructor
    · intro ⟨m, v, h, hm⟩
      exact ⟨[], m, v, h, hm⟩
    · intro ⟨u, m, v, h, hm⟩
      obtain ⟨-, hmv⟩ := List.append_eq_nil_iff.1 h.symm
      exact ⟨m, v, hmv.symm, hm⟩
  | cons a s ih =>
    rw [search, Bool.or_eq_true, matchesFront_iff, ih]
    constructor
    · intro h
      rcases h with ⟨m, v, h, hm⟩ | ⟨u, m, v, h, hm⟩
      · exact ⟨[], m, v, h, hm⟩
      · exact ⟨a :: u, m, v, by rw [h, List.cons_append], hm⟩
    · intro ⟨u, m, v, h, hm⟩
      cases u with
      | nil => exact .inl ⟨m, v, h, hm⟩
      | cons b u =>
        rw [List.cons_append, List.cons.injEq] at h
        exact .inr ⟨u, m, v, h.2, hm⟩

/-- A symbol no match holds cuts the text in two. -/
theorem search_append_cons {r : Re α} {c : α} (hc : ∀ m ∈ lang r, c ∉ m) (u v : List α) :
    r.search (u ++ c :: v) = true ↔ r.search u = true ∨ r.search v = true := by
  rw [search_iff, search_iff, search_iff]
  constructor
  · intro ⟨x, m, y, h, hm⟩
    rcases List.append_eq_append_iff.1 h with ⟨z, hx, hz⟩ | ⟨z, hu, hz⟩
    · -- the match starts after `u`
      cases z with
      | nil =>
        rw [List.nil_append] at hz
        cases m with
        | nil => exact .inl ⟨u, [], [], by simp, hm⟩
        | cons b m =>
          rw [List.cons_append, List.cons.injEq] at hz
          exact absurd (hz.1 ▸ List.mem_cons_self) (hc _ hm)
      | cons b z =>
        rw [List.cons_append, List.cons.injEq] at hz
        exact .inr ⟨z, m, y, hz.2, hm⟩
    · -- it starts in `u`, and ends there: it does not hold the symbol
      rcases List.append_eq_append_iff.1 hz with ⟨t, hz', ht⟩ | ⟨t, hm', ht⟩
      · exact .inl ⟨x, m, t, by rw [hu, hz'], hm⟩
      · cases t with
        | nil => exact .inl ⟨x, m, [], by rw [hu, hm', List.append_nil, List.append_nil], hm⟩
        | cons b t =>
          rw [List.cons_append, List.cons.injEq] at ht
          refine absurd ?_ (hc _ hm)
          rw [hm', ← ht.1]
          simp
  · intro h
    rcases h with ⟨x, m, y, rfl, hm⟩ | ⟨x, m, y, rfl, hm⟩
    · exact ⟨x, m, y ++ c :: v, by simp, hm⟩
    · exact ⟨u ++ c :: x, m, y, by simp, hm⟩

/-- A text in which pieces are joined by such a symbol. -/
theorem search_intercalate {r : Re α} {c : α} (hc : ∀ m ∈ lang r, c ∉ m) (hr : r.search [] = false)
    (pieces : List (List α)) :
    r.search ([c].intercalate pieces) = true ↔ ∃ w ∈ pieces, r.search w = true := by
  induction pieces with
  | nil => simp [List.intercalate, hr]
  | cons w pieces ih =>
    cases pieces with
    | nil => simp [List.intercalate]
    | cons w' pieces =>
      have hjoin : [c].intercalate (w :: w' :: pieces) = w ++ c :: [c].intercalate (w' :: pieces) := by
        simp [List.intercalate]
      rw [hjoin, search_append_cons hc, ih]
      simp

/-! ## The symbols and the length of a match -/

/-- Every class of the expression is within `P`. -/
def Within (P : α → Prop) : Re α → Prop
  | empty => True
  | eps => True
  | cls p => ∀ a, p a = true → P a
  | seq r q => r.Within P ∧ q.Within P
  | alt r q => r.Within P ∧ q.Within P
  | rep r _ _ => r.Within P

theorem forall_of_within {P : α → Prop} {r : Re α} (h : r.Within P) {w : List α} (hw : w ∈ lang r) :
    ∀ a ∈ w, P a := by
  induction r generalizing w with
  | empty => exact absurd hw (mem_lang_empty w)
  | eps =>
    rw [(mem_lang_eps w).1 hw]
    simp
  | cls p =>
    obtain ⟨a, ha, rfl⟩ := hw
    simpa using h a ha
  | seq r q ihr ihq =>
    obtain ⟨u, hu, v, hv, rfl⟩ := (mem_lang_seq r q w).1 hw
    intro a ha
    rcases List.mem_append.1 ha with ha | ha
    · exact ihr h.1 hu a ha
    · exact ihq h.2 hv a ha
  | alt r q ihr ihq =>
    rcases (mem_lang_alt r q w).1 hw with hw | hw
    · exact ihr h.1 hw
    · exact ihq h.2 hw
  | rep r lo more ih =>
    obtain ⟨n, -, hw⟩ := hw
    induction n generalizing w with
    | zero =>
      rw [(Language.mem_one w).1 hw]
      simp
    | succ n ihn =>
      rw [pow_succ] at hw
      obtain ⟨u, hu, v, hv, rfl⟩ := Language.mem_mul.1 hw
      intro a ha
      rcases List.mem_append.1 ha with ha | ha
      · exact ihn hu a ha
      · exact ih h hv a ha

theorem within_lit [DecidableEq α] {P : α → Prop} {s : List α} : (lit s).Within P ↔ ∀ c ∈ s, P c := by
  unfold lit all
  induction s with
  | nil => simp [Within]
  | cons c s ih =>
    simp only [List.map_cons, List.foldr_cons, Within, decide_eq_true_eq, forall_eq, ih,
      List.forall_mem_cons]

theorem within_oneOf {P : α → Prop} {rs : List (Re α)} :
    (oneOf rs).Within P ↔ ∀ r ∈ rs, r.Within P := by
  unfold oneOf
  induction rs with
  | nil => simp [Within]
  | cons r rs ih => simp only [List.foldr_cons, Within, ih, List.forall_mem_cons]

theorem within_all {P : α → Prop} {rs : List (Re α)} : (all rs).Within P ↔ ∀ r ∈ rs, r.Within P := by
  unfold all
  induction rs with
  | nil => simp [Within]
  | cons r rs ih => simp only [List.foldr_cons, Within, ih, List.forall_mem_cons]

/-- Every match has a symbol in `P`. -/
def Meets (P : α → Prop) : Re α → Prop
  | empty => True
  | eps => False
  | cls p => ∀ a, p a = true → P a
  | seq r q => r.Meets P ∨ q.Meets P
  | alt r q => r.Meets P ∧ q.Meets P
  | rep r lo _ => 0 < lo ∧ r.Meets P

theorem exists_of_meets {P : α → Prop} {r : Re α} (h : r.Meets P) {w : List α} (hw : w ∈ lang r) :
    ∃ a ∈ w, P a := by
  induction r generalizing w with
  | empty => exact absurd hw (mem_lang_empty w)
  | eps => exact absurd h id
  | cls p =>
    obtain ⟨a, ha, rfl⟩ := hw
    exact ⟨a, List.mem_singleton.2 rfl, h a ha⟩
  | seq r q ihr ihq =>
    obtain ⟨u, hu, v, hv, rfl⟩ := (mem_lang_seq r q w).1 hw
    rcases h with h | h
    · obtain ⟨a, ha, hp⟩ := ihr h hu
      exact ⟨a, List.mem_append_left v ha, hp⟩
    · obtain ⟨a, ha, hp⟩ := ihq h hv
      exact ⟨a, List.mem_append_right u ha, hp⟩
  | alt r q ihr ihq =>
    rcases (mem_lang_alt r q w).1 hw with hw | hw
    · exact ihr h.1 hw
    · exact ihq h.2 hw
  | rep r lo more ih =>
    obtain ⟨n, hn, hw⟩ := hw
    obtain ⟨n, rfl⟩ := Nat.exists_eq_add_one.2 (h.1.trans_le hn.1)
    rw [pow_succ] at hw
    obtain ⟨u, -, v, hv, rfl⟩ := Language.mem_mul.1 hw
    obtain ⟨a, ha, hp⟩ := ih h.2 hv
    exact ⟨a, List.mem_append_right u ha, hp⟩

theorem meets_oneOf {P : α → Prop} {rs : List (Re α)} :
    (oneOf rs).Meets P ↔ ∀ r ∈ rs, r.Meets P := by
  unfold oneOf
  induction rs with
  | nil => simp [Meets]
  | cons r rs ih => simp only [List.foldr_cons, Meets, ih, List.forall_mem_cons]

theorem meets_all {P : α → Prop} {rs : List (Re α)} : (all rs).Meets P ↔ ∃ r ∈ rs, r.Meets P := by
  unfold all
  induction rs with
  | nil => simp [Meets]
  | cons r rs ih => simp only [List.foldr_cons, Meets, ih, List.exists_mem_cons_iff]

/-- A text without such a symbol has no match. -/
theorem search_eq_false {P : α → Prop} {r : Re α} (h : r.Meets P) {s : List α}
    (hs : ∀ a ∈ s, ¬ P a) : r.search s = false := by
  rw [← Bool.not_eq_true, search_iff]
  intro ⟨u, m, v, hs', hm⟩
  obtain ⟨a, ha, hp⟩ := exists_of_meets h hm
  refine hs a ?_ hp
  rw [hs']
  simp [ha]

/-- How long a match may be, if there is a bound. -/
def maxLength : Re α → Option Nat
  | empty => some 0
  | eps => some 0
  | cls _ => some 1
  | seq r q => do pure ((← r.maxLength) + (← q.maxLength))
  | alt r q => do pure (max (← r.maxLength) (← q.maxLength))
  | rep r lo more => do pure ((lo + (← more)) * (← r.maxLength))

theorem length_le_maxLength {r : Re α} {n : Nat} (h : r.maxLength = some n) {w : List α}
    (hw : w ∈ lang r) : w.length ≤ n := by
  induction r generalizing n w with
  | empty => exact absurd hw (mem_lang_empty w)
  | eps =>
    rw [(mem_lang_eps w).1 hw]
    exact Nat.zero_le n
  | cls p =>
    obtain ⟨a, -, rfl⟩ := hw
    cases h
    exact Nat.le_refl 1
  | seq r q ihr ihq =>
    simp only [maxLength, bind, Option.bind_eq_some_iff, pure, Option.some.injEq] at h
    obtain ⟨i, hi, j, hj, rfl⟩ := h
    obtain ⟨u, hu, v, hv, rfl⟩ := (mem_lang_seq r q w).1 hw
    have := ihr hi hu
    have := ihq hj hv
    rw [List.length_append]
    omega
  | alt r q ihr ihq =>
    simp only [maxLength, bind, Option.bind_eq_some_iff, pure, Option.some.injEq] at h
    obtain ⟨i, hi, j, hj, rfl⟩ := h
    rcases (mem_lang_alt r q w).1 hw with hw | hw
    · have := ihr hi hw
      omega
    · have := ihq hj hw
      omega
  | rep r lo more ih =>
    simp only [maxLength, bind, Option.bind_eq_some_iff, pure, Option.some.injEq] at h
    obtain ⟨m, hm, i, hi, rfl⟩ := h
    obtain ⟨k, hk, hw⟩ := hw
    have hle : k ≤ lo + m := hk.2 m hm
    have hpow : ∀ {k : Nat} {w : List α}, w ∈ lang r ^ k → w.length ≤ k * i := by
      intro k
      induction k with
      | zero =>
        intro w hw
        rw [(Language.mem_one w).1 hw]
        exact Nat.zero_le _
      | succ k ihk =>
        intro w hw
        rw [pow_succ] at hw
        obtain ⟨u, hu, v, hv, rfl⟩ := Language.mem_mul.1 hw
        have := ihk hu
        have := ih hi hv
        rw [List.length_append, Nat.succ_mul]
        omega
    exact (hpow hw).trans (Nat.mul_le_mul_right i hle)

end Re

end MpcHunt
