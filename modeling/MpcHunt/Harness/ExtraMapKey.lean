/-
`EXTRA_MAP_KEY` in `apply_r4`: whom the extra entry speaks for. The header
speaks of sets of ids. The code sorts two lists and takes their difference as
`std::set_difference` does, which keeps an id as often as the players list it
more often than the signers.
-/
import MpcHunt.Harness.Mutators

namespace MpcHunt.Harness

/-! ## The difference of two sorted lists -/

theorem sortIds_perm (ids : List UInt64) : (sortIds ids).Perm ids :=
  List.perm_insertionSort _ ids

theorem sortIds_sorted (ids : List UInt64) : (sortIds ids).Pairwise (· ≤ ·) :=
  List.pairwise_insertionSort _ ids

theorem setDifference_sublist (as bs : List UInt64) : (setDifference as bs).Sublist as := by
  fun_induction setDifference as bs with
  | case1 => exact .slnil
  | case2 => exact .refl _
  | case3 a as b bs hlt ih => exact ih.cons_cons a
  | case4 a as b bs hlt hgt ih => exact ih
  | case5 a as b bs hlt hgt ih => exact ih.cons a

/-- An id smaller than the head of a sorted list is not in it. -/
theorem count_eq_zero_of_lt {a b : UInt64} {bs : List UInt64} (h : (b :: bs).Pairwise (· ≤ ·))
    (hlt : a < b) : (b :: bs).count a = 0 := by
  refine List.count_eq_zero.2 fun hmem => ?_
  rcases List.mem_cons.1 hmem with rfl | hmem
  · exact UInt64.lt_irrefl a hlt
  · exact absurd (List.rel_of_pairwise_cons h hmem) (UInt64.not_le.2 hlt)

theorem count_setDifference (id : UInt64) (as bs : List UInt64) (ha : as.Pairwise (· ≤ ·))
    (hb : bs.Pairwise (· ≤ ·)) : (setDifference as bs).count id = as.count id - bs.count id := by
  fun_induction setDifference as bs with
  | case1 => simp
  | case2 => simp
  | case3 a as b bs hlt ih =>
    rw [List.count_cons, List.count_cons, ih ha.of_cons hb]
    by_cases hid : a = id
    · have hzero := count_eq_zero_of_lt hb hlt
      rw [hid] at hzero
      omega
    · simp [hid]
  | case4 a as b bs hlt hgt ih =>
    rw [ih ha hb.of_cons, List.count_cons (a := id) (b := b)]
    by_cases hid : b = id
    · have hzero := count_eq_zero_of_lt ha hgt
      rw [hid] at hzero
      omega
    · simp [hid]
  | case5 a as b bs hlt hgt ih =>
    have hab : a = b := UInt64.le_antisymm (UInt64.not_lt.1 hgt) (UInt64.not_lt.1 hlt)
    rw [ih ha.of_cons hb.of_cons, hab, List.count_cons, List.count_cons]
    omega

/-! ## The id of the extra entry -/

section
variable (playerIds signerIds : List UInt64)

/-- The fixture players that do not sign. -/
def nonSigners : Set UInt64 := {id | id ∈ playerIds ∧ id ∉ signerIds}

/-- The ids listed more often among the players than among the signers. -/
def surplus : Set UInt64 := {id | signerIds.count id < playerIds.count id}

variable {playerIds signerIds}

theorem nonSigners_subset_surplus : nonSigners playerIds signerIds ⊆ surplus playerIds signerIds := by
  intro id h
  have hpos := List.count_pos_iff.2 h.1
  have hzero := List.count_eq_zero.2 h.2
  show signerIds.count id < playerIds.count id
  omega

theorem mem_nonSigners_of_surplus {id : UInt64} (h : id ∈ surplus playerIds signerIds)
    (hsigner : id ∉ signerIds) : id ∈ nonSigners playerIds signerIds := by
  have hlt : signerIds.count id < playerIds.count id := h
  exact ⟨List.count_pos_iff.1 (by omega), hsigner⟩

theorem isLeast_nonSigners {id : UInt64} (h : IsLeast (surplus playerIds signerIds) id)
    (hsigner : id ∉ signerIds) : IsLeast (nonSigners playerIds signerIds) id :=
  ⟨mem_nonSigners_of_surplus h.1 hsigner, fun _ hd => h.2 (nonSigners_subset_surplus hd)⟩

theorem mem_setDifference_sortIds {id : UInt64} :
    id ∈ setDifference (sortIds playerIds) (sortIds signerIds) ↔ id ∈ surplus playerIds signerIds := by
  rw [← List.count_pos_iff, count_setDifference id _ _ (sortIds_sorted _) (sortIds_sorted _),
    (sortIds_perm _).count_eq, (sortIds_perm _).count_eq]
  show _ ↔ signerIds.count id < playerIds.count id
  omega

/-- The difference starts with its least id. -/
theorem isLeast_of_setDifference_eq_cons {id : UInt64} {ids : List UInt64}
    (h : setDifference (sortIds playerIds) (sortIds signerIds) = id :: ids) :
    IsLeast (surplus playerIds signerIds) id := by
  have hsorted : (id :: ids).Pairwise (· ≤ ·) :=
    h ▸ (sortIds_sorted playerIds).sublist (setDifference_sublist _ _)
  refine ⟨mem_setDifference_sortIds.1 (h ▸ List.mem_cons_self), fun d hd => ?_⟩
  rw [← mem_setDifference_sortIds, h] at hd
  rcases List.mem_cons.1 hd with rfl | hd
  · exact UInt64.le_refl _
  · exact List.rel_of_pairwise_cons hsorted hd

theorem isLeast_unique {ids : Set UInt64} {a b : UInt64} (ha : IsLeast ids a) (hb : IsLeast ids b) :
    a = b :=
  UInt64.le_antisymm (ha.2 hb.1) (hb.2 ha.1)

end

/-- The single all-zero scalar of the extra entry. -/
def zeroEntry : List Scalar := [Vector.replicate 32 0]

/-- What the code inserts, if it inserts, is keyed by the least surplus id. -/
theorem applyR4_extraMapKey {m : Mutation} (sis : IdMap (List Scalar))
    (playerIds signerIds : List UInt64) (hround : m.round = 4)
    (hfield : m.field = .r4Si) (hop : m.op = .extraMapKey) :
    (surplus playerIds signerIds = ∅ ∧ applyR4 m sis playerIds signerIds = (false, sis)) ∨
    ∃ id, IsLeast (surplus playerIds signerIds) id ∧ applyR4 m sis playerIds signerIds =
      if id ∈ sis then (false, sis) else (true, sis.insert id zeroEntry) := by
  have henabled : m.enabled = true := by simp [Mutation.enabled, hround, hop]
  cases hdiff : setDifference (sortIds playerIds) (sortIds signerIds) with
  | nil =>
    refine .inl ⟨Set.eq_empty_of_forall_notMem fun id hid => ?_, ?_⟩
    · rw [← mem_setDifference_sortIds, hdiff] at hid
      exact List.not_mem_nil hid
    · simp [applyR4, hround, hfield, hop, henabled, hdiff]
  | cons id ids =>
    have hleast := isLeast_of_setDifference_eq_cons hdiff
    have hplayer : id ∈ sortIds playerIds :=
      (setDifference_sublist _ _).subset (hdiff ▸ List.mem_cons_self)
    refine .inr ⟨id, hleast, ?_⟩
    simp [applyR4, hround, hfield, hop, henabled, hdiff, hplayer, zeroEntry]

/-! ## For whom it speaks -/

/-- The answer is the old map unchanged, or true and one more entry, a zero scalar for
the smallest player that does not sign; and it is true if there is such a player and no
entry of it. -/
def SpeaksForNonSigner (sis : IdMap (List Scalar)) (playerIds signerIds : List UInt64)
    (answer : Bool × IdMap (List Scalar)) : Prop :=
  (answer = (false, sis) ∨ ∃ id, IsLeast (nonSigners playerIds signerIds) id ∧ id ∉ sis ∧
    answer = (true, sis.insert id zeroEntry)) ∧
  ∀ id, IsLeast (nonSigners playerIds signerIds) id → id ∉ sis → answer.1 = true

/-- The least surplus id is a signer's, and not both this id and the smallest player that
does not sign, if there is one, have an entry. -/
def Masked (sis : IdMap (List Scalar)) (playerIds signerIds : List UInt64) : Prop :=
  ∃ signer ∈ signerIds, IsLeast (surplus playerIds signerIds) signer ∧
    ¬ (signer ∈ sis ∧ ∀ id, IsLeast (nonSigners playerIds signerIds) id → id ∈ sis)

section
variable {sis : IdMap (List Scalar)} {playerIds signerIds : List UInt64}

theorem not_masked {id : UInt64} (hleast : IsLeast (surplus playerIds signerIds) id)
    (hsigner : id ∉ signerIds) : ¬ Masked sis playerIds signerIds := by
  intro hmasked
  obtain ⟨signer, hmem, hsurplus, -⟩ := hmasked
  exact hsigner (isLeast_unique hsurplus hleast ▸ hmem)

/-- No player is listed twice, as in every snapshot: the header's sets are the code's. -/
theorem not_masked_of_nodup (h : playerIds.Nodup) : ¬ Masked sis playerIds signerIds := by
  intro hmasked
  obtain ⟨signer, hmem, ⟨hsurplus, -⟩, -⟩ := hmasked
  have hlt : signerIds.count signer < playerIds.count signer := hsurplus
  have hone := List.nodup_iff_count_le_one.1 h signer
  have hpos := List.count_pos_iff.2 hmem
  omega

theorem masked_iff {signer : UInt64} (hleast : IsLeast (surplus playerIds signerIds) signer)
    (hsigner : signer ∈ signerIds) : Masked sis playerIds signerIds ↔
      ¬ (signer ∈ sis ∧ ∀ id, IsLeast (nonSigners playerIds signerIds) id → id ∈ sis) := by
  constructor
  · intro hmasked
    obtain ⟨other, -, hsurplus, h⟩ := hmasked
    exact isLeast_unique hsurplus hleast ▸ h
  · intro h
    exact ⟨signer, hsigner, hleast, h⟩

/-- Nothing is inserted where there is nothing to insert. -/
theorem speaks_of_surplus_empty (h : surplus playerIds signerIds = ∅) :
    SpeaksForNonSigner sis playerIds signerIds (false, sis) := by
  refine ⟨.inl rfl, fun id hid => ?_⟩
  have hmem := nonSigners_subset_surplus hid.1
  rw [h] at hmem
  exact hmem.elim

/-- An id of no signer is the one the header means. -/
theorem speaks_of_nonSigner {id : UInt64} (hleast : IsLeast (nonSigners playerIds signerIds) id) :
    SpeaksForNonSigner sis playerIds signerIds
      (if id ∈ sis then (false, sis) else (true, sis.insert id zeroEntry)) := by
  by_cases hmem : id ∈ sis
  · rw [if_pos hmem]
    refine ⟨.inl rfl, fun other hother habsent => ?_⟩
    exact (habsent (isLeast_unique hleast hother ▸ hmem)).elim
  · rw [if_neg hmem]
    exact ⟨.inr ⟨id, hleast, hmem, rfl⟩, fun _ _ _ => rfl⟩

/-- A signer's id is never inserted rightly, and hides the id that was to be. -/
theorem speaks_of_signer_iff {signer : UInt64} (hsigner : signer ∈ signerIds) :
    SpeaksForNonSigner sis playerIds signerIds
      (if signer ∈ sis then (false, sis) else (true, sis.insert signer zeroEntry)) ↔
    signer ∈ sis ∧ ∀ id, IsLeast (nonSigners playerIds signerIds) id → id ∈ sis := by
  by_cases hmem : signer ∈ sis
  · rw [if_pos hmem]
    constructor
    · intro h
      refine ⟨hmem, fun id hid => ?_⟩
      by_contra habsent
      exact absurd (h.2 id hid habsent) (by simp)
    · intro h
      exact ⟨.inl rfl, fun id hid habsent => (habsent (h.2 id hid)).elim⟩
  · rw [if_neg hmem]
    constructor
    · intro h
      obtain ⟨h | ⟨id, hid, -, h⟩, -⟩ := h
      · simp at h
      · have hin : signer ∈ sis.insert id zeroEntry := by
          rw [← (Prod.mk.inj h).2]
          simp
        rcases Std.ExtTreeMap.mem_insert.1 hin with heq | hin
        · have heq : id = signer := by simpa using heq
          exact (hid.1.2 (heq ▸ hsigner)).elim
        · exact (hmem hin).elim
    · intro h
      exact (hmem h.1).elim

theorem SpeaksForNonSigner.unique {a b : Bool × IdMap (List Scalar)}
    (ha : SpeaksForNonSigner sis playerIds signerIds a)
    (hb : SpeaksForNonSigner sis playerIds signerIds b) : a = b := by
  obtain ⟨ha | ⟨id, hid, habsent, ha⟩, happlied⟩ := ha
  · obtain ⟨hb | ⟨id, hid, habsent, hb⟩, -⟩ := hb
    · rw [ha, hb]
    · have htrue := happlied id hid habsent
      simp [ha] at htrue
  · obtain ⟨hb | ⟨other, hother, -, hb⟩, happlied'⟩ := hb
    · have htrue := happlied' id hid habsent
      simp [hb] at htrue
    · rw [ha, hb, isLeast_unique hid hother]

/-- What the answer is judged by are the two sets of ids. -/
theorem SpeaksForNonSigner.congr {playerIds' signerIds' : List UInt64}
    {answer : Bool × IdMap (List Scalar)} (hplayers : ∀ id, id ∈ playerIds ↔ id ∈ playerIds')
    (hsigners : ∀ id, id ∈ signerIds ↔ id ∈ signerIds')
    (h : SpeaksForNonSigner sis playerIds signerIds answer) :
    SpeaksForNonSigner sis playerIds' signerIds' answer := by
  have hsame : nonSigners playerIds signerIds = nonSigners playerIds' signerIds' := by
    ext id
    show id ∈ playerIds ∧ id ∉ signerIds ↔ id ∈ playerIds' ∧ id ∉ signerIds'
    rw [hplayers, hsigners]
  unfold SpeaksForNonSigner at h ⊢
  rw [← hsame]
  exact h

theorem applyR4_speaks_iff {m : Mutation} (hround : m.round = 4) (hfield : m.field = .r4Si)
    (hop : m.op = .extraMapKey) :
    SpeaksForNonSigner sis playerIds signerIds (applyR4 m sis playerIds signerIds) ↔
      ¬ Masked sis playerIds signerIds := by
  rcases applyR4_extraMapKey sis playerIds signerIds hround hfield hop with
    ⟨hempty, heq⟩ | ⟨id, hleast, heq⟩
  · rw [heq]
    refine iff_of_true (speaks_of_surplus_empty hempty) fun hmasked => ?_
    obtain ⟨signer, -, hsurplus, -⟩ := hmasked
    exact Set.notMem_empty signer (hempty ▸ hsurplus.1)
  · rw [heq]
    by_cases hsigner : id ∈ signerIds
    · rw [speaks_of_signer_iff hsigner, masked_iff hleast hsigner, not_not]
    · exact iff_of_true (speaks_of_nonSigner (isLeast_nonSigners hleast hsigner))
        (not_masked hleast hsigner)

end

/-- With the lists sorted, each id is kept as often as the players list it more often:
a player that is listed twice and signs once passes for one that does not sign. -/
theorem extraMapKey_speaks_iff (m : Mutation) (hround : m.round = 4) (hfield : m.field = .r4Si)
    (hop : m.op = .extraMapKey) :
    (∀ (sis : IdMap (List Scalar)) (playerIds signerIds : List UInt64),
      SpeaksForNonSigner sis playerIds signerIds (applyR4 m sis playerIds signerIds) ↔
        ¬ Masked sis playerIds signerIds) ∧
    ∀ (sis : IdMap (List Scalar)) (playerIds signerIds playerIds' signerIds' : List UInt64),
      (∀ id, id ∈ playerIds ↔ id ∈ playerIds') → (∀ id, id ∈ signerIds ↔ id ∈ signerIds') →
      ¬ Masked sis playerIds signerIds → ¬ Masked sis playerIds' signerIds' →
      applyR4 m sis playerIds signerIds = applyR4 m sis playerIds' signerIds' := by
  refine ⟨fun sis playerIds signerIds => applyR4_speaks_iff hround hfield hop, ?_⟩
  intro sis playerIds signerIds playerIds' signerIds' hplayers hsigners hclear hclear'
  have hspeaks := (applyR4_speaks_iff hround hfield hop).2 hclear
  have hspeaks' := (applyR4_speaks_iff hround hfield hop).2 hclear'
  exact (hspeaks.congr hplayers hsigners).unique hspeaks'

/-- `extra_key_mutation` of the tests. -/
def extraKeyMutation (attacker : UInt64) : Mutation :=
  ⟨4, attacker, .r4Si, .extraMapKey, 0, 0, 0⟩

theorem extraMapKey_speaks_iff_attacker :
    (∀ (sis : IdMap (List Scalar)) (playerIds signerIds : List UInt64),
      SpeaksForNonSigner sis playerIds signerIds
        (applyR4 (extraKeyMutation 1) sis playerIds signerIds) ↔
          ¬ Masked sis playerIds signerIds) ∧
    ∀ (sis : IdMap (List Scalar)) (playerIds signerIds playerIds' signerIds' : List UInt64),
      (∀ id, id ∈ playerIds ↔ id ∈ playerIds') → (∀ id, id ∈ signerIds ↔ id ∈ signerIds') →
      ¬ Masked sis playerIds signerIds → ¬ Masked sis playerIds' signerIds' →
      applyR4 (extraKeyMutation 1) sis playerIds signerIds =
        applyR4 (extraKeyMutation 1) sis playerIds' signerIds' :=
  extraMapKey_speaks_iff (extraKeyMutation 1) rfl rfl rfl

/-- Player 1 is listed twice and signs: the entry is player 1's, not player 3's. -/
theorem extraMapKey_speaks_for_signer :
    ¬ ∀ (m : Mutation) (sis : IdMap (List Scalar)) (playerIds signerIds : List UInt64),
      m.round = 4 → m.field = .r4Si → m.op = .extraMapKey →
      SpeaksForNonSigner sis playerIds signerIds (applyR4 m sis playerIds signerIds) := by
  intro h
  have hspeaks := h (extraKeyMutation 1) (Std.ExtTreeMap.insert ∅ 2 zeroEntry) [1, 1, 3] [1, 2]
    rfl rfl rfl
  have hsurplus : (1 : UInt64) ∈ surplus [1, 1, 3] [1, 2] :=
    show [1, 2].count (1 : UInt64) < [1, 1, 3].count (1 : UInt64) by decide
  refine (applyR4_speaks_iff rfl rfl rfl).1 hspeaks ⟨1, by decide, ⟨hsurplus, ?_⟩, ?_⟩
  · intro id hid
    have hplayer : id ∈ [1, 1, 3] := List.count_pos_iff.1 (Nat.lt_of_le_of_lt (Nat.zero_le _) hid)
    rcases List.mem_cons.1 hplayer with rfl | hplayer
    · decide
    · rcases List.mem_cons.1 hplayer with rfl | hplayer
      · decide
      · rw [List.mem_singleton.1 hplayer]
        decide
  · intro hboth
    simp at hboth

end MpcHunt.Harness
