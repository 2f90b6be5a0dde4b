/-
What a script has staged: the files of the pool it fetched, and after them
files that some publisher could have written, each at the path that is its
own. One line, the lines of a branch, all branches.
-/
import MpcHunt.Brain.Ingest
import MpcHunt.Lib.Scripts

namespace MpcHunt.Brain

open Checks Digits MaterializeWindow

variable {tools : Tools}

/-! ## One line -/

/-- A file at a path that the publisher of a tuple writes: a unit named by its content, counters
that check for the tuple, or the incident of the tuple. -/
def Genuine (tools : Tools) (t : Tuple) (path : Str)
    (e : Entry) : Prop :=
  ∃ content, e = .file content ∧
    (corpusUnitFor t.harness (text (tools.sha1 content)) = .ok path ∨
      content ≠ [] ∧ (telemetryFor t = .ok path ∧ checkEvidence tools content t = true ∨
        incidentFor t = .ok path))

theorem corpusUnitFor_eq_ok {harness name path : Str} : corpusUnitFor harness name = .ok path ↔
    brainIsHarness harness = true ∧ unitRe.fullmatch name = true ∧
      path = text "corpus/" ++ harness ++ text "/" ++ name := by
  simp only [corpusUnitFor, bind_eq_ok, refuse_eq_ok, not_not]
  constructor
  · rintro ⟨_, hharness, _, hname, heq⟩
    exact ⟨hharness, hname, (Except.ok.inj heq).symm⟩
  · rintro ⟨hharness, hname, heq⟩
    exact ⟨(), hharness, (), hname, heq ▸ rfl⟩

theorem corpusUnitFor_under {harness name path : Str} (h : corpusUnitFor harness name = .ok path) :
    text "corpus/" <+: path := by
  obtain ⟨-, -, hpath⟩ := corpusUnitFor_eq_ok.1 h
  rw [hpath, List.append_assoc, List.append_assoc]
  exact List.prefix_append _ _

/-- The counters or the incident of the tuple. -/
def Own (t : Tuple) (path : Str) : Prop := telemetryFor t = .ok path ∨ incidentFor t = .ok path

theorem Own.unique {t t' : Tuple} {path : Str} (h : Own t path) (h' : Own t' path) : t = t' := by
  have hfront : text "tel" ≠ text "inc" := by decide
  have hparse : ∀ {gen parse}, Inverse gen parse → (∀ t path, gen t = .ok path → t.Valid) →
      gen t = .ok path → gen t' = .ok path → t = t' := by
    intro gen parse hinverse hvalid hgen hgen'
    obtain ⟨s, hs, hparse⟩ := hinverse.parse_gen t (hvalid t path hgen)
    obtain ⟨s', hs', hparse'⟩ := hinverse.parse_gen t' (hvalid t' path hgen')
    obtain rfl := Except.ok.inj (hs.symm.trans hgen)
    obtain rfl := Except.ok.inj (hs'.symm.trans hgen')
    exact Except.ok.inj (hparse.symm.trans hparse')
  rcases h with h | h <;> rcases h' with h' | h'
  · exact hparse telemetry_inverse (fun _ _ h => (telemetryFor_eq_ok.1 h).1) h h'
  · exact absurd ((telemetries_front path ⟨t, h⟩).symm.trans (incidents_front path ⟨t', h'⟩)) hfront
  · exact absurd ((telemetries_front path ⟨t', h'⟩).symm.trans (incidents_front path ⟨t, h⟩)) hfront
  · exact hparse incident_inverse (fun _ _ h => (incidentFor_eq_ok.1 h).1) h h'

theorem Own.not_corpus {t : Tuple} {path : Str} (h : Own t path) : ¬ text "corpus/" <+: path := by
  intro hpath
  have hfront : path.take 3 = text "cor" := by
    obtain ⟨rest, rfl⟩ := hpath
    rfl
  rcases h with h | h
  · exact absurd (hfront.symm.trans (telemetries_front path ⟨t, h⟩)) (by decide)
  · exact absurd (hfront.symm.trans (incidents_front path ⟨t, h⟩)) (by decide)

theorem Genuine.cases {t : Tuple} {path : Str} {e : Entry} (h : Genuine tools t path e) :
    ∃ content, e = .file content ∧
      (corpusUnitFor t.harness (text (tools.sha1 content)) = .ok path ∨ Own t path) := by
  obtain ⟨content, rfl, hunit | ⟨-, ⟨htelemetry, -⟩ | hincident⟩⟩ := h
  · exact ⟨content, rfl, .inl hunit⟩
  · exact ⟨content, rfl, .inr (.inl htelemetry)⟩
  · exact ⟨content, rfl, .inr (.inr hincident)⟩

/-- The tree has the object at the path. -/
def Tree.Has (t : Tree) (path : Str) (e : Entry) : Prop :=
  ∃ e', t.get? path = some e' ∧ e'.oid = e.oid

theorem Tree.Has.extends {t t' : Tree} {path : Str} {e : Entry} (h : t.Has path e)
    (hext : t.Extends t') : t'.Has path e := by
  obtain ⟨e', he', hoid⟩ := h
  exact ⟨e', hext path e' he', hoid⟩

theorem toOption_eq_some {ε α : Type} {x : Except ε α} {a : α} :
    x.toOption = some a ↔ x = .ok a := by
  cases x <;> simp [Except.toOption]

theorem Tree.has_of_holds {t : Tree} {path : Str} {content : Bytes}
    (h : t.holds path content = true) : t.Has path (.file content) := by
  rcases Tree.holds_iff.1 h with he | he
  · exact ⟨_, he, rfl⟩
  · exact ⟨_, he, rfl⟩

/-- What a line adds, and that the pool or what is staged has it then. -/
theorem takeLine_eq_ok {t : Tuple} {baseOid : Dict Str Entry} {staged staged' : Tree} {path : Str}
    {e : Entry} (h : takeLine tools t baseOid staged (path, e) = .ok staged') :
    (∃ new, staged'.files = staged.files ++ new ∧
      ∀ p ∈ new, p = (path, e) ∧ Genuine tools t path e) ∧
    ((∃ e', baseOid.get? path = some e' ∧ e'.oid = e.oid) ∨ staged'.Has path e) := by
  have hkept : ∃ new, staged.files = staged.files ++ new ∧
      ∀ p ∈ new, p = (path, e) ∧ Genuine tools t path e :=
    ⟨[], (List.append_nil _).symm, fun p hp => absurd hp List.not_mem_nil⟩
  cases e with
  | executable | symlink | submodule => cases h
  | file content =>
    have hwritten : ∀ {tree : Tree}, staged.write path content = .ok tree →
        Genuine tools t path (.file content) →
        (∃ new, tree.files = staged.files ++ new ∧
          ∀ p ∈ new, p = (path, Entry.file content) ∧ Genuine tools t path (.file content)) ∧
        tree.Has path (.file content) := by
      intro tree hwrite hgenuine
      have hfiles := Tree.files_write hwrite
      refine ⟨⟨_, hfiles, fun p hp => ⟨List.mem_singleton.1 hp, hgenuine⟩⟩, _, ?_, rfl⟩
      exact (Tree.get?_of_append hfiles).2 (.inr (List.mem_singleton.2 rfl))
    unfold takeLine at h
    dsimp only at h
    cases hbase : baseOid.get? path with
    | some e' =>
      rw [hbase] at h
      obtain ⟨_, hoid, h⟩ := bind_eq_ok.1 h
      obtain rfl := Except.ok.inj h
      exact ⟨hkept, .inl ⟨e', rfl, not_not.1 (refuse_eq_ok.1 hoid)⟩⟩
    | none =>
      rw [hbase] at h
      dsimp only at h
      by_cases hcorpus : (text "corpus/").isPrefixOf path = true
      · rw [if_pos hcorpus] at h
        obtain ⟨_, hpath, h⟩ := bind_eq_ok.1 h
        obtain ⟨_, hname, h⟩ := bind_eq_ok.1 h
        have hpath := toOption_eq_some.1 (not_not.1 (refuse_eq_ok.1 hpath))
        rw [← not_not.1 (refuse_eq_ok.1 hname)] at hpath
        by_cases hoccupied : staged.occupied path = true
        · rw [if_pos hoccupied] at h
          obtain ⟨_, hholds, h⟩ := bind_eq_ok.1 h
          obtain rfl := Except.ok.inj h
          exact ⟨hkept, .inr (Tree.has_of_holds (not_not.1 (refuse_eq_ok.1 hholds)))⟩
        · rw [if_neg hoccupied] at h
          obtain ⟨hnew, hhas⟩ := hwritten h ⟨content, rfl, .inl hpath⟩
          exact ⟨hnew, .inr hhas⟩
      · rw [if_neg hcorpus] at h
        by_cases htelemetry : (telemetryFor t).toOption = some path
        · rw [if_pos htelemetry] at h
          obtain ⟨tree, hwrite, h⟩ := bind_eq_ok.1 h
          obtain ⟨_, hne, h⟩ := bind_eq_ok.1 h
          obtain ⟨_, hcheck, h⟩ := bind_eq_ok.1 h
          obtain rfl := Except.ok.inj h
          obtain ⟨hnew, hhas⟩ := hwritten hwrite ⟨content, rfl, .inr ⟨refuse_eq_ok.1 hne,
            .inl ⟨toOption_eq_some.1 htelemetry, not_not.1 (refuse_eq_ok.1 hcheck)⟩⟩⟩
          exact ⟨hnew, .inr hhas⟩
        · rw [if_neg htelemetry] at h
          obtain ⟨hincident, h⟩ := require_eq_ok.1 h
          obtain ⟨tree, hwrite, h⟩ := bind_eq_ok.1 h
          obtain ⟨_, hne, h⟩ := bind_eq_ok.1 h
          obtain rfl := Except.ok.inj h
          obtain ⟨hnew, hhas⟩ := hwritten hwrite ⟨content, rfl, .inr ⟨refuse_eq_ok.1 hne,
            .inr (toOption_eq_some.1 hincident)⟩⟩
          exact ⟨hnew, .inr hhas⟩

/-! ## The lines of a branch -/

/-- What the lines of a branch add. -/
theorem foldlM_takeLine {t : Tuple} {base staged staged' : Tree} {baseOid : Dict Str Entry}
    {lines : Dict Str Entry} (hoid : baseOid ⊆ base.files) (hbase : base.Extends staged)
    (h : lines.foldlM (takeLine tools t baseOid) staged = .ok staged') :
    (∃ new, staged'.files = staged.files ++ new ∧
      ∀ p ∈ new, p ∈ lines ∧ Genuine tools t p.1 p.2) ∧
    ∀ p ∈ lines, staged'.Has p.1 p.2 := by
  induction lines generalizing staged with
  | nil =>
    obtain rfl : staged = staged' := Except.ok.inj h
    exact ⟨⟨[], (List.append_nil _).symm, fun p hp => absurd hp List.not_mem_nil⟩,
      fun p hp => absurd hp List.not_mem_nil⟩
  | cons line lines ih =>
    rw [List.foldlM_cons] at h
    obtain ⟨mid, hmid, hrest⟩ := bind_eq_ok.1 h
    obtain ⟨⟨first, hfirst, hgenuine⟩, hhas⟩ := takeLine_eq_ok hmid
    have hstep := Tree.extends_of_append hfirst
    obtain ⟨⟨more, hmore, hlines⟩, hall⟩ := ih (hbase.trans hstep) hrest
    have hlast := Tree.extends_of_append hmore
    refine ⟨⟨first ++ more, by rw [hmore, hfirst, List.append_assoc], fun p hp => ?_⟩,
      List.forall_mem_cons.2 ⟨?_, hall⟩⟩
    · rcases List.mem_append.1 hp with hp | hp
      · obtain ⟨rfl, hfile⟩ := hgenuine p hp
        exact ⟨List.mem_cons_self, hfile⟩
      · exact ⟨List.mem_cons_of_mem line (hlines p hp).1, (hlines p hp).2⟩
    · rcases hhas with ⟨e, he, heq⟩ | hhas
      · have hget := Tree.get?_of_mem (hoid (Dict.mem_of_get? he))
        exact ⟨e, hlast _ e (hstep _ e (hbase _ e hget)), heq⟩
      · exact hhas.extends hlast

end MpcHunt.Brain
