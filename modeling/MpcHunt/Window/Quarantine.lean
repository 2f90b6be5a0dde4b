/-
`quarantine_corpus.py` on two directories and with calls that may fail: where
it exits 0, each entry of the corpus is either left, and then it is a unit that
`validate_corpus.py` takes, or found in the quarantine directory as it was.
-/
import MpcHunt.Window.ShardUnits

namespace MpcHunt.MaterializeWindow.Quarantine

open Checks

/-! ## The script -/

/-- The calls that may fail, by the entry. -/
inductive Call where
  | scandir
  | stat (name : String)
  | read (name : String)
  | mkdir
  | replace (name : String)

/-- Both directories, and what `main` keeps. -/
structure Halves where
  root : Dict String Node
  quarantine : Corpus
  prepared : Bool
  remaining : Nat

section
variable (sha1 : Bytes → String) (fails : Call → Bool)

/-- The hash is not asked for where the size is too large. -/
def valid (name : String) (f : SourceFile) : Except String Bool :=
  if f.content.length ≤ maxCorpusUnitBytes then do
    refuse (fails (.read name)) "read failed"
    return sha1 f.content = name
  else .ok false

/-- The quarantine directory, made where it is not there. -/
def prepare (s : Halves) : Except String Halves :=
  if s.prepared then .ok s
  else
    match s.quarantine with
    | .invalid => .error "invalid quarantine directory"
    | .missing =>
      if fails .mkdir then .error "mkdir failed"
      else .ok { s with quarantine := .dir [], prepared := true }
    | .dir _ => .ok { s with prepared := true }

/-- `os.replace(entry.path, quarantine / name)`. -/
def replace (s : Halves) (entry : String × Node) : Except String Halves :=
  match s.quarantine with
  | .dir entries =>
    match Dict.get? entries entry.1 with
    | some (.directory _) => .error "replace failed"
    | _ =>
      if fails (.replace entry.1) then .error "replace failed"
      else .ok { s with root := s.root.filter (·.1 ≠ entry.1)
                        quarantine := .dir (Dict.set entries entry.1 entry.2) }
  | _ => .error "replace failed"

def setAside (s : Halves) (entry : String × Node) : Except String Halves := do
  refuse (fails (.stat entry.1)) "stat failed"
  let f ← corpusFile entry
  if ← valid sha1 fails entry.1 f then return { s with remaining := s.remaining + 1 }
  else do
    let s ← prepare fails s
    replace fails s entry

/-- `main`: both directories where it exits 0, the reason where it exits 1. -/
def quarantineMain (root quarantine : Corpus) : Except String Halves :=
  match root with
  | .dir entries => do
    refuse (fails .scandir) "scandir failed"
    let s ← entries.foldlM (setAside sha1 fails) ⟨entries, quarantine, false, 0⟩
    refuse (s.remaining = 0) "no valid unit survives"
    return s
  | _ => .error "invalid corpus root"

end

variable {sha1 : Bytes → String} {fails : Call → Bool}

/-! ## One entry -/

theorem prepare_eq_ok {s s' : Halves} (h : prepare fails s = .ok s') :
    s'.root = s.root ∧ s'.remaining = s.remaining ∧
      (s'.quarantine = s.quarantine ∨ s.quarantine = .missing ∧ s'.quarantine = .dir []) := by
  unfold prepare at h
  split at h
  · cases h
    exact ⟨rfl, rfl, .inl rfl⟩
  · split at h
    · cases h
    · next hmissing =>
      obtain ⟨-, h⟩ := guard_eq_ok.1 h
      cases h
      exact ⟨rfl, rfl, .inr ⟨hmissing, rfl⟩⟩
    · cases h
      exact ⟨rfl, rfl, .inl rfl⟩

theorem replace_eq_ok {s s' : Halves} {p : String × Node} (h : replace fails s p = .ok s') :
    ∃ entries, s.quarantine = .dir entries ∧ s'.quarantine = .dir (Dict.set entries p.1 p.2) ∧
      s'.root = s.root.filter (·.1 ≠ p.1) ∧ s'.remaining = s.remaining := by
  unfold replace at h
  split at h
  · next entries hdir =>
    split at h
    · cases h
    · obtain ⟨-, h⟩ := guard_eq_ok.1 h
      cases h
      exact ⟨entries, hdir, rfl, rfl, rfl⟩
  · cases h

/-- What is in the quarantine directory. -/
def aside (quarantine : Corpus) : Dict String Node :=
  match quarantine with
  | .dir entries => entries
  | _ => []

theorem sound_iff {p : String × Node} {f : SourceFile} (hfile : p.2 = .file f) :
    Sound sha1 p ↔ f.content.length ≤ maxCorpusUnitBytes ∧ sha1 f.content = p.1 := by
  unfold Sound
  rw [hfile]
  simp [and_comm]

theorem valid_eq_ok {p : String × Node} {f : SourceFile} {b : Bool} (hfile : p.2 = .file f)
    (h : valid sha1 fails p.1 f = .ok b) : b = true ↔ Sound sha1 p := by
  rw [sound_iff hfile]
  unfold valid at h
  by_cases hsize : f.content.length ≤ maxCorpusUnitBytes
  · rw [if_pos hsize] at h
    obtain ⟨_, -, h⟩ := bind_eq_ok.1 h
    cases h
    rw [decide_eq_true_eq]
    exact (and_iff_right hsize).symm
  · rw [if_neg hsize] at h
    cases h
    simp [hsize]

/-- An entry is kept, or found in the quarantine directory. -/
theorem setAside_eq_ok {s s' : Halves} {p : String × Node} (h : setAside sha1 fails s p = .ok s') :
    (∃ f, corpusFile p = .ok f) ∧
      (Sound sha1 p ∧ s' = { s with remaining := s.remaining + 1 } ∨
        ¬ Sound sha1 p ∧ s'.root = s.root.filter (·.1 ≠ p.1) ∧ s'.remaining = s.remaining ∧
          aside s'.quarantine = Dict.set (aside s.quarantine) p.1 p.2) := by
  obtain ⟨_, -, h⟩ := bind_eq_ok.1 h
  obtain ⟨f, hf, h⟩ := bind_eq_ok.1 h
  obtain ⟨b, hvalid, h⟩ := bind_eq_ok.1 h
  have hb := valid_eq_ok (corpusFile_eq_ok.1 hf).1 hvalid
  refine ⟨⟨f, hf⟩, ?_⟩
  cases b with
  | true =>
    cases h
    exact .inl ⟨hb.1 rfl, rfl⟩
  | false =>
    obtain ⟨t, ht, h⟩ := bind_eq_ok.1 h
    obtain ⟨hroot, hremaining, hquarantine⟩ := prepare_eq_ok ht
    obtain ⟨entries, hdir, hset, hroot', hremaining'⟩ := replace_eq_ok h
    refine .inr ⟨fun hs => absurd (hb.2 hs) (by simp), ?_, hremaining'.trans hremaining, ?_⟩
    · rw [hroot', hroot]
    · have hsame : aside t.quarantine = aside s.quarantine := by
        rcases hquarantine with heq | ⟨hmissing, heq⟩
        · rw [heq]
        · rw [heq, hmissing]
          rfl
      rw [← hsame, hdir, hset]
      rfl

/-- The same entry in `quarantine_corpus.py` as far as it concerns the corpus. -/
theorem quarantineEntry_of_file {p : String × Node} {f : SourceFile} (hf : corpusFile p = .ok f)
    (kept : List (String × Node)) :
    (Sound sha1 p → quarantineEntry sha1 true kept p = .ok (kept ++ [p])) ∧
      (¬ Sound sha1 p → quarantineEntry sha1 true kept p = .ok kept) := by
  rw [sound_iff (corpusFile_eq_ok.1 hf).1]
  unfold quarantineEntry
  rw [hf]
  exact ⟨fun hsound => if_pos hsound, fun hsound => if_neg hsound⟩

/-! ## The walk -/

theorem nodup_keys_middle {kept rest : List (String × Node)} {p : String × Node}
    (h : ((kept ++ p :: rest).map Prod.fst).Nodup) :
    p.1 ∉ (kept ++ rest).map Prod.fst ∧ ((kept ++ rest).map Prod.fst).Nodup := by
  rwa [List.map_append, List.map_cons, List.nodup_middle, List.nodup_cons, ← List.map_append] at h

theorem filter_ne_middle {kept rest : List (String × Node)} {p : String × Node}
    (h : p.1 ∉ (kept ++ rest).map Prod.fst) :
    (kept ++ p :: rest).filter (·.1 ≠ p.1) = kept ++ rest := by
  have hself : (kept ++ rest).filter (·.1 ≠ p.1) = kept ++ rest := by
    refine List.filter_eq_self.2 fun q hq => decide_eq_true fun heq => ?_
    exact h (heq ▸ List.mem_map_of_mem hq)
  rw [List.filter_append, List.filter_cons_of_neg (by simp), ← List.filter_append, hself]

/-- The walk does to the corpus what `quarantineCorpus` does, and each unit that is not sound is
found in the quarantine directory. -/
theorem foldlM_setAside {es : List (String × Node)} (kept : List (String × Node)) {s s' : Halves}
    (h : es.foldlM (setAside sha1 fails) s = .ok s') (hroot : s.root = kept ++ es)
    (hnodup : ((kept ++ es).map Prod.fst).Nodup) (hremaining : s.remaining = kept.length) :
    es.foldlM (quarantineEntry sha1 true) kept = .ok s'.root ∧ s'.remaining = s'.root.length ∧
      (∀ p ∈ es, (∃ f, corpusFile p = .ok f) ∧
        (¬ Sound sha1 p → Dict.get? (aside s'.quarantine) p.1 = some p.2)) ∧
      ∀ n, n ∉ es.map Prod.fst →
        Dict.get? (aside s'.quarantine) n = Dict.get? (aside s.quarantine) n := by
  induction es generalizing kept s with
  | nil =>
    obtain rfl := Except.ok.inj h
    rw [hroot, List.append_nil]
    exact ⟨rfl, hremaining, nofun, fun _ _ => rfl⟩
  | cons p rest ih =>
    obtain ⟨t, ht, h⟩ := bind_eq_ok.1 h
    obtain ⟨⟨f, hf⟩, hcases⟩ := setAside_eq_ok ht
    obtain ⟨hkeep, hdrop⟩ : (Sound sha1 p → _) ∧ (¬ Sound sha1 p → _) :=
      quarantineEntry_of_file hf kept
    obtain ⟨hfresh, hnodup'⟩ := nodup_keys_middle hnodup
    have hlater : p.1 ∉ rest.map Prod.fst := fun hmem => hfresh (by
      rw [List.map_append]
      exact List.mem_append_right _ hmem)
    rw [List.foldlM_cons]
    rcases hcases with ⟨hsound, rfl⟩ | ⟨hsound, hroot', hremaining', haside⟩
    · rw [hkeep hsound]
      obtain ⟨hfold, hlen, hall, hothers⟩ := ih (kept ++ [p]) h (by simpa using hroot)
        (by simpa using hnodup) (by simp [hremaining])
      refine ⟨hfold, hlen, List.forall_mem_cons.2 ⟨⟨⟨f, hf⟩, fun hno => absurd hsound hno⟩, hall⟩, ?_⟩
      exact fun n hn => hothers n fun hmem => hn (List.mem_cons_of_mem _ hmem)
    · rw [hdrop hsound]
      obtain ⟨hfold, hlen, hall, hothers⟩ := ih kept h
        (by rw [hroot', hroot, filter_ne_middle hfresh]) hnodup' (hremaining'.trans hremaining)
      refine ⟨hfold, hlen, List.forall_mem_cons.2 ⟨⟨⟨f, hf⟩, fun _ => ?_⟩, hall⟩, fun n hn => ?_⟩
      · rw [hothers p.1 hlater, haside, Dict.get?_set_self]
      · have hne : n ≠ p.1 := fun heq => hn (heq ▸ List.mem_cons_self)
        rw [hothers n fun hmem => hn (List.mem_cons_of_mem _ hmem), haside, Dict.get?_set_other _ hne]

/-! ## Both scripts -/

/-- A directory has one entry of a name. -/
structure Directory where
  entries : List (String × Node)
  nodup : (entries.map Prod.fst).Nodup

/-- A symlink, another entry that is no regular file, or one whose name is no hash. -/
def Anomalous (p : String × Node) : Prop := (∀ f, p.2 ≠ .file f) ∨ corpusName p.1 = false

theorem not_anomalous {p : String × Node} {f : SourceFile} (hf : corpusFile p = .ok f) :
    ¬ Anomalous p := by
  obtain ⟨hfile, hname⟩ := corpusFile_eq_ok.1 hf
  rintro (hnone | hno)
  · exact hnone f hfile
  · rw [hname] at hno
    cases hno

theorem mem_of_aside {quarantine : Corpus} {p : String × Node}
    (h : Dict.get? (aside quarantine) p.1 = some p.2) : ∃ units, quarantine = .dir units ∧ p ∈ units := by
  cases quarantine with
  | missing => cases h
  | invalid => cases h
  | dir units => exact ⟨units, rfl, Dict.mem_of_get? h⟩

/-- What a successful run leaves is what `quarantineCorpus` leaves, and every other entry is found
in the quarantine directory. -/
theorem quarantineMain_eq_ok {corpus : Directory} {quarantine : Corpus} {s : Halves}
    (h : quarantineMain sha1 fails (.dir corpus.entries) quarantine = .ok s) :
    quarantineCorpus sha1 true (.dir corpus.entries) = .ok s.root ∧ s.root ≠ [] ∧
      ∀ p ∈ corpus.entries, (∃ f, corpusFile p = .ok f) ∧
        (¬ Sound sha1 p → ∃ units, s.quarantine = .dir units ∧ p ∈ units) := by
  obtain ⟨_, -, h⟩ := bind_eq_ok.1 h
  obtain ⟨t, hfold, h⟩ := bind_eq_ok.1 h
  obtain ⟨_, hsome, h⟩ := bind_eq_ok.1 h
  obtain rfl : t = s := Except.ok.inj h
  obtain ⟨hkept, hlen, hall, -⟩ := foldlM_setAside [] hfold rfl corpus.nodup rfl
  have hne : t.root ≠ [] := by
    intro hnil
    rw [hnil] at hlen
    exact refuse_eq_ok.1 hsome hlen
  refine ⟨?_, hne, fun p hp => ⟨(hall p hp).1, fun hno => mem_of_aside ((hall p hp).2 hno)⟩⟩
  exact bind_eq_ok.2 ⟨_, hkept, bind_eq_ok.2 ⟨(), refuse_eq_ok.2 hne, rfl⟩⟩

/-- The bytes of an entry. -/
def contentOf : Node → Bytes
  | .file f => f.content
  | .directory _ | .symlink | .other => []

theorem validateCorpus_eq_ok {entries : List (String × Node)} (hne : entries ≠ [])
    (h : ∀ p ∈ entries, (∃ f, corpusFile p = .ok f) ∧ Sound sha1 p) :
    validateCorpus sha1 (.dir entries) = .ok () := by
  have hmap : entries.mapM (validatedEntry sha1) =
      .ok (entries.map fun p => (p.1, contentOf p.2)) := by
    refine mapM_eq_ok fun p hp => ?_
    obtain ⟨⟨f, hf⟩, hsound⟩ := h p hp
    have hfile := (corpusFile_eq_ok.1 hf).1
    obtain ⟨hsize, hhash⟩ := (sound_iff hfile).1 hsound
    rw [hfile]
    exact bind_eq_ok.2 ⟨f, hf, bind_eq_ok.2 ⟨(), refuse_eq_ok.2 (Nat.not_lt.2 hsize),
      bind_eq_ok.2 ⟨(), refuse_eq_ok.2 (not_not.2 hhash), rfl⟩⟩⟩
  exact bind_eq_ok.2 ⟨_, hmap, refuse_eq_ok.2 (by simpa using hne)⟩

/-- Whatever calls fail and whatever is at the quarantine path: where `quarantine_corpus.py` exits
0, `validate_corpus.py` takes what is left, which is the sound entries, and the others are found
in the quarantine directory; without a sound entry, or with an anomaly, it does not exit 0. -/
theorem quarantine_then_validate (sha1 : Bytes → String) (fails : Call → Bool) (corpus : Directory)
    (quarantine : Corpus) :
    (∀ s, quarantineMain sha1 fails (.dir corpus.entries) quarantine = .ok s →
      (∀ listing : List (String × Node), listing.Perm s.root →
        validateCorpus sha1 (.dir listing) = .ok ()) ∧
      (∀ p, p ∈ s.root ↔ p ∈ corpus.entries ∧ Sound sha1 p) ∧
      ∀ p ∈ corpus.entries, ¬ Sound sha1 p → ∃ units, s.quarantine = .dir units ∧ p ∈ units) ∧
    ((∀ p ∈ corpus.entries, ¬ Sound sha1 p) ∨ (∃ p ∈ corpus.entries, Anomalous p) →
      ∀ s, quarantineMain sha1 fails (.dir corpus.entries) quarantine ≠ .ok s) := by
  refine ⟨fun s h => ?_, fun hbad s h => ?_⟩
  · obtain ⟨hkept, hne, hall⟩ := quarantineMain_eq_ok h
    have hleft := mem_survivors hkept
    refine ⟨fun listing hperm => ?_, hleft, fun p hp => (hall p hp).2⟩
    refine validateCorpus_eq_ok (fun hnil => hne ?_) fun p hp => ?_
    · rw [hnil] at hperm
      exact hperm.symm.eq_nil
    · obtain ⟨hp, hsound⟩ := (hleft p).1 (hperm.mem_iff.1 hp)
      exact ⟨(hall p hp).1, hsound⟩
  · obtain ⟨hkept, hne, hall⟩ := quarantineMain_eq_ok h
    rcases hbad with hnone | ⟨p, hp, hanomaly⟩
    · obtain ⟨p, hp⟩ := List.exists_mem_of_ne_nil _ hne
      obtain ⟨hp, hsound⟩ := (mem_survivors hkept p).1 hp
      exact hnone p hp hsound
    · obtain ⟨⟨f, hf⟩, -⟩ := hall p hp
      exact not_anomalous hf hanomaly

/-- A sound unit, and one whose name is not its hash. -/
def mixed : Directory :=
  ⟨[(OneEach.privateUnit, .file ⟨1, 2, [97]⟩), (OneEach.commonUnit, .file ⟨1, 3, [98]⟩)],
    by decide⟩

/-- One is left, which is then taken, and the other is set aside. -/
theorem quarantine_then_validate_mixed : ∃ s,
    quarantineMain OneEach.digest (fun _ => false) (.dir mixed.entries) .missing = .ok s ∧
      s.root = [(OneEach.privateUnit, .file ⟨1, 2, [97]⟩)] ∧
      s.quarantine = .dir [(OneEach.commonUnit, .file ⟨1, 3, [98]⟩)] ∧
      validateCorpus OneEach.digest (.dir s.root) = .ok () := by
  have hrun : quarantineMain OneEach.digest (fun _ => false) (.dir mixed.entries) .missing =
      .ok ⟨[(OneEach.privateUnit, .file ⟨1, 2, [97]⟩)],
        .dir [(OneEach.commonUnit, .file ⟨1, 3, [98]⟩)], true, 1⟩ := rfl
  have hleft := ((quarantine_then_validate _ _ mixed .missing).1 _ hrun).1
  exact ⟨_, hrun, rfl, rfl, hleft _ (.refl _)⟩

end MpcHunt.MaterializeWindow.Quarantine
