/-
What becomes of the evidence of a shard: the packager takes each directory whose
summary is built, and a packager that returns 0 has put all of it into the
bundle.
-/
import MpcHunt.Incident.Custody

namespace MpcHunt.Incident

open Checks Digits Encoding Processes
open Summary (evidenceNames entriesOf ARTIFACT Finish)

/-! ## The loop -/

def size (files : List Member) : Nat := (files.map fun m => m.2.length).sum

theorem size_cons (m : Member) (files : List Member) : size (m :: files) = m.2.length + size files :=
  rfl

/-- What both scripts let a file be called. -/
def Known (name : Str) : Prop := name ∈ evidenceNames ∨ ARTIFACT name ≠ none

theorem known_iff {name : Str} :
    Known name ↔ ¬ (!evidenceNames.contains name && (ARTIFACT name).isNone) = true := by
  simp only [Known, Bool.and_eq_true, Bool.not_eq_true', Option.isNone_iff_eq_none, not_and,
    ← Bool.not_eq_true, List.contains_iff_mem]
  tauto

/-- A file that the loop takes. -/
def Fits (m : Member) : Prop := Known m.1 ∧ m.2.length ≤ 64 * 1024 * 1024

theorem validateEntry_eq (acc : List Member × Nat) {m : Member} (h : Fits m)
    (hsize : acc.2 + m.2.length ≤ 128 * 1024 * 1024) :
    validateEntry acc (m.1, .regular m.2) = .ok (acc.1 ++ [m], acc.2 + m.2.length) := by
  have hwithin : ¬ (m.2.length > 64 * 1024 * 1024 ∨ acc.2 + m.2.length > 128 * 1024 * 1024) := by
    have hlength := h.2
    omega
  refine (refuse_bind (known_iff.1 h.1)).trans ?_
  exact refuse_bind hwithin

theorem foldlM_validateEntry {files : List Member} (acc : List Member × Nat)
    (h : ∀ m ∈ files, Fits m) (hsize : acc.2 + size files ≤ 128 * 1024 * 1024) :
    (entriesOf files).foldlM validateEntry acc = .ok (acc.1 ++ files, acc.2 + size files) := by
  induction files generalizing acc with
  | nil => simp [entriesOf, size, pure, Except.pure]
  | cons m files ih =>
    rw [size_cons, ← Nat.add_assoc] at hsize
    have hentry := validateEntry_eq acc (h m List.mem_cons_self) (by omega)
    have hrest := ih (acc.1 ++ [m], acc.2 + m.2.length)
      (fun m' hm' => h m' (List.mem_cons_of_mem m hm')) hsize
    have hcons : entriesOf (m :: files) = (m.1, .regular m.2) :: entriesOf files := rfl
    rw [hcons, List.foldlM_cons, hentry, size_cons, ← Nat.add_assoc, ← List.append_cons] at *
    exact hrest

/-- Where all files fit, they are taken, in the order of their names. -/
theorem validateFiles_eq {files : List Member} (h : ∀ m ∈ files, Fits m)
    (hsize : size files ≤ 128 * 1024 * 1024) (hlog : text "fuzzer.raw.log" ∈ Dict.keys files)
    (hexit : text "exit_code" ∈ Dict.keys files) :
    validateFiles (.dir (entriesOf files)) =
      .ok (files.insertionSort fun a b => a.1 ≤ b.1) := by
  have hfold := foldlM_validateEntry ([], 0) h (by rwa [Nat.zero_add])
  unfold validateFiles
  simp only [bind_eq_ok, refuse_eq_ok]
  refine ⟨_, hfold, (), ?_, (), ?_, rfl⟩
  · simpa [Dict.keys] using hlog
  · simpa [Dict.keys] using hexit

/-! ## The limits of the summary -/

theorem size_le {files : List Member} {names : List Str} {limit : Str → Nat}
    (hnodup : (Dict.keys files).Nodup) (hnames : ∀ m ∈ files, m.1 ∈ names)
    (hlimit : ∀ m ∈ files, m.2.length ≤ limit m.1) : size files ≤ (names.map limit).sum := by
  have hsub : (Dict.keys files).Subperm names := hnodup.subperm fun name hname => by
    obtain ⟨m, hm, rfl⟩ := List.mem_map.1 hname
    exact hnames m hm
  obtain ⟨keys, hperm, hkeys⟩ := hsub
  calc size files ≤ (files.map fun m => limit m.1).sum := List.sum_le_sum hlimit
    _ = ((Dict.keys files).map limit).sum := by rw [Dict.keys, List.map_map]; rfl
    _ = (keys.map limit).sum := ((hperm.map limit).sum_eq).symm
    _ ≤ (names.map limit).sum := (hkeys.map limit).sum_le_sum fun _ _ => Nat.zero_le _

/-- The files that are no artifacts. -/
def ownFiles (files : List Member) : List Member :=
  files.filter fun m => evidenceNames.contains m.1

theorem ownFiles_cons_of_mem {m : Member} {files : List Member} (h : m.1 ∈ evidenceNames) :
    ownFiles (m :: files) = m :: ownFiles files :=
  List.filter_cons_of_pos (List.contains_iff_mem.2 h)

theorem ownFiles_cons_of_not_mem {m : Member} {files : List Member} (h : m.1 ∉ evidenceNames) :
    ownFiles (m :: files) = ownFiles files :=
  List.filter_cons_of_neg fun hm => h (List.contains_iff_mem.1 hm)

theorem mem_ownFiles {m : Member} {files : List Member} :
    m ∈ ownFiles files ↔ m ∈ files ∧ m.1 ∈ evidenceNames := by
  rw [ownFiles, List.mem_filter, List.contains_iff_mem]

/-- What the search for artifacts lets through. -/
theorem artifactsOf_size {files : List Member} {artifacts : List (Bytes × Summary.Kind)}
    (h : Summary.artifactsOf files = .ok artifacts) :
    (∀ m ∈ files, m.1 ∈ evidenceNames ∨ ARTIFACT m.1 ≠ none ∧ m.2.length ≤ 32 * 1024 * 1024) ∧
      size files ≤ size (ownFiles files) + artifacts.length * (32 * 1024 * 1024) := by
  have hfold : ∀ {files : List Member} {acc artifacts : List (Bytes × Summary.Kind)},
      files.foldlM Summary.artifactEntry acc = .ok artifacts →
      (∀ m ∈ files, m.1 ∈ evidenceNames ∨ ARTIFACT m.1 ≠ none ∧ m.2.length ≤ 32 * 1024 * 1024) ∧
      size files + acc.length * (32 * 1024 * 1024) ≤
        size (ownFiles files) + artifacts.length * (32 * 1024 * 1024) := by
    intro files
    induction files with
    | nil =>
      intro acc artifacts h
      obtain rfl := Except.ok.inj h
      exact ⟨fun m hm => absurd hm List.not_mem_nil, Nat.le_refl _⟩
    | cons m files ih =>
      intro acc artifacts h
      rw [List.foldlM_cons] at h
      obtain ⟨mid, hmid, hrest⟩ := bind_eq_ok.1 h
      obtain ⟨hfiles, hsize⟩ := ih hrest
      rcases Summary.artifactEntry_eq_ok hmid with ⟨hname, rfl⟩ | ⟨hname, kind, hkind, hlength, rfl⟩
      · refine ⟨List.forall_mem_cons.2 ⟨.inl hname, hfiles⟩, ?_⟩
        rw [ownFiles_cons_of_mem hname, size_cons, size_cons]
        omega
      · have hartifact : ARTIFACT m.1 ≠ none := by
          rw [hkind]
          exact Option.some_ne_none kind
        refine ⟨List.forall_mem_cons.2 ⟨.inr ⟨hartifact, hlength⟩, hfiles⟩, ?_⟩
        rw [List.length_append, List.length_singleton] at hsize
        rw [ownFiles_cons_of_not_mem hname, size_cons]
        omega
  rw [Summary.artifactsOf_eq] at h
  obtain ⟨hfiles, hsize⟩ := hfold h
  refine ⟨hfiles, ?_⟩
  simpa using hsize

/-! ## The files that the script writes -/

section
variable {r : Finish} {files : Dict Str Bytes} {harness : Str}

/-- A megabyte for each but the log. -/
def allowance (name : Str) : Nat :=
  if name = text "fuzzer.raw.log" then 64 * 1024 * 1024 else 1024 * 1024

theorem leave_oomKilled : (r.leave files harness).get? (text "oom_killed") =
    some ((if r.oomKilled = [] then encodeAscii (text "unknown") else r.oomKilled) ++ [10]) := by
  unfold Finish.leave
  rw [Dict.get?_set_other _ (by decide), Dict.get?_set_other _ (by decide), Dict.get?_set_self]

theorem leave_harness : (r.leave files harness).get? (text "harness") =
    some (encodeAscii (harness ++ [10])) := by
  unfold Finish.leave
  rw [Dict.get?_set_self]

theorem length_exitCode : ∀ n < 256, (encodeAscii (decimal n ++ [10])).length ≤ 4 := by
  decide +kernel

theorem length_harness : ∀ name ∈ Summary.HARNESSES, (encodeAscii (name ++ [10])).length ≤ 64 := by
  decide

theorem leave_within (hlog : r.log.length ≤ 64 * 1024 * 1024) (hstatus : r.status ≤ 255)
    (hoom : r.oomKilled.length < 1024 * 1024) (hharness : harness ∈ Summary.HARNESSES) {name : Str}
    {bytes : Bytes} (hname : name ∈ evidenceNames)
    (hget : (r.leave files harness).get? name = some bytes) : bytes.length ≤ allowance name := by
  have hsmall : 64 ≤ 1024 * 1024 := by decide
  simp only [evidenceNames, List.mem_cons, List.not_mem_nil, or_false] at hname
  rcases hname with rfl | rfl | rfl | rfl
  · obtain rfl := Option.some.inj (hget.symm.trans Finish.leave_log)
    exact hlog
  · obtain rfl := Option.some.inj (hget.symm.trans Finish.leave_exitCode)
    have hcode := length_exitCode _ (Nat.lt_succ_of_le (r.exitCode_le hstatus))
    exact hcode.trans (by decide)
  · obtain rfl := Option.some.inj (hget.symm.trans leave_oomKilled)
    have hlength : (if r.oomKilled = [] then encodeAscii (text "unknown") else r.oomKilled).length <
        1024 * 1024 := by
      split_ifs
      · decide
      · exact hoom
    rw [List.length_append]
    exact hlength
  · obtain rfl := Option.some.inj (hget.symm.trans leave_harness)
    exact (length_harness harness hharness).trans hsmall

variable {sha256 : Bytes → Vector UInt8 32} {allowed : List Str} {shard : Str}
  {entries : Dict Str Summary.Node} {fields : Dict Str Str}

/-- What the summary is built from, the packager takes. -/
theorem packed_of_build (hstatus : r.status ≤ 255) (hoom : r.oomKilled.length < 1024 * 1024)
    (hnames : files.keys.Nodup) (hentries : entries.Perm (entriesOf (r.leave files harness)))
    (hbuild : Summary.build sha256 allowed (some entries) harness shard = .ok fields) :
    ∃ packed, validateFiles (.dir entries) = .ok packed ∧ packed.Perm (r.leave files harness) := by
  simp only [Summary.build, bind_eq_ok, refuse_eq_ok, need_eq_ok] at hbuild
  obtain ⟨_, hharness, _, -, byName, hroot, bytes, hlog, _, hexit, _, hlength, _, -, _, -,
    artifacts, hartifacts, _, hfew, -⟩ := hbuild
  obtain ⟨hperm, hnodup⟩ := Finish.read_leave hnames hentries hroot
  have hleave : (r.leave files harness).keys.Nodup := Finish.nodup_leave hnames
  have hread : ∀ {m : Member}, m ∈ byName → (r.leave files harness).get? m.1 = some m.2 :=
    fun hm => Dict.get?_of_mem hleave (hperm.mem_iff.1 hm)
  obtain rfl : bytes = r.log :=
    Option.some.inj ((hread (Dict.mem_of_get? hlog)).symm.trans Finish.leave_log)
  have hwithin : ∀ m ∈ byName, m.1 ∈ evidenceNames → m.2.length ≤ allowance m.1 :=
    fun m hm hname => leave_within (Nat.not_lt.1 hlength) hstatus hoom (not_not.1 hharness) hname
      (hread hm)
  obtain ⟨hfiles, hsize⟩ := artifactsOf_size hartifacts
  have hfits : ∀ m ∈ byName, Fits m := by
    intro m hm
    rcases hfiles m hm with hname | ⟨hkind, hm'⟩
    · refine ⟨.inl hname, (hwithin m hm hname).trans ?_⟩
      unfold allowance
      split_ifs <;> decide
    · exact ⟨.inr hkind, hm'.trans (by decide)⟩
  have hevidence : size (ownFiles byName) ≤
      (evidenceNames.map allowance).sum := by
    refine size_le ?_ (fun m hm => ?_) fun m hm => ?_
    · exact hnodup.sublist (List.filter_sublist.map Prod.fst)
    · exact (mem_ownFiles.1 hm).2
    · exact hwithin m (mem_ownFiles.1 hm).1 (mem_ownFiles.1 hm).2
  have hsum : (evidenceNames.map allowance).sum = 67 * 1024 * 1024 := by decide
  have htotal : size byName ≤ 128 * 1024 * 1024 := by omega
  obtain rfl := Summary.regularDepthOne_eq (Finish.nodup_listed hnames hentries) hroot
  refine ⟨_, validateFiles_eq hfits htotal ?_ ?_, (List.perm_insertionSort _ _).trans hperm⟩
  · exact (Dict.mem_keys_iff _ _).2 ⟨_, hlog⟩
  · exact (Dict.mem_keys_iff _ _).2 ⟨_, hexit⟩

end

def opensTo (files : List Member) (_ : Str) (bytes : Bytes) : Option (List Member) :=
  if bytes = [1] then some (archive files none) else none

end MpcHunt.Incident
