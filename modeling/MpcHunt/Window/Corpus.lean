/-
What lies in the destination when `materialize` returns: the selected units,
each with the bytes its name says, whatever the sources did meanwhile. A unit's
name is compared with the bytes that were written, not with the source's.
-/
import MpcHunt.Window.Copies
import MpcHunt.Window.Coverage

namespace MpcHunt.MaterializeWindow

open Raising

/-! ## The names of a selection -/

section
variable {σ : Type} {os : OS σ} {sha1 : Bytes → String}

/-- Every candidate goes by the name it is filed under. -/
def NamedLists (d : Dict String (List MUnit)) : Prop :=
  ∀ n ms, d.get? n = some ms → ∀ m ∈ ms, m.name = n

theorem NamedLists.nil : NamedLists [] := fun _ _ h => by cases h

theorem NamedLists.add {acc : Scan} (h : NamedLists acc.selected) (source : Path)
    (selectedPrefix : Option String) (name : String) (size : Nat) :
    NamedLists (acc.add source selectedPrefix name size).selected := by
  unfold Scan.add
  dsimp only
  split
  · intro n ms hms m hm
    rw [Dict.get?_set] at hms
    split at hms
    · next hn =>
      cases hms
      rcases List.mem_append.1 hm with hm | hm
      · cases hold : acc.selected.get? name with
        | none =>
          rw [hold] at hm
          cases hm
        | some old =>
          rw [hold] at hm
          exact (h name old hold m hm).trans hn.symm
      · rw [List.mem_singleton.1 hm, hn]
    · exact h n ms hms m hm
  · exact h

theorem returns_validateSourceEntries (directory : Path) (entries : List DirEntry)
    {units : Dict String MUnit} (hunits : Named units) :
    Returns (fun _ => True) (validateSourceEntries os sha1 directory entries units)
      fun units' _ => Named units' := by
  induction entries generalizing units with
  | nil => exact Returns.pure fun _ _ => hunits
  | cons entry rest ih =>
    refine Returns.of_rest fun metadata => Returns.of_rest fun r => ?_
    exact Returns.of_rest fun _ => ih (hunits.set rfl)

theorem returns_validateSource (directory : Path) :
    Returns (fun _ => True) (validateSource os sha1 directory) fun units _ => Named units := by
  refine Returns.of_rest fun _ => Returns.of_rest fun listing => ?_
  refine Returns.of_rest fun _ => Returns.of_rest fun _ => ?_
  exact returns_validateSourceEntries _ _ Named.nil

theorem returns_scanEntries (source : Path) (selectedPrefix : Option String)
    (entries : List DirEntry) {acc : Scan} (hacc : NamedLists acc.selected) :
    Returns (fun _ => True) (scanEntries source selectedPrefix entries acc : Py σ Scan)
      fun acc' _ => NamedLists acc'.selected := by
  induction entries generalizing acc with
  | nil => exact Returns.pure fun _ _ => hacc
  | cons entry rest ih =>
    refine Returns.of_rest fun metadata => ?_
    refine Returns.of_rest fun _ => Returns.of_rest fun _ => ?_
    exact Returns.of_rest fun _ => Returns.of_rest fun _ => ih (hacc.add _ _ _ _)

theorem returns_scanSources (selectedPrefix : Option String) (sources : List Path) {acc : Scan}
    (hacc : NamedLists acc.selected) :
    Returns (fun _ => True) (scanSources os selectedPrefix sources acc)
      fun acc' _ => NamedLists acc'.selected := by
  induction sources generalizing acc with
  | nil => exact Returns.pure fun _ _ => hacc
  | cons source rest ih =>
    refine Returns.of_rest fun _ => Returns.of_rest fun listing => ?_
    intro s hs acc' t hr
    obtain ⟨mid, u, hscan, hrest⟩ := bind_eq_ok.1 hr
    have hmid := returns_scanEntries source selectedPrefix listing.entries hacc s hs mid u hscan
    exact (Returns.of_rest fun _ => ih hmid) u trivial acc' t hrest

theorem returns_validateCandidates (name : String) (units : List MUnit)
    (hunits : ∀ m ∈ units, m.name = name) {validated : Dict String MUnit} (hv : Named validated) :
    Returns (fun _ => True) (validateCandidates os sha1 name units validated)
      fun validated' _ => Named validated' := by
  induction units generalizing validated with
  | nil => exact Returns.pure fun _ _ => hv
  | cons unit rest ih =>
    refine Returns.of_rest fun metadata => Returns.of_rest fun _ => Returns.of_rest fun r => ?_
    refine Returns.of_rest fun _ => Returns.of_rest fun _ => ?_
    refine ih (fun m hm => hunits m (by simp [hm])) ?_
    split
    · exact hv
    · exact hv.set (hunits unit (by simp))

theorem returns_validateNames {candidates : Dict String (List MUnit)} (hc : NamedLists candidates)
    (names : List String) {validated : Dict String MUnit} (hv : Named validated) :
    Returns (fun _ => True) (validateNames os sha1 candidates names validated)
      fun validated' _ => Named validated' := by
  induction names generalizing validated with
  | nil => exact Returns.pure fun _ _ => hv
  | cons name rest ih =>
    have hunits : ∀ m ∈ (candidates.get? name).getD [], m.name = name := by
      cases hget : candidates.get? name with
      | none => simp
      | some units => exact hc name units hget
    intro s hs validated' t hr
    obtain ⟨mid, u, hcandidates, hrest⟩ := bind_eq_ok.1 hr
    exact ih (returns_validateCandidates name _ hunits hv s hs mid u hcandidates) u trivial _ t hrest

theorem returns_validatePrivateBucket (inventory : PrivateInventory) (selectedPrefix : String) :
    Returns (fun _ => True) (validatePrivateBucket os sha1 inventory selectedPrefix)
      fun validated _ => Named validated := by
  intro s hs validated t hr
  obtain ⟨⟨rescanned, candidates⟩, u, hscan, hrest⟩ := bind_eq_ok.1 hr
  obtain ⟨acc, v, hacc, hpure⟩ := bind_eq_ok.1 hscan
  obtain ⟨-, rfl⟩ := Prod.mk.inj (pure_eq_ok.1 hpure).1
  have hc := returns_scanSources (some selectedPrefix) inventory.sources NamedLists.nil s hs acc v hacc
  exact (Returns.of_rest fun _ => returns_validateNames hc _ Named.nil) u trivial validated t hrest

theorem names_selected {common privateUnits : Dict String MUnit} (hcommon : Named common)
    (hprivate : Named privateUnits) (capacity visit : Nat) :
    (unitsOf common (sorted common.keys) ++ unitsOf privateUnits
        (assign (sorted privateUnits.keys) capacity visit).2.2).map MUnit.name =
      sorted common.keys ++ (assign (sorted privateUnits.keys) capacity visit).2.2 := by
  rw [List.map_append, names_unitsOf hcommon fun n hn => mem_sorted.1 hn,
    names_unitsOf hprivate fun n hn => mem_sorted.1 (mem_of_mem_assign hn)]

/-- The units to copy are those of the names selected, in order. -/
theorem selected_names (sha1 : Bytes → String) (destination : Path) (shardIndex waveShardCount waveNumber : Nat)
    (commonSource : Path) (shardedSources : List Path) :
    Returns (fun _ => True) (materializeSelect os sha1 destination shardIndex waveShardCount waveNumber
      commonSource shardedSources) fun selection _ =>
        selection.selected.map MUnit.name = selection.commonNames ++ selection.assignedNames := by
  refine Returns.of_rest fun _ => Returns.of_rest fun _ => Returns.of_rest fun _ => ?_
  intro s hs selection t hr
  obtain ⟨common, s1, hcommon, hr⟩ := bind_eq_ok.1 hr
  have hnamed := returns_validateSource commonSource s hs common s1 hcommon
  obtain ⟨_, s2, -, hr⟩ := bind_eq_ok.1 hr
  obtain ⟨inventory, s3, -, hr⟩ := bind_eq_ok.1 hr
  dsimp only at hr
  by_cases hprefixes : inventory.prefixes = []
  · rw [if_pos hprefixes] at hr
    cases hr
    exact names_selected hnamed Named.nil _ _
  · rw [if_neg hprefixes] at hr
    obtain ⟨validated, s4, hvalidated, hr⟩ := bind_eq_ok.1 hr
    have hprivate := returns_validatePrivateBucket inventory _ s3 trivial validated s4 hvalidated
    cases hr
    exact names_selected hnamed (hprivate.filter _) _ _

/-- There is always a common unit. -/
theorem selected_common (sha1 : Bytes → String) (destination : Path)
    (shardIndex waveShardCount waveNumber : Nat) (commonSource : Path) (shardedSources : List Path) :
    Returns (fun _ => True) (materializeSelect os sha1 destination shardIndex waveShardCount waveNumber
      commonSource shardedSources) fun selection _ => selection.commonNames ≠ [] := by
  refine Returns.of_rest fun _ => Returns.of_rest fun _ => Returns.of_rest fun _ => ?_
  refine Returns.of_rest fun common => ?_
  intro s hs selection t hr
  obtain ⟨_, s1, hcapacity, hr⟩ := bind_eq_ok.1 hr
  have hsome : 1 ≤ common.length := (not_not.1 (rejectIf_eq_ok.1 hcapacity).1).1
  have hcommon : sorted common.keys ≠ [] := by
    intro hnil
    have hlen := length_sorted common.keys
    rw [hnil, Dict.keys, List.length_map] at hlen
    rw [← hlen] at hsome
    cases hsome
  obtain ⟨inventory, s2, -, hr⟩ := bind_eq_ok.1 hr
  dsimp only at hr
  by_cases hprefixes : inventory.prefixes = []
  · rw [if_pos hprefixes] at hr
    cases hr
    exact hcommon
  · rw [if_neg hprefixes] at hr
    obtain ⟨validated, s3, -, hr⟩ := bind_eq_ok.1 hr
    cases hr
    exact hcommon

end

/-! ## The destination -/

section
variable {σ : Type} {calls : Calls σ} {sha1 : Bytes → String} {sha256 : String → String}
  {destination : Path}

/-- Regular files of no more than a unit's size, each named by the digest of its bytes. -/
def NamedByDigest (sha1 : Bytes → String) (files : Dict String Entry) : Prop :=
  ∀ p ∈ files, ∃ content mode, p.2 = .file content mode ∧ sha1 content = p.1 ∧
    content.length ≤ maxUnitBytes

theorem NamedByDigest.add {files : Dict String Entry} (h : NamedByDigest sha1 files) {name : String}
    {entry : Entry} (hentry : NamedByDigest sha1 [(name, entry)]) :
    NamedByDigest sha1 (files ++ [(name, entry)]) := by
  intro p hp
  rcases List.mem_append.1 hp with hp | hp
  · exact h p hp
  · exact hentry p hp

/-- The staging directory holds units, and the destination these files. -/
structure Staged (sha1 : Bytes → String) (files : Dict String Entry) (s : Sys σ) : Prop where
  destination : s.disk.destination = files
  staging : ∃ path units, s.disk.staging = some (path, units) ∧ NamedByDigest sha1 units

theorem returns_copyVerified_staging {files : Dict String Entry} (unit : MUnit) :
    Returns (Staged sha1 files) (copyVerified calls sha1 destination unit .staging)
      fun _ => Staged sha1 files := by
  intro s hs u t hr
  obtain ⟨-, hsize, content, hname, hlen, hfilled⟩ :=
    copyVerified_ok unit s (d := s.disk) rfl u t hr
  obtain ⟨path, units, hstaging, hunits⟩ := hs.staging
  refine ⟨?_, path, units ++ [(unit.name, .file content 0o644)], ?_, ?_⟩
  · rw [hfilled]
    exact hs.destination
  · rw [hfilled]
    simp [Disk.add, Disk.update, hstaging]
  · refine hunits.add fun p hp => ?_
    rw [List.mem_singleton.1 hp]
    exact ⟨content, 0o644, rfl, hname, hlen ▸ hsize⟩

theorem returns_stageUnits {files : Dict String Entry} (units : List MUnit) :
    Returns (Staged sha1 files) (stageUnits calls sha1 destination units)
      fun _ => Staged sha1 files := by
  induction units with
  | nil => exact Returns.pure fun _ hs => hs
  | cons unit rest ih => exact Returns.bind (returns_copyVerified_staging unit) fun _ => ih

/-- A destination that passes the check is empty. -/
theorem returns_validateDestination {d : Disk} :
    Returns (OnDisk d) (validateDestination (os calls destination) destination)
      fun _ s => OnDisk d s ∧ d.destination = [] := by
  have hkept := keptBy_os calls destination d
  intro s hs u t hr
  refine ⟨(keeps_validateDestination hkept destination).ok hs hr, ?_⟩
  obtain ⟨_, s1, hdir, hr⟩ := bind_eq_ok.1 hr
  have hs1 := (keeps_lstatDirectory hkept _ _).ok hs hdir
  obtain ⟨listing, s2, hlisting, hr⟩ := bind_eq_ok.1 hr
  obtain ⟨_, s3, hempty, hr⟩ := bind_eq_ok.1 hr
  obtain ⟨hempty, -⟩ := rejectIf_eq_ok.1 hempty
  obtain ⟨hfailed, -⟩ := rejectIf_eq_ok.1 hr
  rw [callOr_eq_ok] at hlisting
  simp only [os] at hlisting
  rcases hask : ask ((calls.look s1.disk).scandir destination) s1 with ⟨l | l, v⟩
  · rw [hask] at hlisting
    cases hlisting
  · rw [hask] at hlisting
    simp only [if_true] at hlisting
    obtain ⟨hl, -⟩ := Prod.mk.inj hlisting
    cases hl
    simp only at hfailed hempty
    simp only [hfailed, not_not, List.isEmpty_iff] at hempty
    rw [← hs1]
    exact List.map_eq_nil_iff.1 hempty

/-- A link puts a staged file into the destination, or changes nothing. -/
theorem linkTarget_disk (calls : Calls σ) (name : String) (s : Sys σ) :
    (∃ t path units entry, linkTarget calls name s = (.ok (), t) ∧
      s.disk.staging = some (path, units) ∧ units.get? name = some entry ∧
      s.disk.destination.has name = false ∧ t.disk = s.disk.add .destination name entry) ∨
      ∃ e t, linkTarget calls name s = (.error e, t) ∧ t.disk = s.disk := by
  unfold linkTarget
  cases hstaging : s.disk.staging with
  | none => exact .inr ⟨.osError, s, by simp [Disk.files, hstaging], rfl⟩
  | some staging =>
    obtain ⟨path, units⟩ := staging
    cases hget : units.get? name with
    | none => exact .inr ⟨.osError, s, by simp [Disk.files, hstaging, hget], rfl⟩
    | some entry =>
      cases hhas : s.disk.destination.has name with
      | true => exact .inr ⟨.osError, s, by simp [Disk.files, hstaging, hget], rfl⟩
      | false =>
        rcases changing_disk .destination (calls.link name) (· ++ [(name, entry)]) s with
          ⟨t, ht, hdisk⟩ | ⟨e, t, ht, hdisk⟩
        · exact .inl ⟨t, path, units, entry, by simp [Disk.files, hstaging, hget, ht], rfl, hget, rfl,
            hdisk⟩
        · exact .inr ⟨e, t, by simp [Disk.files, hstaging, hget, ht], hdisk⟩

/-- The destination holds units of these names. -/
structure Linked (sha1 : Bytes → String) (names : List String) (s : Sys σ) : Prop where
  keys : s.disk.destination.keys = names
  nodup : names.Nodup
  units : NamedByDigest sha1 s.disk.destination
  staging : ∃ path units, s.disk.staging = some (path, units) ∧ NamedByDigest sha1 units

/-- One more file, of a new name. -/
theorem Linked.add {names : List String} {name : String} {entry : Entry} {s t : Sys σ}
    (hs : Linked sha1 names s) (hnew : s.disk.destination.has name = false)
    (hentry : NamedByDigest sha1 [(name, entry)])
    (ht : t.disk = s.disk.add .destination name entry) : Linked sha1 (names ++ [name]) t := by
  have hdestination : t.disk.destination = s.disk.destination ++ [(name, entry)] := by rw [ht]; rfl
  have hstaging : t.disk.staging = s.disk.staging := by rw [ht]; rfl
  have hfresh : name ∉ names := by
    intro hmem
    rw [← hs.keys, ← Dict.has_iff, hnew] at hmem
    cases hmem
  refine ⟨?_, ?_, ?_, ?_⟩
  · rw [hdestination, Dict.keys_append, hs.keys]
    rfl
  · refine List.nodup_append.2 ⟨hs.nodup, List.nodup_singleton _, fun a ha b hb hab => ?_⟩
    rw [List.mem_singleton.1 hb] at hab
    exact hfresh (hab ▸ ha)
  · rw [hdestination]
    exact hs.units.add hentry
  · rw [hstaging]
    exact hs.staging

/-- Each turn of the second loop adds its unit, by a link or by a copy. -/
theorem returns_linkUnit {names : List String} (staging : Path) (unit : MUnit) :
    Returns (Linked sha1 names) (linkUnit calls sha1 destination staging unit)
      fun _ => Linked sha1 (names ++ [unit.name]) := by
  intro s hs u t hr
  unfold linkUnit at hr
  rcases linkTarget_disk calls unit.name s with
    ⟨v, path, units, entry, hv, hstaging, hget, hnew, hdisk⟩ | ⟨e, v, hv, hdisk⟩
  · rw [hv] at hr
    cases hr
    refine hs.add hnew (fun p hp => ?_) hdisk
    obtain ⟨path', units', hstaging', hunits⟩ := hs.staging
    rw [hstaging] at hstaging'
    cases hstaging'
    rw [List.mem_singleton.1 hp]
    exact hunits _ (Dict.mem_of_get? hget)
  · rw [hv] at hr
    obtain ⟨hfresh, hsize, content, hname, hlen, hfilled⟩ :=
      copyVerified_ok ⟨unit.name, staging ++ [unit.name], unit.size⟩ v (d := v.disk) rfl u t hr
    rw [hdisk] at hfresh hfilled
    refine hs.add (hfresh _ rfl) (fun p hp => ?_) hfilled
    rw [List.mem_singleton.1 hp]
    exact ⟨content, 0o644, rfl, hname, hlen ▸ hsize⟩

theorem returns_linkUnits (staging : Path) (units : List MUnit) (names : List String) :
    Returns (Linked sha1 names) (linkUnits calls sha1 destination staging units names)
      fun _ => Linked sha1 (names ++ units.map MUnit.name) := by
  induction units generalizing names with
  | nil =>
    refine Returns.pure fun s hs => ?_
    rw [List.map_nil, List.append_nil]
    exact hs
  | cons unit rest ih =>
    refine Returns.bind (M := fun _ => Linked sha1 (names ++ [unit.name])) ?_ fun _ => ?_
    · intro s hs u t hr
      exact returns_linkUnit staging unit s hs u t (onRaise_eq_ok.1 hr)
    · have hrest := ih (names ++ [unit.name])
      rw [List.append_assoc, List.singleton_append, ← List.map_cons] at hrest
      exact hrest

/-- Removing the staging directory leaves the destination. -/
theorem keeps_removeStaging {I : Dict String Entry → Prop} :
    Keeps (fun s : Sys σ => I s.disk.destination) (removeStaging calls) := by
  intro s hs
  unfold removeStaging
  have hask : (ask calls.rmtree s).2.disk = s.disk := rfl
  generalize ask calls.rmtree s = r at hask ⊢
  rw [← hask] at hs
  rcases r with ⟨_ | files, t⟩
  · exact hs
  · exact hs

/-- A new staging directory is empty. -/
theorem makeStaging_ok (sha1 : Bytes → String) {code : FailCode} :
    Returns (fun _ => True) (callOr code (makeStaging calls destination))
      fun _ s => Staged sha1 s.disk.destination s := by
  intro s _ path t hr
  rw [callOr_eq_ok] at hr
  unfold makeStaging at hr
  rcases hask : ask calls.mkdtemp s with ⟨e | suffix, u⟩
  · rw [hask] at hr
    cases hr
  · rw [hask] at hr
    cases hr
    exact ⟨rfl, _, [], rfl, fun p hp => by cases hp⟩

/-- What `materialize` leaves once the units are selected. -/
theorem returns_materializeUnits (selected : List MUnit) :
    Returns (fun _ => True) (materializeUnits calls sha1 destination selected) fun _ s =>
      s.disk.destination.keys = selected.map MUnit.name ∧ (selected.map MUnit.name).Nodup ∧
        NamedByDigest sha1 s.disk.destination := by
  refine Returns.bind (makeStaging_ok sha1) fun staging => ?_
  refine Returns.finallyDo ?_ fun _ => keeps_removeStaging (I := fun files =>
    files.keys = selected.map MUnit.name ∧ (selected.map MUnit.name).Nodup ∧
      NamedByDigest sha1 files)
  intro s hs u t hr
  obtain ⟨_, s1, hstage, hr⟩ := bind_eq_ok.1 hr
  have hs1 := returns_stageUnits selected s hs _ s1 hstage
  obtain ⟨_, s2, hvalid, hr⟩ := bind_eq_ok.1 hr
  obtain ⟨hs2, hempty⟩ := returns_validateDestination (d := s1.disk) s1 rfl _ s2 hvalid
  have hlinked : Linked sha1 [] s2 := by
    refine ⟨?_, List.nodup_nil, ?_, ?_⟩
    · rw [hs2, hempty]
      rfl
    · rw [hs2, hempty]
      exact fun p hp => by cases hp
    · rw [hs2]
      exact hs1.staging
  have hend := returns_linkUnits staging selected [] s2 hlinked u t hr
  exact ⟨hend.keys, hend.nodup, hend.units⟩

theorem printNumbers_eq_ok {numbers : List Nat} {u : Unit} {s t : Sys σ} :
    printNumbers numbers s = .ok u t ↔ (∀ n ∈ numbers, n < 10 ^ maxStrDigits) ∧ t = s := by
  rw [← List.all_iff_forall_prop]
  unfold printNumbers
  generalize numbers.all (· < 10 ^ maxStrDigits) = printed
  cases printed with
  | true => simp only [if_true, pure_eq_ok, true_and]
  | false => exact ⟨fun hr => (by cases hr), fun hr => (by cases hr.1)⟩

theorem printNumbers_eq_error {numbers : List Nat} {r : Raised} {s t : Sys σ}
    (h : printNumbers numbers s = .error r t) : (∃ n ∈ numbers, 10 ^ maxStrDigits ≤ n) ∧ t = s := by
  by_cases hall : ∀ n ∈ numbers, n < 10 ^ maxStrDigits
  · rw [printNumbers_eq_ok (u := ()).2 ⟨hall, rfl⟩] at h
    cases h
  · simp only [not_forall, not_lt] at hall
    obtain ⟨n, hn, hlong⟩ := hall
    refine ⟨⟨n, hn, hlong⟩, ?_⟩
    unfold printNumbers at h
    generalize numbers.all (· < 10 ^ maxStrDigits) = printed at h
    cases printed with
    | true => cases h
    | false =>
      cases h
      rfl

/-- **A materialized corpus is what its names say.** Whatever the environment answers, and
whether the files are linked or copied: where `materialize` returns, the destination holds one
regular file for each selected name and nothing else, of no more than a unit's size, and each
file's name is the digest of its bytes. -/
theorem materialized_corpus (calls : Calls σ) (sha1 : Bytes → String) (sha256 : String → String)
    (destination : Path) (shardIndex waveShardCount waveNumber : Nat) (commonSource : Path)
    (shardedSources : List Path) (s t : Sys σ) (summary : Summary)
    (h : materialize calls sha1 sha256 destination shardIndex waveShardCount waveNumber commonSource
      shardedSources s = .ok summary t) :
    ∃ selection s', materializeSelect (os calls destination) sha1 destination shardIndex
        waveShardCount waveNumber commonSource shardedSources s = .ok selection s' ∧
      summary = summaryOf sha256 shardIndex waveShardCount waveNumber selection ∧
      t.disk.destination.keys = selection.commonNames ++ selection.assignedNames ∧
      (selection.commonNames ++ selection.assignedNames).Nodup ∧
      ∀ p ∈ t.disk.destination, ∃ content mode, p.2 = .file content mode ∧ sha1 content = p.1 ∧
        content.length ≤ maxUnitBytes := by
  obtain ⟨selection, s', hselect, hr⟩ := bind_eq_ok.1 h
  obtain ⟨_, s'', hunits, hr⟩ := bind_eq_ok.1 hr
  obtain ⟨_, u, hprint, hend⟩ := bind_eq_ok.1 hr
  obtain ⟨-, rfl⟩ := printNumbers_eq_ok.1 hprint
  obtain ⟨rfl, rfl⟩ := pure_eq_ok.1 hend
  have hnames := selected_names sha1 destination shardIndex waveShardCount waveNumber
    commonSource shardedSources s trivial selection s' hselect
  obtain ⟨hkeys, hnodup, hfiles⟩ := returns_materializeUnits selection.selected s' trivial _ _ hunits
  rw [hnames] at hkeys hnodup
  exact ⟨selection, s', hselect, rfl, hkeys, hnodup, hfiles⟩

end

/-! ## A run over one common unit and one private unit -/

namespace OneEach

/-- Calls that all work. -/
def calls : Calls Unit where
  look _ := staticOS tree
  mkdtemp _ := (.ok "x", ())
  create _ _ _ := (.ok (), ())
  write _ _ n _ := (.ok n, ())
  fsync _ _ _ := (.ok (), ())
  close _ _ _ := (.ok (), ())
  closeSource _ _ := (.ok (), ())
  chmod _ _ _ := (.ok (), ())
  link _ _ := (.ok (), ())
  unlink _ _ := (.ok (), ())
  rmtree _ := (none, ())

/-- An empty destination. -/
def start : Sys Unit := ⟨(), ⟨[], none⟩⟩

/-- The run of the first of one shards, at the first wave. -/
def run : EStateM.Result Raised (Sys Unit) Summary :=
  materialize calls digest id ["dest"] 0 1 0 ["common"] [["private"]] start

def summary : Summary :=
  summaryOf id 0 1 0 ⟨[commonUnit], [privateUnit], some "86", 0, some 0, 1, []⟩

theorem run_ok : run = .ok summary (ending run) := eq_ok_of_returned (by decide +kernel)

end OneEach

/-- It leaves the two units. -/
theorem materialized_oneEach :
    ∃ selection s', materializeSelect (os OneEach.calls ["dest"]) OneEach.digest ["dest"] 0 1 0
        ["common"] [["private"]] OneEach.start = .ok selection s' ∧
      OneEach.summary = summaryOf id 0 1 0 selection ∧
      (ending OneEach.run).disk.destination.keys =
        selection.commonNames ++ selection.assignedNames ∧
      (selection.commonNames ++ selection.assignedNames).Nodup ∧
      ∀ p ∈ (ending OneEach.run).disk.destination, ∃ content mode, p.2 = .file content mode ∧
        OneEach.digest content = p.1 ∧ content.length ≤ maxUnitBytes :=
  materialized_corpus OneEach.calls OneEach.digest id ["dest"] 0 1 0 ["common"] [["private"]]
    OneEach.start (ending OneEach.run) OneEach.summary OneEach.run_ok

end MpcHunt.MaterializeWindow
