/-
What a failed `materialize` leaves. Each file it has linked or copied into the
destination is unlinked again, but a file is put on that list only after its
copy has returned: a copy that stops after it has opened its target leaves it
there. The manifest is written outside the handler: where that raises, all stays.
-/
import MpcHunt.Window.Corpus

namespace MpcHunt.MaterializeWindow

open Raising

section
variable {σ : Type} {calls : Calls σ} {sha1 : Bytes → String} {sha256 : String → String}
  {destination : Path}

/-! ## What is taken back -/

/-- The calls that take things back work. -/
structure Undoing (calls : Calls σ) : Prop where
  unlink : ∀ name env, (calls.unlink name env).1 = .ok ()
  rmtree : ∀ env, (calls.rmtree env).1 = none

theorem unlinkTarget_disk (hundo : Undoing calls) (name : String) (s : Sys σ) :
    (unlinkTarget calls name s).2.disk =
      { s.disk with destination := s.disk.destination.filter fun p => p.1 ≠ name } := by
  have hunlink := hundo.unlink name s.env
  unfold unlinkTarget changing ask
  rcases hc : calls.unlink name s.env with ⟨e | u, env⟩
  · rw [hc] at hunlink
    cases hunlink
  · rfl

/-- Unlinking keeps the files of other names. -/
theorem unlinkAll_run (hundo : Undoing calls) (names : List String) (s : Sys σ) :
    ∃ t, unlinkAll calls names s = .ok () t ∧ t.disk =
      { s.disk with destination := s.disk.destination.filter fun p => p.1 ∉ names } := by
  induction names generalizing s with
  | nil => exact ⟨s, rfl, by simp⟩
  | cons name rest ih =>
    obtain ⟨t, ht, hdisk⟩ := ih (unlinkTarget calls name s).2
    refine ⟨t, ht, ?_⟩
    rw [hdisk, unlinkTarget_disk hundo, List.filter_filter]
    simp only [List.mem_cons, not_or, Bool.decide_and, Bool.and_comm]

theorem removeStaging_run (hundo : Undoing calls) (s : Sys σ) :
    ∃ t, removeStaging calls s = .ok () t ∧ t.disk = { s.disk with staging := none } := by
  have hrmtree := hundo.rmtree s.env
  unfold removeStaging ask
  rcases hc : calls.rmtree s.env with ⟨_ | files, env⟩
  · exact ⟨_, rfl, rfl⟩
  · rw [hc] at hrmtree
    cases hrmtree

/-! ## One turn of the second loop -/

/-- A unit whose link fails and whose copy stops once its target is open. -/
def Strands (calls : Calls σ) (sha1 : Bytes → String) (destination staging : Path) (unit : MUnit)
    (s : Sys σ) : Prop :=
  let copied : MUnit := ⟨unit.name, staging ++ [unit.name], unit.size⟩
  ∃ e v w r t, linkTarget calls unit.name s = (.error e, v) ∧
    copyStart calls sha1 destination copied .destination v = .ok () w ∧
      copyFill calls sha1 destination copied .destination w = .error r t

theorem linkUnit_added {staging : Path} {unit : MUnit} {s t : Sys σ} {u : Unit}
    (h : linkUnit calls sha1 destination staging unit s = .ok u t) :
    s.disk.destination.has unit.name = false ∧
      ∃ entry, t.disk = s.disk.add .destination unit.name entry := by
  unfold linkUnit at h
  rcases linkTarget_disk calls unit.name s with
    ⟨v, path, units, entry, hv, -, -, hnew, hdisk⟩ | ⟨e, v, hv, hdisk⟩
  · rw [hv] at h
    cases h
    exact ⟨hnew, entry, hdisk⟩
  · rw [hv] at h
    obtain ⟨hfresh, -, content, -, -, hfilled⟩ :=
      copyVerified_ok ⟨unit.name, staging ++ [unit.name], unit.size⟩ v (d := v.disk) rfl u t h
    rw [hdisk] at hfresh hfilled
    exact ⟨hfresh _ rfl, _, hfilled⟩

/-- A turn that raises has changed nothing, or left the file of the copy it stopped in. -/
theorem linkUnit_error {staging : Path} {unit : MUnit} {s t : Sys σ} {r : Raised}
    (h : linkUnit calls sha1 destination staging unit s = .error r t) :
    (¬ Strands calls sha1 destination staging unit s ∧ t.disk = s.disk) ∨
      (Strands calls sha1 destination staging unit s ∧
        s.disk.destination.has unit.name = false ∧
          ∃ entry, t.disk = s.disk.add .destination unit.name entry) := by
  unfold linkUnit at h
  rcases linkTarget_disk calls unit.name s with
    ⟨v, path, units, entry, hv, -, -, -, -⟩ | ⟨e, v, hv, hdisk⟩
  · rw [hv] at h
    cases h
  · rw [hv] at h
    rcases bind_eq_error.1 h with hstart | ⟨_, w, hstart, hfill⟩
    · refine .inl ⟨fun hstrands => ?_, ?_⟩
      · obtain ⟨e', v', w, r', t', hv', hstart', -⟩ := hstrands
        rw [hv] at hv'
        cases hv'
        rw [hstart] at hstart'
        cases hstart'
      · exact (copyStart_error _ v (d := v.disk) rfl r t hstart).trans hdisk
    · obtain ⟨-, hfresh, hfilled⟩ := copyStart_ok _ v (d := v.disk) rfl _ w hstart
      obtain ⟨mode, content, hend⟩ :=
        (keeps_copyFill hfresh).error (I := Holding v.disk .destination unit.name)
          ⟨_, _, hfilled⟩ hfill
      have hadded : t.disk = v.disk.add .destination unit.name (.file content mode) := hend
      rw [hdisk] at hfresh hadded
      exact .inr ⟨⟨e, v, w, r, t, hv, hstart, hfill⟩, hfresh _ rfl, _, hadded⟩

theorem linkUnit_of_strands {staging : Path} {unit : MUnit} {s : Sys σ}
    (h : Strands calls sha1 destination staging unit s) :
    ∃ r t, linkUnit calls sha1 destination staging unit s = .error r t := by
  obtain ⟨e, v, w, r, t, hv, hstart, hfill⟩ := h
  refine ⟨r, t, ?_⟩
  unfold linkUnit
  rw [hv]
  exact bind_eq_error.2 (.inr ⟨(), w, hstart, hfill⟩)

/-! ## The second loop -/

/-- Some turn of the second loop strands a file. -/
inductive StrandsIn (calls : Calls σ) (sha1 : Bytes → String) (destination staging : Path) :
    List MUnit → Sys σ → Prop where
  | here {unit : MUnit} {rest : List MUnit} {s : Sys σ} :
    Strands calls sha1 destination staging unit s →
      StrandsIn calls sha1 destination staging (unit :: rest) s
  | later {unit : MUnit} {rest : List MUnit} {s t : Sys σ} :
    linkUnit calls sha1 destination staging unit s = .ok () t →
      StrandsIn calls sha1 destination staging rest t →
        StrandsIn calls sha1 destination staging (unit :: rest) s

theorem strandsIn_of_ok {staging : Path} {unit : MUnit} {rest : List MUnit} {s t : Sys σ}
    (h : linkUnit calls sha1 destination staging unit s = .ok () t) :
    StrandsIn calls sha1 destination staging (unit :: rest) s ↔
      StrandsIn calls sha1 destination staging rest t := by
  refine ⟨fun hs => ?_, fun hs => .later h hs⟩
  cases hs with
  | here hstrands =>
    obtain ⟨r, u, hu⟩ := linkUnit_of_strands hstrands
    rw [h] at hu
    cases hu
  | later hok hrest =>
    rw [h] at hok
    cases hok
    exact hrest

theorem strandsIn_of_error {staging : Path} {unit : MUnit} {rest : List MUnit} {s t : Sys σ}
    {r : Raised} (h : linkUnit calls sha1 destination staging unit s = .error r t) :
    StrandsIn calls sha1 destination staging (unit :: rest) s ↔
      Strands calls sha1 destination staging unit s := by
  refine ⟨fun hs => ?_, .here⟩
  cases hs with
  | here hstrands => exact hstrands
  | later hok hrest =>
    rw [h] at hok
    cases hok

/-- The second loop, where it raises: what it has created is gone, and the destination empty
unless a turn has stranded a file. -/
theorem linkUnits_error (hundo : Undoing calls) {staging : Path} (units : List MUnit)
    (created : List String) {s t : Sys σ} {r : Raised} (hs : s.disk.destination.keys = created)
    (h : linkUnits calls sha1 destination staging units created s = .error r t) :
    t.disk.destination = [] ↔ ¬ StrandsIn calls sha1 destination staging units s := by
  induction units generalizing created s with
  | nil => cases h
  | cons unit rest ih =>
    rcases bind_eq_error.1 h with hturn | ⟨_, s1, hturn, hrest⟩
    · have hworks : ∀ s, ∃ s', unlinkAll calls created.reverse s = .ok ⟨⟩ s' := fun s =>
        (unlinkAll_run hundo created.reverse s).imp fun _ hr => hr.1
      obtain ⟨s1, hunit, hunlink⟩ := (onRaise_eq_error hworks).1 hturn
      obtain ⟨t', ht', hdisk⟩ := unlinkAll_run hundo created.reverse s1
      rw [hunlink] at ht'
      cases ht'
      rw [strandsIn_of_error hunit, hdisk]
      have hgone : s.disk.destination.filter (fun p => p.1 ∉ created.reverse) = [] := by
        refine List.filter_eq_nil_iff.2 fun p hp => ?_
        have hmem : p.1 ∈ created := hs ▸ List.mem_map_of_mem hp
        simpa using hmem
      rcases linkUnit_error hunit with ⟨hno, hsame⟩ | ⟨hstrands, hnew, entry, hadded⟩
      · rw [hsame]
        exact ⟨fun _ => hno, fun _ => hgone⟩
      · have hdestination : s1.disk.destination = s.disk.destination ++ [(unit.name, entry)] := by
          rw [hadded]
          rfl
        have hfresh : unit.name ∉ created := by
          intro hmem
          rw [← hs, ← Dict.has_iff, hnew] at hmem
          cases hmem
        have hleft : s1.disk.destination.filter (fun p => p.1 ∉ created.reverse) =
            [(unit.name, entry)] := by
          rw [hdestination, List.filter_append, hgone]
          simp [hfresh]
        dsimp only
        rw [hleft]
        exact ⟨fun hnil => absurd hnil (List.cons_ne_nil _ _), fun hno => absurd hstrands hno⟩
    · have hunit := onRaise_eq_ok.1 hturn
      obtain ⟨-, entry, hadded⟩ := linkUnit_added hunit
      rw [strandsIn_of_ok hunit]
      refine ih _ ?_ hrest
      rw [hadded]
      show Dict.keys (s.disk.destination ++ [(unit.name, entry)]) = _
      rw [Dict.keys_append, hs]
      rfl

/-! ## A whole run -/

theorem keeps_stageUnits {files : Dict String Entry} (units : List MUnit) :
    Keeps (fun s : Sys σ => s.disk.destination = files)
      (stageUnits calls sha1 destination units) := by
  induction units with
  | nil => exact Keeps.pure _
  | cons unit rest ih =>
    refine Keeps.bind (fun s hs => ?_) fun _ => ih
    have hdone : ∀ d : Disk, d = s.disk ∨ (∃ entry, d = s.disk.add .staging unit.name entry) →
        d.destination = files := by
      intro d hd
      rcases hd with rfl | ⟨entry, rfl⟩
      · exact hs
      · exact hs
    cases hrun : copyVerified calls sha1 destination unit .staging s with
    | ok u t =>
      obtain ⟨-, -, content, -, -, hfilled⟩ := copyVerified_ok unit s (d := s.disk) rfl u t hrun
      exact hdone _ (.inr ⟨_, hfilled⟩)
    | error r t =>
      rcases bind_eq_error.1 hrun with hstart | ⟨_, w, hstart, hfill⟩
      · exact hdone _ (.inl (copyStart_error unit s (d := s.disk) rfl r t hstart))
      · obtain ⟨-, hfresh, hfilled⟩ := copyStart_ok unit s (d := s.disk) rfl _ w hstart
        obtain ⟨mode, content, hend⟩ :=
          (keeps_copyFill hfresh).error (I := Holding s.disk .staging unit.name) ⟨_, _, hfilled⟩ hfill
        exact hdone _ (.inr ⟨_, hend⟩)

/-- Of the selected units, the copy of one, whose link fails, stops once its target is open. -/
def StrandsUnits (calls : Calls σ) (sha1 : Bytes → String) (destination : Path)
    (selected : List MUnit) (s : Sys σ) : Prop :=
  ∃ staging s2 s3 s4, makeStaging calls destination s = (.ok staging, s2) ∧
    stageUnits calls sha1 destination selected s2 = .ok () s3 ∧
      validateDestination (os calls destination) destination s3 = .ok () s4 ∧
        StrandsIn calls sha1 destination staging selected s4

theorem strandsUnits_iff {selected : List MUnit} {staging : Path} {s s2 : Sys σ}
    (h2 : makeStaging calls destination s = (.ok staging, s2)) :
    StrandsUnits calls sha1 destination selected s ↔
      ∃ s3 s4, stageUnits calls sha1 destination selected s2 = .ok () s3 ∧
        validateDestination (os calls destination) destination s3 = .ok () s4 ∧
          StrandsIn calls sha1 destination staging selected s4 := by
  refine ⟨fun hs => ?_, fun hs => ?_⟩
  · obtain ⟨staging', s2', s3, s4, h2', h3, h4, hstrands⟩ := hs
    rw [h2] at h2'
    cases h2'
    exact ⟨s3, s4, h3, h4, hstrands⟩
  · obtain ⟨s3, s4, h3, h4, hstrands⟩ := hs
    exact ⟨staging, s2, s3, s4, h2, h3, h4, hstrands⟩

/-- The body of the `try` that ends in the removal of the staging directory. -/
theorem stagedUnits_error (hundo : Undoing calls) {selected : List MUnit} {staging : Path}
    {s2 t : Sys σ} {r : Raised} (hs : s2.disk.destination = [])
    (h : (do
      stageUnits calls sha1 destination selected
      validateDestination (os calls destination) destination
      linkUnits calls sha1 destination staging selected [] : Py (Sys σ) Unit) s2 = .error r t) :
    t.disk.destination = [] ↔ ¬ ∃ s3 s4, stageUnits calls sha1 destination selected s2 = .ok () s3 ∧
      validateDestination (os calls destination) destination s3 = .ok () s4 ∧
        StrandsIn calls sha1 destination staging selected s4 := by
  rcases bind_eq_error.1 h with hstage | ⟨_, s3, hstage, h⟩
  · refine ⟨fun _ hno => ?_, fun _ => (keeps_stageUnits selected).error hs hstage⟩
    obtain ⟨s3, s4, hok, -⟩ := hno
    rw [hstage] at hok
    cases hok
  have hs3 : s3.disk.destination = [] := (keeps_stageUnits selected).ok hs hstage
  have hkept := keptBy_os calls destination s3.disk
  rcases bind_eq_error.1 h with hvalid | ⟨_, s4, hvalid, h⟩
  · refine ⟨fun _ hno => ?_, fun _ => ?_⟩
    · obtain ⟨s3', s4, hstage', hok, -⟩ := hno
      rw [hstage] at hstage'
      cases hstage'
      rw [hvalid] at hok
      cases hok
    · have hsame : t.disk = s3.disk := (keeps_validateDestination hkept destination).error rfl hvalid
      rw [hsame]
      exact hs3
  have hs4 : s4.disk = s3.disk := (keeps_validateDestination hkept destination).ok rfl hvalid
  rw [linkUnits_error hundo selected [] (by rw [hs4, hs3]; rfl) h]
  refine not_congr ⟨fun hstrands => ⟨s3, s4, hstage, hvalid, hstrands⟩, fun hstrands => ?_⟩
  obtain ⟨s3', s4', hstage', hvalid', hstrands⟩ := hstrands
  rw [hstage] at hstage'
  cases hstage'
  rw [hvalid] at hvalid'
  cases hvalid'
  exact hstrands

theorem materializeUnits_error (hundo : Undoing calls) {selected : List MUnit} {s t : Sys σ}
    {r : Raised} (hs : s.disk = ⟨[], none⟩)
    (h : materializeUnits calls sha1 destination selected s = .error r t) :
    t.disk = ⟨[], none⟩ ↔ ¬ StrandsUnits calls sha1 destination selected s := by
  unfold materializeUnits at h
  rcases hmake : makeStaging calls destination s with ⟨e | staging, s2⟩
  · have hdisk : s2.disk = s.disk := by
      unfold makeStaging at hmake
      rcases hask : ask calls.mkdtemp s with ⟨e' | suffix, u⟩
      · rw [hask] at hmake
        cases hmake
        exact congrArg (fun r => r.2.disk) hask.symm
      · rw [hask] at hmake
        cases hmake
    have ht : t = s2 := by
      rcases bind_eq_error.1 h with h | ⟨staging, u, hok, -⟩
      · unfold callOr at h
        rw [hmake] at h
        cases h
        rfl
      · rw [callOr_eq_ok, hmake] at hok
        cases hok
    refine ⟨fun _ hno => ?_, fun _ => by rw [ht, hdisk, hs]⟩
    obtain ⟨staging, s2', s3, s4, hok, -⟩ := hno
    rw [hmake] at hok
    cases hok
  · rw [strandsUnits_iff hmake]
    have hs2 : s2.disk.destination = [] := by
      unfold makeStaging at hmake
      rcases hask : ask calls.mkdtemp s with ⟨e' | suffix, u⟩
      · rw [hask] at hmake
        cases hmake
      · rw [hask] at hmake
        cases hmake
        have hu : u.disk = s.disk := congrArg (fun r => r.2.disk) hask.symm
        show u.disk.destination = []
        rw [hu, hs]
    rcases bind_eq_error.1 h with h | ⟨staging', u, hok, h⟩
    · unfold callOr at h
      rw [hmake] at h
      cases h
    · rw [callOr_eq_ok, hmake] at hok
      cases hok
      have hworks : ∀ s, ∃ s', removeStaging calls s = .ok ⟨⟩ s' := fun s =>
        (removeStaging_run hundo s).imp fun _ hr => hr.1
      obtain ⟨u, hbody, hremove⟩ := (finallyDo_eq_error hworks).1 h
      obtain ⟨t', ht', hdisk⟩ := removeStaging_run hundo u
      rw [hremove] at ht'
      cases ht'
      rw [← stagedUnits_error hundo hs2 hbody, hdisk]
      simp

/-- A whole run in which a file is stranded. -/
def StrandsRun (calls : Calls σ) (sha1 : Bytes → String) (a : Arguments) (s : Sys σ) : Prop :=
  ∃ selection s1, materializeSelect (os calls a.destination) sha1 a.destination a.shardIndex
      a.waveShardCount a.waveNumber a.commonSource a.shardedSources s = .ok selection s1 ∧
    StrandsUnits calls sha1 a.destination selection.selected s1

/-- A whole run whose units are all in the destination, and whose manifest has a number of too
many digits. -/
def OverlongRun (calls : Calls σ) (sha1 : Bytes → String) (a : Arguments) (s : Sys σ) : Prop :=
  ∃ selection s1 s2, materializeSelect (os calls a.destination) sha1 a.destination a.shardIndex
      a.waveShardCount a.waveNumber a.commonSource a.shardedSources s = .ok selection s1 ∧
    materializeUnits calls sha1 a.destination selection.selected s1 = .ok () s2 ∧
      ∃ n ∈ printedNumbers a.shardIndex a.waveShardCount a.waveNumber selection,
        10 ^ maxStrDigits ≤ n

/-- A run that writes its manifest has at least one unit in the destination. -/
theorem full_of_units {a : Arguments} {selection : Selection} {s s1 s2 : Sys σ}
    (hselect : materializeSelect (os calls a.destination) sha1 a.destination a.shardIndex
      a.waveShardCount a.waveNumber a.commonSource a.shardedSources s = .ok selection s1)
    (hunits : materializeUnits calls sha1 a.destination selection.selected s1 = .ok () s2) :
    s2.disk.destination ≠ [] := by
  obtain ⟨hkeys, -, -⟩ := returns_materializeUnits selection.selected s1 trivial () s2 hunits
  rw [selected_names sha1 a.destination a.shardIndex a.waveShardCount a.waveNumber a.commonSource
    a.shardedSources s trivial selection s1 hselect] at hkeys
  intro hempty
  rw [hempty] at hkeys
  exact selected_common sha1 a.destination a.shardIndex a.waveShardCount a.waveNumber a.commonSource
    a.shardedSources s trivial selection s1 hselect (List.append_eq_nil_iff.1 hkeys.symm).1

/-- A failed run on parsed arguments: only the copies it has stranded are left, or, where its
manifest is what failed, all it has put there. -/
theorem materialize_error (hundo : Undoing calls) {a : Arguments} {s t : Sys σ} {r : Raised}
    (hs : s.disk = ⟨[], none⟩)
    (h : materialize calls sha1 sha256 a.destination a.shardIndex a.waveShardCount a.waveNumber
      a.commonSource a.shardedSources s = .error r t) :
    t.disk = ⟨[], none⟩ ↔ ¬ (StrandsRun calls sha1 a s ∨ OverlongRun calls sha1 a s) := by
  have hkept := keptBy_os calls a.destination s.disk
  have hkeeps := keeps_materializeSelect hkept sha1 a.destination a.shardIndex a.waveShardCount
    a.waveNumber a.commonSource a.shardedSources
  rcases bind_eq_error.1 h with hselect | ⟨selection, s1, hselect, h⟩
  · have ht : t.disk = s.disk := hkeeps.error rfl hselect
    refine ⟨fun _ hleft => ?_, fun _ => ht.trans hs⟩
    rcases hleft with ⟨selection, s1, hok, -⟩ | ⟨selection, s1, s2, hok, -⟩
    · rw [hselect] at hok
      cases hok
    · rw [hselect] at hok
      cases hok
  have hs1 : s1.disk = s.disk := hkeeps.ok rfl hselect
  have hstrands : StrandsRun calls sha1 a s ↔
      StrandsUnits calls sha1 a.destination selection.selected s1 := by
    refine ⟨fun hrun => ?_, fun hunits => ⟨selection, s1, hselect, hunits⟩⟩
    obtain ⟨selection', s1', hselect', hunits⟩ := hrun
    rw [hselect] at hselect'
    cases hselect'
    exact hunits
  rcases bind_eq_error.1 h with hunits | ⟨_, s2, hunits, h⟩
  · rw [materializeUnits_error hundo (hs1.trans hs) hunits, not_or, hstrands]
    refine ⟨fun hno => ⟨hno, fun hlong => ?_⟩, fun hno => hno.1⟩
    obtain ⟨selection', s1', s2, hselect', hunits', -⟩ := hlong
    rw [hselect] at hselect'
    cases hselect'
    rw [hunits] at hunits'
    cases hunits'
  · have hprint : printNumbers (printedNumbers a.shardIndex a.waveShardCount a.waveNumber selection)
        s2 = .error r t := by
      rcases bind_eq_error.1 h with hprint | ⟨_, s3, -, hend⟩
      · exact hprint
      · cases hend
    obtain ⟨hlong, rfl⟩ := printNumbers_eq_error hprint
    refine ⟨fun hempty => absurd (congrArg Disk.destination hempty) (full_of_units hselect hunits),
      fun hno => absurd (.inr ⟨selection, s1, t, hselect, hunits, hlong⟩) hno⟩

theorem keeps_parseUint {I : σ → Prop} (value : String) (code : FailCode) :
    Keeps I (parseUint value code) :=
  Keeps.ite (Keeps.throw _) (Keeps.ite (Keeps.throw _) (Keeps.pure _))

theorem keeps_parseArguments {I : σ → Prop} (path : String → Path) (arguments : List String) :
    Keeps I (parseArguments path arguments) := by
  unfold parseArguments
  split
  · exact Keeps.bind (keeps_parseUint _ _) fun _ => Keeps.bind (keeps_parseUint _ _) fun _ =>
      Keeps.bind (keeps_parseUint _ _) fun _ => Keeps.pure _
  · exact Keeps.throw _

/-- **What a failed materialization leaves.** From an empty destination, with calls of which
any may fail but those that take things back: where `materialize` raises on a command line, the
destination is empty again and no staging directory is left, except where a fallback copy has stopped
once its target was open, or all the units were in the destination and a number of the manifest was
too long to be written. -/
theorem undone_iff (hundo : Undoing calls) (sha1 : Bytes → String) (sha256 : String → String)
    (path : String → Path) (arguments : List String) {s t : Sys σ} {r : Raised}
    (hs : s.disk = ⟨[], none⟩)
    (h : materializeArguments calls sha1 sha256 path arguments s = .error r t) :
    t.disk = ⟨[], none⟩ ↔ ¬ ∃ a, parseArguments path arguments s = .ok a s ∧
      (StrandsRun calls sha1 a s ∨ OverlongRun calls sha1 a s) := by
  have hkeeps := keeps_parseArguments (I := (· = s)) path arguments
  rcases bind_eq_error.1 h with hparse | ⟨a, s', hparse, hrun⟩
  · have ht : t = s := hkeeps.error rfl hparse
    refine ⟨fun _ hleft => ?_, fun _ => ht ▸ hs⟩
    obtain ⟨a, hok, -⟩ := hleft
    rw [hparse] at hok
    cases hok
  · have hsame : s' = s := hkeeps.ok rfl hparse
    rw [hsame] at hparse hrun
    rw [materialize_error hundo hs hrun]
    refine not_congr ⟨fun hleft => ⟨a, hparse, hleft⟩, fun hleft => ?_⟩
    obtain ⟨a', hparse', hleft⟩ := hleft
    rw [hparse] at hparse'
    cases hparse'
    exact hleft

end

/-! ## A full disk -/

namespace FullDisk

open OneEach (commonUnit privateUnit digest start)

def units : Path → Option Node
  | [directory, name] =>
    if directory = "common" ∧ name = commonUnit then some (.file ⟨1, 1, []⟩)
    else if directory = "private" ∧ name = privateUnit then some (.file ⟨1, 2, [97]⟩)
    else if directory = ".corpus-shard-x" ∧ name = commonUnit then some (.file ⟨1, 3, []⟩)
    else if directory = ".corpus-shard-x" ∧ name = privateUnit then some (.file ⟨1, 4, [97]⟩)
    else none
  | _ => none

/-- The sources of `OneEach`, and the staging directory once they are in it. -/
def world : World
  | ["dest"] => some (.directory [])
  | ["common"] => some (.directory [commonUnit])
  | ["private"] => some (.directory [privateUnit])
  | path => units path

/-- No links between the two directories, and no room for a byte in the destination. -/
def calls : Calls Unit :=
  { OneEach.calls with
    look := fun _ => worldOS world
    link := fun _ _ => (.error .osError, ())
    write := fun dir _ n _ => (if dir = .destination then .error .osError else .ok n, ()) }

def run : EStateM.Result Raised (Sys Unit) Summary :=
  materializeArguments calls digest id ([·]) ["dest", "0", "1", "0", "common", "private"] start

theorem run_error : run = .error .osError (ending run) := eq_error_of_raised (by decide +kernel)

theorem undoing : Undoing calls := ⟨fun _ _ => rfl, fun _ => rfl⟩

end FullDisk

/-- A run in which the second copy into the destination cannot be written. -/
theorem undone_fullDisk :
    (ending FullDisk.run).disk = ⟨[], none⟩ ↔
      ¬ ∃ a, parseArguments ([·]) ["dest", "0", "1", "0", "common", "private"] OneEach.start =
          .ok a OneEach.start ∧
        (StrandsRun FullDisk.calls OneEach.digest a OneEach.start ∨
          OverlongRun FullDisk.calls OneEach.digest a OneEach.start) :=
  undone_iff FullDisk.undoing OneEach.digest id ([·]) ["dest", "0", "1", "0", "common", "private"] rfl
    FullDisk.run_error

/-- It leaves an empty file of that name in the destination. -/
theorem stranded_fullDisk :
    Undoing FullDisk.calls ∧ OneEach.start.disk = ⟨[], none⟩ ∧
      materializeArguments FullDisk.calls OneEach.digest id ([·])
          ["dest", "0", "1", "0", "common", "private"] OneEach.start =
        .error .osError (ending FullDisk.run) ∧
        (ending FullDisk.run).disk = ⟨[(OneEach.privateUnit, .file [] 0o600)], none⟩ :=
  ⟨FullDisk.undoing, rfl, FullDisk.run_error, by decide +kernel⟩

/-- A wave number of 4300 digits, in a wave of 4096 shards over one prefix: both units stay. -/
example :
    (ending (materialize OneEach.calls OneEach.digest id ["dest"] 0 4096 (10 ^ 4299) ["common"]
      [["private"]] OneEach.start)).disk.destination.keys =
        [OneEach.commonUnit, OneEach.privateUnit] := by
  decide +kernel

end MpcHunt.MaterializeWindow
