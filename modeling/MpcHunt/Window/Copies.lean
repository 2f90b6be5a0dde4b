/-
What a run of `materialize` does to the two directories it writes: the calls
that look at files change neither; a copy that stops before its target is open
leaves them, one that stops later has added a file, and one that returns has
added a file that is what its name says.
-/
import MpcHunt.Window.Materialize
import MpcHunt.Window.WorldScan

namespace MpcHunt.MaterializeWindow

open Raising

/-! ## The directories -/

/-- Two changes of a directory, one after the other. -/
theorem Disk.update_update (d : Disk) (dir : OwnDir)
    (f g : Dict String Entry → Dict String Entry) :
    (d.update dir f).update dir g = d.update dir fun files => g (f files) := by
  cases dir with
  | staging => simp [Disk.update, Option.map_map, Function.comp_def]
  | destination => rfl

theorem Disk.update_congr {d : Disk} {dir : OwnDir} {f g : Dict String Entry → Dict String Entry}
    (h : ∀ files, d.files dir = some files → f files = g files) : d.update dir f = d.update dir g := by
  cases dir with
  | staging =>
    obtain ⟨destination, _ | ⟨path, files⟩⟩ := d
    · rfl
    · have hfiles : f files = g files := h files rfl
      simp [Disk.update, hfiles]
  | destination =>
    have hfiles : f d.destination = g d.destination := h d.destination rfl
    simp [Disk.update, hfiles]

/-- The directories with one more file. -/
def Disk.add (d : Disk) (dir : OwnDir) (name : String) (entry : Entry) : Disk :=
  d.update dir (· ++ [(name, entry)])

/-- No file of a name in a directory. -/
def Fresh (d : Disk) (dir : OwnDir) (name : String) : Prop :=
  ∀ files, d.files dir = some files → files.has name = false

theorem alter_append {name : String} {entry : Entry} {files : Dict String Entry}
    (h : files.has name = false) (f : Entry → Entry) :
    alter name f (files ++ [(name, entry)]) = files ++ [(name, f entry)] := by
  have hkeep : files.map (fun p => (p.1, if p.1 = name then f p.2 else p.2)) = files := by
    refine (List.map_congr_left fun p hp => ?_).trans (List.map_id files)
    have hne : p.1 ≠ name := by
      intro he
      rw [Dict.has, List.any_eq_false] at h
      exact h p hp (by simpa using he)
    simp [hne]
  simp [alter, hkeep]

/-- A change of the file added. -/
theorem Disk.alter_add {d : Disk} {dir : OwnDir} {name : String} (h : Fresh d dir name)
    (entry : Entry) (f : Entry → Entry) :
    (d.add dir name entry).update dir (alter name f) = d.add dir name (f entry) := by
  rw [Disk.add, Disk.update_update]
  exact Disk.update_congr fun files hfiles => alter_append (h files hfiles) f

section
variable {σ α : Type}

/-! ## Calls that look -/

/-- What no call that looks at files breaks. -/
structure KeptBy (os : OS σ) (I : σ → Prop) : Prop where
  lstat : ∀ path s, I s → I (os.lstat path s).2
  scandir : ∀ path s, I s → I (os.scandir path s).2
  openRead : ∀ path s, I s → I (os.openRead path s).2

section
variable {os : OS σ} {I : σ → Prop}

theorem keeps_callOr {code : FailCode} {f : σ → Except OSError α × σ} (hf : ∀ s, I s → I (f s).2) :
    Keeps I (callOr code f) := by
  intro s hs
  have hend := hf s hs
  unfold callOr
  generalize f s = r at hend ⊢
  rcases r with ⟨_ | _, s'⟩
  · exact hend
  · exact hend

theorem keeps_rejectIf {bad : Prop} [Decidable bad] {code : FailCode} : Keeps I (rejectIf bad code) :=
  Keeps.ite (Keeps.throw _) (Keeps.pure _)

theorem keeps_liftExcept (x : Except Raised α) : Keeps I (liftExcept x) := by
  cases x with
  | ok a => exact Keeps.pure _
  | error r => exact Keeps.throw _

theorem keeps_orRaise (r : Raised) (x : Except OSError α) : Keeps I (orRaise r x) := by
  cases x with
  | ok a => exact Keeps.pure _
  | error e => exact Keeps.throw _

theorem keeps_lstatDirectory (h : KeptBy os I) (path : Path) (code : FailCode) :
    Keeps I (lstatDirectory os path code) := by
  refine Keeps.bind (keeps_callOr (h.lstat path)) fun metadata => ?_
  exact Keeps.ite (Keeps.pure _) (Keeps.throw _)

theorem keeps_hashRegularFile (h : KeptBy os I) (sha1 : Bytes → String) (path : Path)
    (expected : StatResult) : Keeps I (hashRegularFile os sha1 path expected) := by
  refine Keeps.bind (keeps_callOr (h.openRead path)) fun session => ?_
  refine Keeps.bind (keeps_orRaise _ _) fun opened => ?_
  refine Keeps.bind keeps_rejectIf fun _ => Keeps.bind keeps_rejectIf fun _ => ?_
  refine Keeps.bind (keeps_liftExcept _) fun content => ?_
  refine Keeps.bind (keeps_orRaise _ _) fun after => ?_
  exact Keeps.bind keeps_rejectIf fun _ => Keeps.pure _

theorem keeps_checkEntry (entry : DirEntry) : Keeps I (checkEntry entry) := by
  refine Keeps.bind keeps_rejectIf fun _ => Keeps.bind (keeps_orRaise _ _) fun metadata => ?_
  exact Keeps.bind keeps_rejectIf fun _ => Keeps.bind keeps_rejectIf fun _ => Keeps.pure _

theorem keeps_validateDestination (h : KeptBy os I) (destination : Path) :
    Keeps I (validateDestination os destination) := by
  refine Keeps.bind (keeps_lstatDirectory h _ _) fun _ => ?_
  refine Keeps.bind (keeps_callOr (h.scandir _)) fun listing => ?_
  exact Keeps.bind keeps_rejectIf fun _ => keeps_rejectIf

theorem keeps_validateSourceEntries (h : KeptBy os I) (sha1 : Bytes → String) (directory : Path)
    (entries : List DirEntry) (units : Dict String MUnit) :
    Keeps I (validateSourceEntries os sha1 directory entries units) := by
  induction entries generalizing units with
  | nil => exact Keeps.pure _
  | cons entry rest ih =>
    refine Keeps.bind (keeps_checkEntry entry) fun metadata => ?_
    refine Keeps.bind (keeps_hashRegularFile h _ _ _) fun r => ?_
    exact Keeps.bind keeps_rejectIf fun _ => ih _

theorem keeps_validateSource (h : KeptBy os I) (sha1 : Bytes → String) (directory : Path) :
    Keeps I (validateSource os sha1 directory) := by
  refine Keeps.bind (keeps_lstatDirectory h _ _) fun _ => ?_
  refine Keeps.bind (keeps_callOr (h.scandir _)) fun listing => ?_
  refine Keeps.bind keeps_rejectIf fun _ => Keeps.bind keeps_rejectIf fun _ => ?_
  exact keeps_validateSourceEntries h _ _ _ _

theorem keeps_scanEntries (source : Path) (selectedPrefix : Option String)
    (entries : List DirEntry) (acc : Scan) :
    Keeps I (scanEntries source selectedPrefix entries acc) := by
  induction entries generalizing acc with
  | nil => exact Keeps.pure _
  | cons entry rest ih =>
    refine Keeps.bind (keeps_checkEntry entry) fun metadata => ?_
    refine Keeps.bind keeps_rejectIf fun _ => Keeps.bind keeps_rejectIf fun _ => ?_
    exact Keeps.bind keeps_rejectIf fun _ => Keeps.bind keeps_rejectIf fun _ => ih _

theorem keeps_scanSources (h : KeptBy os I) (selectedPrefix : Option String) (sources : List Path)
    (acc : Scan) : Keeps I (scanSources os selectedPrefix sources acc) := by
  induction sources generalizing acc with
  | nil => exact Keeps.pure _
  | cons source rest ih =>
    refine Keeps.bind (keeps_lstatDirectory h _ _) fun _ => ?_
    refine Keeps.bind (keeps_callOr (h.scandir _)) fun listing => ?_
    refine Keeps.bind (keeps_scanEntries _ _ _ _) fun acc' => ?_
    exact Keeps.bind keeps_rejectIf fun _ => ih _

theorem keeps_scanPrivateSources (h : KeptBy os I) (sources : List Path)
    (selectedPrefix : Option String) :
    Keeps I (scanPrivateSources os sources selectedPrefix) :=
  Keeps.bind (keeps_scanSources h _ _ _) fun _ => Keeps.pure _

theorem keeps_validateCandidates (h : KeptBy os I) (sha1 : Bytes → String) (name : String)
    (units : List MUnit) (validated : Dict String MUnit) :
    Keeps I (validateCandidates os sha1 name units validated) := by
  induction units generalizing validated with
  | nil => exact Keeps.pure _
  | cons unit rest ih =>
    refine Keeps.bind (keeps_callOr (h.lstat _)) fun metadata => ?_
    refine Keeps.bind keeps_rejectIf fun _ => ?_
    refine Keeps.bind (keeps_hashRegularFile h _ _ _) fun r => ?_
    exact Keeps.bind keeps_rejectIf fun _ => Keeps.bind keeps_rejectIf fun _ => ih _

theorem keeps_validateNames (h : KeptBy os I) (sha1 : Bytes → String)
    (candidates : Dict String (List MUnit)) (names : List String) (validated : Dict String MUnit) :
    Keeps I (validateNames os sha1 candidates names validated) := by
  induction names generalizing validated with
  | nil => exact Keeps.pure _
  | cons name rest ih => exact Keeps.bind (keeps_validateCandidates h _ _ _ _) fun _ => ih _

/-- A selection only looks. -/
theorem keeps_materializeSelect (h : KeptBy os I) (sha1 : Bytes → String) (destination : Path)
    (shardIndex waveShardCount waveNumber : Nat) (commonSource : Path) (shardedSources : List Path) :
    Keeps I (materializeSelect os sha1 destination shardIndex waveShardCount waveNumber commonSource
      shardedSources) := by
  refine Keeps.bind keeps_rejectIf fun _ => Keeps.bind keeps_rejectIf fun _ => ?_
  refine Keeps.bind (keeps_validateDestination h _) fun _ => ?_
  refine Keeps.bind (keeps_validateSource h _ _) fun common => ?_
  refine Keeps.bind keeps_rejectIf fun _ => ?_
  have hinventory : Keeps I (scanPrivateInventory os shardedSources) :=
    Keeps.bind (keeps_scanPrivateSources h _ _) fun _ => Keeps.pure _
  refine Keeps.bind hinventory fun inventory => ?_
  dsimp only
  refine Keeps.ite (Keeps.bind (Keeps.pure _) fun bucket => Keeps.pure _) ?_
  refine Keeps.bind ?_ fun validated => Keeps.bind (Keeps.pure _) fun bucket => Keeps.pure _
  refine Keeps.bind (keeps_scanPrivateSources h _ _) fun r => ?_
  exact Keeps.bind keeps_rejectIf fun _ => keeps_validateNames h _ _ _ _

end

/-! ## What a read lets through -/

theorem readCapped_length {chunks : List (Except OSError Bytes)} {acc content : Bytes}
    (hacc : acc.length ≤ maxUnitBytes) (h : readCapped chunks acc = .ok content) :
    content.length ≤ maxUnitBytes := by
  induction chunks generalizing acc with
  | nil =>
    cases h
    exact hacc
  | cons chunk rest ih =>
    rcases chunk with e | _ | ⟨b, chunk⟩
    · cases h
    · cases h
      exact hacc
    · unfold readCapped at h
      split at h
      · cases h
      · exact ih (Nat.le_of_not_gt ‹_›) h

theorem hashRegularFile_size {os : OS σ} {sha1 : Bytes → String} {path : Path}
    {expected : StatResult} {digest : String} {size : Nat} {s s' : σ}
    (h : hashRegularFile os sha1 path expected s = .ok (digest, size) s') : size ≤ maxUnitBytes := by
  unfold hashRegularFile at h
  simp only [Raising.bind_eq_ok, rejectIf_eq_ok, orRaise_eq_ok, pure_eq_ok, callOr_eq_ok] at h
  obtain ⟨session, t, -, opened, _, -, _, _, -, _, _, -, content, u, hread, rest⟩ := h
  obtain ⟨after, _, -, _, _, -, heq, -⟩ := rest
  have hcontent : readCapped session.chunks [] = .ok content := by
    cases hr : readCapped session.chunks [] with
    | ok c =>
      rw [hr] at hread
      rw [(pure_eq_ok.1 hread).1]
    | error r =>
      rw [hr] at hread
      cases hread
  rw [(Prod.mk.inj heq).2]
  exact readCapped_length (Nat.zero_le _) hcontent

/-! ## One copy -/

variable {calls : Calls σ} {sha1 : Bytes → String} {destination : Path} {d : Disk} {dir : OwnDir}
  {name : String}

/-- The two directories are these. -/
def OnDisk (d : Disk) (s : Sys σ) : Prop := s.disk = d

theorem keptBy_os (calls : Calls σ) (destination : Path) (d : Disk) : KeptBy (os calls destination) (OnDisk d) where
  lstat _ _ hs := hs
  openRead _ _ hs := hs
  scandir path s hs := by
    simp only [os]
    rcases hl : ask ((calls.look s.disk).scandir path) s with ⟨l | l, t⟩
    · have ht : s.disk = t.disk := congrArg (fun r => r.2.disk) hl
      exact ht.symm.trans hs
    · have ht : s.disk = t.disk := congrArg (fun r => r.2.disk) hl
      dsimp only
      split
      · exact ht.symm.trans hs
      · exact ht.symm.trans hs

theorem keeps_callRaise {I : σ → Prop} {f : σ → Except OSError α × σ} (hf : ∀ s, I s → I (f s).2) :
    Keeps I (callRaise f) := by
  intro s hs
  have hend := hf s hs
  unfold callRaise
  generalize f s = r at hend ⊢
  rcases r with ⟨_ | _, s'⟩
  · exact hend
  · exact hend

theorem callRaise_eq_ok {f : σ → Except OSError α × σ} {s s' : σ} {a : α} :
    callRaise f s = .ok a s' ↔ f s = (.ok a, s') := by
  unfold callRaise
  rcases f s with ⟨_ | _, t⟩
  · simp
  · simp

/-- A call that changes a directory, and has changed it where it works. -/
theorem changing_disk (dir : OwnDir) (f : σ → Except OSError Unit × σ)
    (change : Dict String Entry → Dict String Entry) (s : Sys σ) :
    (∃ t, changing f dir change s = (.ok (), t) ∧ t.disk = s.disk.update dir change) ∨
      ∃ e t, changing f dir change s = (.error e, t) ∧ t.disk = s.disk := by
  unfold changing ask
  rcases f s.env with ⟨_ | _, t⟩
  · exact .inr ⟨_, _, rfl, rfl⟩
  · exact .inl ⟨_, rfl, rfl⟩

/-- The directories with a file of this content added. -/
def Filled (d : Disk) (dir : OwnDir) (name : String) (mode : Nat) (content : Bytes) (s : Sys σ) :
    Prop := s.disk = d.add dir name (.file content mode)

/-- The directories with a file added, of whatever content. -/
def Holding (d : Disk) (dir : OwnDir) (name : String) (s : Sys σ) : Prop :=
  ∃ mode content, Filled d dir name mode content s

/-- The target opens where there is no file of its name. -/
theorem openTarget_disk (calls : Calls σ) (dir : OwnDir) (name : String) (s : Sys σ) :
    (∃ t, openTarget calls dir name s = (.ok (), t) ∧ Fresh s.disk dir name ∧
      Filled s.disk dir name 0o600 [] t) ∨
      ∃ e t, openTarget calls dir name s = (.error e, t) ∧ t.disk = s.disk := by
  unfold openTarget
  cases hfiles : s.disk.files dir with
  | none => exact .inr ⟨_, _, rfl, rfl⟩
  | some files =>
    cases hhas : files.has name with
    | true => exact .inr ⟨.osError, s, by simp [hhas], rfl⟩
    | false =>
      have hfresh : Fresh s.disk dir name := fun files' hf => by
        rw [hfiles] at hf
        cases hf
        exact hhas
      rcases changing_disk dir (calls.create dir name) (· ++ [(name, .file [] 0o600)]) s
        with ⟨t, ht, hdisk⟩ | ⟨e, t, ht, hdisk⟩
      · exact .inl ⟨t, by simp [hhas, ht], hfresh, hdisk⟩
      · exact .inr ⟨e, t, by simp [hhas, ht], hdisk⟩

theorem writeTarget_disk (calls : Calls σ) (view : Bytes) (hfresh : Fresh d dir name) {mode : Nat}
    {content : Bytes} {s : Sys σ}
    (hs : Filled d dir name mode content s) :
    (∃ n t, writeTarget calls dir name view s = (.ok n, t) ∧
      Filled d dir name mode (content ++ view.take n) t) ∨
      ∃ e t, writeTarget calls dir name view s = (.error e, t) ∧ Filled d dir name mode content t := by
  unfold writeTarget ask
  rcases calls.write dir name view.length s.env with ⟨_ | n, t⟩
  · exact .inr ⟨_, _, rfl, hs⟩
  · refine .inl ⟨_, _, rfl, ?_⟩
    show s.disk.update dir (alter name (.append (view.take n))) = _
    rw [hs, Disk.alter_add hfresh]
    have htake : view.take (min n view.length) = view.take n := by
      rw [← List.take_take, List.take_length]
    rw [htake]
    rfl

theorem keeps_writeView (hfresh : Fresh d dir name) (view : Bytes) :
    Keeps (Holding d dir name) (writeView calls dir name view) := by
  unfold writeView
  by_cases hview : view = []
  · rw [dif_pos hview]
    exact Keeps.pure _
  · rw [dif_neg hview]
    refine Keeps.bind (keeps_callRaise fun s hs => ?_) fun written => ?_
    · obtain ⟨mode, content, hs⟩ := hs
      rcases writeTarget_disk calls view hfresh hs with
        ⟨n, t, ht, hfilled⟩ | ⟨e, t, ht, hfilled⟩
      · rw [ht]
        exact ⟨mode, _, hfilled⟩
      · rw [ht]
        exact ⟨mode, _, hfilled⟩
    · by_cases hwritten : written = 0
      · rw [dif_pos hwritten]
        exact Keeps.throw _
      · rw [dif_neg hwritten]
        exact keeps_writeView hfresh (view.drop written)
termination_by view.length
decreasing_by
  have := List.length_pos_iff.2 hview
  simp only [List.length_drop]
  omega

/-- `writeView` returns once all of the view is written. -/
theorem returns_writeView (hfresh : Fresh d dir name) {mode : Nat} (content view : Bytes) :
    Returns (Filled d dir name mode content) (writeView calls dir name view)
      fun _ => Filled d dir name mode (content ++ view) := by
  unfold writeView
  by_cases hview : view = []
  · rw [dif_pos hview]
    refine Returns.pure fun s hs => ?_
    rw [hview, List.append_nil]
    exact hs
  · rw [dif_neg hview]
    have hwrite : Returns (Filled d dir name mode content)
        (callRaise (writeTarget calls dir name view)) fun n =>
          Filled d dir name mode (content ++ view.take n) := by
      intro s hs n t hr
      rcases writeTarget_disk calls view hfresh hs with
        ⟨m, u, hu, hfilled⟩ | ⟨e, u, hu, -⟩
      · rw [callRaise_eq_ok, hu] at hr
        cases hr
        exact hfilled
      · rw [callRaise_eq_ok, hu] at hr
        cases hr
    refine Returns.bind hwrite fun written => ?_
    by_cases hwritten : written = 0
    · rw [dif_pos hwritten]
      exact Returns.throw _ _
    · rw [dif_neg hwritten]
      refine (returns_writeView hfresh (content ++ view.take written) (view.drop written)).mono
        fun _ s hs => ?_
      rw [List.append_assoc, List.take_append_drop] at hs
      exact hs
termination_by view.length
decreasing_by
  have := List.length_pos_iff.2 hview
  simp only [List.length_drop]
  omega

theorem keeps_copyChunks (hfresh : Fresh d dir name) (chunks : List (Except OSError Bytes))
    (copied : Bytes) : Keeps (Holding d dir name) (copyChunks calls dir name chunks copied) := by
  induction chunks generalizing copied with
  | nil => exact Keeps.pure _
  | cons chunk rest ih =>
    rcases chunk with e | _ | ⟨b, chunk⟩
    · exact Keeps.throw _
    · exact Keeps.pure _
    · exact Keeps.bind (keeps_writeView hfresh _) fun _ => ih _

/-- What has been copied is what the target holds. -/
theorem returns_copyChunks (hfresh : Fresh d dir name) {mode : Nat}
    (chunks : List (Except OSError Bytes)) (copied : Bytes) :
    Returns (Filled d dir name mode copied) (copyChunks calls dir name chunks copied)
      fun content => Filled d dir name mode content := by
  induction chunks generalizing copied with
  | nil => exact Returns.pure fun _ hs => hs
  | cons chunk rest ih =>
    rcases chunk with e | _ | ⟨b, chunk⟩
    · exact Returns.throw _ _
    · exact Returns.pure fun _ hs => hs
    · exact Returns.bind (returns_writeView hfresh _ _) fun _ => ih _

/-- A call that asks the environment and changes no directory. -/
theorem keeps_ask {I : Sys σ → Prop} (hI : ∀ s t : Sys σ, t.disk = s.disk → I s → I t)
    (f : σ → Except OSError α × σ) : Keeps I (callRaise (ask f)) :=
  keeps_callRaise fun s hs => hI s _ rfl hs

theorem holding_congr {s t : Sys σ} (h : t.disk = s.disk) (hs : Holding d dir name s) :
    Holding d dir name t := by
  obtain ⟨mode, content, hfilled⟩ := hs
  exact ⟨mode, content, h.trans hfilled⟩

/-- The changed mode of the file added. -/
theorem chmodTarget_disk (calls : Calls σ) (hfresh : Fresh d dir name) {mode : Nat}
    {content : Bytes} {s : Sys σ}
    (hs : Filled d dir name mode content s) :
    (∃ t, chmodTarget calls dir name s = (.ok (), t) ∧ Filled d dir name 0o644 content t) ∨
      ∃ e t, chmodTarget calls dir name s = (.error e, t) ∧ Filled d dir name mode content t := by
  rcases changing_disk dir (calls.chmod dir name) (alter name (.setMode 0o644)) s with
    ⟨t, ht, hdisk⟩ | ⟨e, t, ht, hdisk⟩
  · refine .inl ⟨t, ht, ?_⟩
    rw [hs, Disk.alter_add hfresh] at hdisk
    exact hdisk
  · exact .inr ⟨e, t, ht, hdisk.trans hs⟩

/-- Once its target is open, a copy leaves a file there, however it ends. -/
theorem keeps_copyFill {unit : MUnit} (hfresh : Fresh d dir unit.name) :
    Keeps (Holding d dir unit.name) (copyFill calls sha1 destination unit dir) := by
  have hcongr : ∀ s t : Sys σ, t.disk = s.disk → Holding d dir unit.name s →
      Holding d dir unit.name t := fun _ _ h hs => holding_congr h hs
  refine Keeps.bind (Keeps.finallyDo (Keeps.bind ?_ fun session => ?_) (keeps_ask hcongr _))
    fun _ => keeps_callOr fun s hs => ?_
  · exact keeps_callRaise fun s hs => hcongr s _ rfl hs
  · refine Keeps.finallyDo ?_ (keeps_ask hcongr _)
    refine Keeps.bind (keeps_copyChunks hfresh _ _) fun copied => ?_
    exact Keeps.bind keeps_rejectIf fun _ => keeps_ask hcongr _
  · obtain ⟨mode, content, hs⟩ := hs
    rcases chmodTarget_disk calls hfresh hs with ⟨t, ht, hfilled⟩ | ⟨e, t, ht, hfilled⟩
    · rw [ht]
      exact ⟨_, _, hfilled⟩
    · rw [ht]
      exact ⟨_, _, hfilled⟩

/-- The directories with a file of the unit's name and size added. -/
def CopiedUnit (sha1 : Bytes → String) (d : Disk) (dir : OwnDir) (unit : MUnit) (mode : Nat) (s : Sys σ) :
    Prop :=
  ∃ content, sha1 content = unit.name ∧ content.length = unit.size ∧
    Filled d dir unit.name mode content s

theorem copied_congr {unit : MUnit} {mode : Nat} {s t : Sys σ} (h : t.disk = s.disk)
    (hs : CopiedUnit sha1 d dir unit mode s) : CopiedUnit sha1 d dir unit mode t := by
  obtain ⟨content, hname, hsize, hfilled⟩ := hs
  exact ⟨content, hname, hsize, h.trans hfilled⟩

/-- A copy that returns has left the unit. -/
theorem returns_copyFill {unit : MUnit} (hfresh : Fresh d dir unit.name) :
    Returns (Filled d dir unit.name 0o600 []) (copyFill calls sha1 destination unit dir)
      fun _ => CopiedUnit sha1 d dir unit 0o644 := by
  have hcongr : ∀ s t : Sys σ, t.disk = s.disk → CopiedUnit sha1 d dir unit 0o600 s →
      CopiedUnit sha1 d dir unit 0o600 t := fun _ _ h hs => copied_congr h hs
  have hread : Keeps (Filled d dir unit.name 0o600 [])
      (callRaise ((os calls destination).openRead unit.source)) :=
    keeps_callRaise fun s hs => hs
  refine Returns.bind (M := fun _ => CopiedUnit sha1 d dir unit 0o600) ?_ fun _ => ?_
  · refine Returns.finallyDo (Returns.bind hread.returns fun session => ?_) fun _ => keeps_ask hcongr _
    refine Returns.finallyDo ?_ fun _ => keeps_ask hcongr _
    refine Returns.bind (returns_copyChunks hfresh session.chunks []) fun copied => ?_
    have hchecked : Returns (Filled (σ := σ) d dir unit.name 0o600 copied)
        (rejectIf (copied.length ≠ unit.size ∨ sha1 copied ≠ unit.name) .sourceChanged)
        fun _ => CopiedUnit sha1 d dir unit 0o600 := by
      intro s hs u t hr
      obtain ⟨hsound, rfl⟩ := rejectIf_eq_ok.1 hr
      simp only [ne_eq, not_or, not_not] at hsound
      exact ⟨copied, hsound.2, hsound.1, hs⟩
    exact Returns.bind hchecked fun _ => (keeps_ask hcongr _).returns
  · intro s hs u t hr
    obtain ⟨content, hname, hsize, hfilled⟩ := hs
    rw [callOr_eq_ok] at hr
    rcases chmodTarget_disk calls hfresh hfilled with ⟨v, hv, hend⟩ | ⟨e, v, hv, -⟩
    · rw [hv] at hr
      cases hr
      exact ⟨content, hname, hsize, hend⟩
    · rw [hv] at hr
      cases hr

theorem openTarget_error {code : FailCode} :
    Raises (OnDisk d) (callOr code (openTarget calls dir name)) (OnDisk d) := by
  intro s hs r t hr
  rcases openTarget_disk calls dir name s with
    ⟨u, hu, -, -⟩ | ⟨e, u, hu, hdisk⟩
  · rw [callOr, hu] at hr
    cases hr
  · rw [callOr, hu] at hr
    cases hr
    exact hdisk.trans hs

/-- A copy that stops before its target is open leaves the directories as they were. -/
theorem copyStart_error (unit : MUnit) :
    Raises (OnDisk d) (copyStart calls sha1 destination unit dir) (OnDisk d) := by
  have hkept := keptBy_os calls destination d
  refine Raises.keeps_bind (keeps_callOr (hkept.lstat _)) fun metadata => ?_
  refine Raises.keeps_bind keeps_rejectIf fun _ => ?_
  refine Raises.keeps_bind (keeps_hashRegularFile hkept _ _ _) fun r => ?_
  exact Raises.keeps_bind keeps_rejectIf fun _ => openTarget_error

/-- Once a copy's target is open there was no such file, and the unit is small enough. -/
theorem copyStart_ok (unit : MUnit) :
    Returns (OnDisk d) (copyStart calls sha1 destination unit dir) fun _ s =>
      unit.size ≤ maxUnitBytes ∧ Fresh d dir unit.name ∧ Filled d dir unit.name 0o600 [] s := by
  have hkept := keptBy_os calls destination d
  refine Returns.bind (keeps_callOr (hkept.lstat _)).returns fun metadata => ?_
  refine Returns.bind keeps_rejectIf.returns fun _ => ?_
  have hhash : Returns (OnDisk d)
      (hashRegularFile (os calls destination) sha1 unit.source metadata) fun r s =>
        OnDisk d s ∧ r.2 ≤ maxUnitBytes := fun s hs r t hr =>
    ⟨(keeps_hashRegularFile hkept _ _ _).ok hs hr, hashRegularFile_size hr⟩
  refine Returns.bind hhash fun r => ?_
  intro s hs u t hr
  obtain ⟨_, s1, hchecked, hopen⟩ := bind_eq_ok.1 hr
  obtain ⟨hsame, rfl⟩ := rejectIf_eq_ok.1 hchecked
  simp only [ne_eq, not_or, not_not] at hsame
  rw [callOr_eq_ok] at hopen
  obtain rfl : s1.disk = d := hs.1
  rcases openTarget_disk calls dir unit.name s1 with
    ⟨v, hv, hfresh, hfilled⟩ | ⟨e, v, hv, -⟩
  · rw [hv] at hopen
    cases hopen
    exact ⟨hsame.2 ▸ hs.2, hfresh, hfilled⟩
  · rw [hv] at hopen
    cases hopen

/-- A copy that returns has added a file that is what its name says. -/
theorem copyVerified_ok (unit : MUnit) :
    Returns (OnDisk d) (copyVerified calls sha1 destination unit dir) fun _ s =>
      Fresh d dir unit.name ∧ unit.size ≤ maxUnitBytes ∧ CopiedUnit sha1 d dir unit 0o644 s := by
  refine Returns.bind (copyStart_ok unit) fun _ => ?_
  intro s hs u t hr
  exact ⟨hs.2.1, hs.1, returns_copyFill hs.2.1 s hs.2.2 u t hr⟩

end

end MpcHunt.MaterializeWindow
