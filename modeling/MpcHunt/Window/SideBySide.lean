/-
Two runs of `materialize` over one unchanging file system that list its
directories in orders of their own, with the private sources in any order:
both raise, or both select, copy and return the same. The calls that write
may fail as they like, in the one run as in the other.
-/
import MpcHunt.Window.Corpus
import MpcHunt.Window.OrderFree

namespace MpcHunt.MaterializeWindow

open Raising

variable {σ τ α : Type}

/-! ## The file system with the run's own directories -/

def Entry.node : Entry → Node
  | .file content _ => .file ⟨0, 0, content⟩
  | .other => .other

/-- The world with a flat directory in it. -/
def World.overlay (w : World) (dir : Path) (files : Dict String Entry) : World := fun path =>
  if path = dir then some (.directory files.keys)
  else if path ≠ [] ∧ path.dropLast = dir then (files.get? (path.getLastD "")).map Entry.node
  else w path

/-- What a run sees: the world, with what the run itself has put into the destination, if that is a
directory, and into the staging directory. -/
def seen (w : World) (destination : Path) (d : Disk) : World :=
  let w' := match w destination with
    | some (.directory _) => w.overlay destination d.destination
    | _ => w
  match d.staging with
  | some (dir, files) => w'.overlay dir files
  | none => w'

section
variable {w : World} {dir destination d : Path} {files : Dict String Entry} {name : String}

theorem World.overlay_self : w.overlay dir files dir = some (.directory files.keys) := if_pos rfl

theorem World.overlay_child : w.overlay dir files (dir ++ [name]) = (files.get? name).map Entry.node := by
  have hne : dir ++ [name] ≠ dir := by simp
  unfold World.overlay
  rw [if_neg hne, if_pos ⟨by simp, List.dropLast_concat⟩]
  simp

theorem World.overlay_elsewhere (hdir : d ++ [name] ≠ dir) (hparent : d ≠ dir) :
    w.overlay dir files (d ++ [name]) = w (d ++ [name]) := by
  unfold World.overlay
  rw [if_neg hdir, if_neg]
  rw [List.dropLast_concat]
  exact fun h => hparent h.2

/-- An empty directory hides nothing but itself. -/
theorem World.of_overlay_nil {path : Path} {node : Node} (hne : path ≠ dir)
    (h : w.overlay dir [] path = some node) : w path = some node := by
  unfold World.overlay at h
  rw [if_neg hne] at h
  split at h
  · cases h
  · exact h

theorem seen_of_directory (hdir : w.IsDirectory destination) (entries : Dict String Entry) :
    seen w destination ⟨entries, none⟩ = w.overlay destination entries := by
  obtain ⟨names, hnames⟩ := hdir
  unfold seen
  rw [hnames]

theorem seen_of_staging (hdir : w.IsDirectory destination) (entries : Dict String Entry) :
    seen w destination ⟨entries, some (dir, files)⟩ = (w.overlay destination entries).overlay dir files := by
  obtain ⟨names, hnames⟩ := hdir
  unfold seen
  rw [hnames]

theorem isDirectory_of_seen (h : (seen w destination ⟨[], none⟩).IsDirectory destination) :
    w.IsDirectory destination := by
  by_contra hno
  have hworld : seen w destination ⟨[], none⟩ = w := by
    unfold seen
    split
    · next names hnames => exact absurd ⟨names, hnames⟩ hno
    · rfl
  rw [hworld] at h
  exact hno h

/-- What a selection found is there for the run that copies it. -/
theorem seen_source {m : MUnit} {f : SourceFile}
    (hdir : w.IsDirectory destination) (hfresh : w dir = none)
    (h : LiesIn (seen w destination ⟨[], none⟩) m d f) (entries files : Dict String Entry) :
    seen w destination ⟨entries, some (dir, files)⟩ m.source = some (.file f) := by
  have hfile := h.file
  have hparent := h.directory
  rw [h.source] at hfile ⊢
  rw [seen_of_directory hdir] at hfile hparent
  obtain ⟨names, hparent⟩ := hparent
  have hne : d ≠ destination := by
    rintro rfl
    rw [World.overlay_child] at hfile
    cases hfile
  have hself : d ++ [m.name] ≠ destination := by
    intro he
    rw [he, World.overlay_self] at hfile
    cases hfile
  have hd := World.of_overlay_nil hne hparent
  have hsource := World.of_overlay_nil hself hfile
  have hstaging : d ≠ dir := by
    rintro rfl
    rw [hfresh] at hd
    cases hd
  have hstaging' : d ++ [m.name] ≠ dir := by
    intro he
    rw [he, hfresh] at hsource
    cases hsource
  rw [seen_of_staging hdir, World.overlay_elsewhere hstaging' hstaging,
    World.overlay_elsewhere hself hne]
  exact hsource

/-- A copy in the staging directory is there for the run that copies it again. -/
theorem seen_staged (hdir : w.IsDirectory destination) (entries : Dict String Entry) :
    seen w destination ⟨entries, some (dir, files)⟩ (dir ++ [name]) =
      (files.get? name).map Entry.node := by
  rw [seen_of_staging hdir, World.overlay_child]

/-- The destination is there as long as it is empty. -/
theorem seen_destination (hdir : w.IsDirectory destination) (hfresh : w dir = none)
    (files : Dict String Entry) (hstaging : destination.dropLast ≠ dir) :
    (seen w destination ⟨[], some (dir, files)⟩).IsDirectory destination ∧
      (seen w destination ⟨[], some (dir, files)⟩).entries destination = [] := by
  have hne : destination ≠ dir := by
    rintro rfl
    obtain ⟨names, hnames⟩ := hdir
    rw [hfresh] at hnames
    cases hnames
  have hat : seen w destination ⟨[], some (dir, files)⟩ destination = some (.directory []) := by
    rw [seen_of_staging hdir, World.overlay, if_neg hne, if_neg (fun h => hstaging h.2),
      World.overlay_self]
    rfl
  refine ⟨⟨[], hat⟩, ?_⟩
  unfold World.entries
  rw [hat]
  rfl

end

/-! ## Two environments -/

/-- Two calls that answer alike, and leave related states related. -/
def SameAnswer (R : σ → τ → Prop) (f : σ → Except OSError α × σ) (g : τ → Except OSError α × τ) :
    Prop :=
  ∀ s t, R s t → (f s).1 = (g t).1 ∧ R (f s).2 (g t).2

/-- An environment that shows the world, in orders and chunks of its own, and writes what it is
given; none of that breaks `J`. -/
structure Reading (w : World) (destination : Path) (calls : Calls σ) (J : σ → Prop) : Prop where
  look : ∀ d, Shows (seen w destination d) (calls.look d) J
  write : ∀ dir name n s, J s →
    ∃ k s', calls.write dir name n s = (.ok k, s') ∧ (0 < n → 0 < k) ∧ J s'
  closeSource : ∀ path s, J s → ∃ s', calls.closeSource path s = (.ok (), s') ∧ J s'

/-- Two environments that differ in nothing else. What they share they keep through any reading of
the one or the other; all other calls may fail, on both sides, and `mkdtemp` makes a directory that
is not there yet. -/
structure Paired (w : World) (destination : Path) (R : σ → τ → Prop) (calls : Calls σ)
    (calls' : Calls τ) : Prop where
  left : ∀ t, Reading w destination calls (R · t)
  right : ∀ s, Reading w destination calls' (R s ·)
  mkdtemp : SameAnswer R calls.mkdtemp calls'.mkdtemp
  fresh : ∀ s suffix s', calls.mkdtemp s = (.ok suffix, s') →
    w (destination.dropLast ++ [".corpus-shard-" ++ suffix]) = none
  create : ∀ dir name, SameAnswer R (calls.create dir name) (calls'.create dir name)
  fsync : ∀ dir name, SameAnswer R (calls.fsync dir name) (calls'.fsync dir name)
  close : ∀ dir name, SameAnswer R (calls.close dir name) (calls'.close dir name)
  chmod : ∀ dir name, SameAnswer R (calls.chmod dir name) (calls'.chmod dir name)
  link : ∀ name, SameAnswer R (calls.link name) (calls'.link name)

/-- The directories are these, and the environment is in a state with `J`. -/
def At (d : Disk) (J : σ → Prop) (s : Sys σ) : Prop := OnDisk d s ∧ J s.env

section
variable {w : World} {destination : Path} {calls : Calls σ} {J : σ → Prop} {d : Disk} {dir : OwnDir}
  {name : String} {sha1 : Bytes → String}

theorem showsFiles_os (h : Reading w destination calls J) (d : Disk) :
    ShowsFiles (seen w destination d) (os calls destination) (At d J) where
  lstat path s hs := by
    obtain ⟨hdisk, hJ⟩ := hs
    have hlook := (h.look d).lstat path s.env hJ
    rw [← hdisk] at hlook ⊢
    exact ⟨hlook.1, rfl, hlook.2⟩
  openRead path f s hf hs := by
    obtain ⟨hdisk, hJ⟩ := hs
    have hlook := (h.look d).openRead path f s.env hf hJ
    rw [← hdisk] at hlook ⊢
    exact ⟨hlook.1, rfl, hlook.2⟩

/-- An empty destination is listed as the environment has it. -/
theorem shows_os (h : Reading w destination calls J) (hempty : d.destination = [])
    (hentries : (seen w destination d).entries destination = []) :
    Shows (seen w destination d) (os calls destination) (At d J) where
  toShowsFiles := showsFiles_os h d
  scandir path s hdir hs := by
    obtain ⟨hdisk, hJ⟩ := hs
    obtain ⟨⟨es, hes, hval⟩, hend⟩ := (h.look d).scandir path s.env hdir hJ
    rw [← hdisk] at hval hend
    have hask : ask ((calls.look s.disk).scandir path) s =
        (.ok ⟨es.map entryOf, false⟩, { s with env := ((calls.look s.disk).scandir path s.env).2 }) :=
      Prod.ext hval rfl
    simp only [os, hask]
    by_cases hpath : path = destination
    · rw [if_pos hpath]
      rw [hpath] at hend ⊢
      rw [hentries]
      refine ⟨⟨[], .nil, ?_⟩, hdisk, hend⟩
      have hnone : s.disk.destination = [] := hdisk ▸ hempty
      rw [hnone]
      rfl
    · rw [if_neg hpath]
      exact ⟨⟨es, hes, rfl⟩, hdisk, hend⟩

/-! ## One copy by itself -/

theorem decides_callRaise {I : σ → Prop} {f : σ → Except OSError α × σ} {Q : α → σ → Prop}
    (h : ∀ s, I s → ∃ a s', f s = (.ok a, s') ∧ Q a s') : Decides I (callRaise f) True Q := by
  intro s hs
  obtain ⟨a, s', hf, hend⟩ := h s hs
  exact .inl ⟨trivial, a, s', callRaise_eq_ok.2 hf, hend⟩

/-- All of a view gets written. -/
theorem decides_writeView (h : Reading w destination calls J) (hfresh : Fresh d dir name) (mode : Nat)
    (content view : Bytes) :
    Decides (At (d.add dir name (.file content mode)) J) (writeView calls dir name view) True
      fun _ => At (d.add dir name (.file (content ++ view) mode)) J := by
  unfold writeView
  by_cases hview : view = []
  · rw [dif_pos hview, hview, List.append_nil]
    exact Decides.pure trivial fun _ hs => hs
  · rw [dif_neg hview]
    have hwrite : Decides (At (d.add dir name (.file content mode)) J)
        (callRaise (writeTarget calls dir name view)) True fun n s =>
          At (d.add dir name (.file (content ++ view.take n) mode)) J s ∧ n ≠ 0 := by
      refine decides_callRaise fun s hs => ?_
      obtain ⟨hdisk, hJ⟩ := hs
      obtain ⟨k, s', hk, hpos, hJ'⟩ := h.write dir name view.length s.env hJ
      have hask : ask (calls.write dir name view.length) s = (.ok k, { s with env := s' }) := by
        unfold ask
        rw [hk]
      rcases writeTarget_disk calls view hfresh hdisk with ⟨n, t, ht, hfilled⟩ | ⟨e, t, ht, -⟩
      · have hrun := ht
        unfold writeTarget at hrun
        rw [hask] at hrun
        obtain ⟨hn, hend⟩ := Prod.mk.inj hrun
        have hlength := List.length_pos_of_ne_nil hview
        refine ⟨n, t, ht, ⟨hfilled, ?_⟩, ?_⟩
        · rw [← hend]
          exact hJ'
        · have hmin : min k view.length = n := Except.ok.inj hn
          have hk' := hpos hlength
          omega
      · unfold writeTarget at ht
        rw [hask] at ht
        cases ht
    refine (Decides.bind (D := True) hwrite fun _ written => Decides.of_fact fun hwritten => ?_).mono
      and_self_iff fun _ _ _ hs => hs
    rw [dif_neg hwritten]
    have hrest := decides_writeView h hfresh mode (content ++ view.take written)
      (view.drop written)
    rw [List.append_assoc, List.take_append_drop] at hrest
    exact hrest
termination_by view.length
decreasing_by
  have := List.length_pos_iff.2 hview
  simp only [List.length_drop]
  omega

theorem decides_copyChunks (h : Reading w destination calls J) (hfresh : Fresh d dir name) {mode : Nat}
    {chunks : List Bytes} (hne : [] ∉ chunks) (copied : Bytes) :
    Decides (At (d.add dir name (.file copied mode)) J)
      (copyChunks calls dir name (chunks.map .ok) copied) True fun c s =>
        At (d.add dir name (.file (copied ++ chunks.flatten) mode)) J s ∧ c = copied ++ chunks.flatten := by
  induction chunks generalizing copied with
  | nil =>
    rw [List.flatten_nil, List.append_nil]
    exact Decides.pure trivial fun s hs => ⟨hs, rfl⟩
  | cons chunk rest ih =>
    cases chunk with
    | nil => exact absurd List.mem_cons_self hne
    | cons b chunk =>
      rw [List.flatten_cons, ← List.append_assoc]
      have hrest := ih (fun hmem => hne (List.mem_cons_of_mem _ hmem)) (copied ++ b :: chunk)
      exact (Decides.bind (decides_writeView h hfresh mode copied (b :: chunk)) fun _ _ => hrest).mono
        and_self_iff fun _ _ _ hs => hs

/-- A file that is what the unit's name says. -/
structure Readable (w : World) (sha1 : Bytes → String) (m : MUnit) (f : SourceFile) : Prop where
  file : w m.source = some (.file f)
  size : f.content.length = m.size
  small : f.content.length ≤ maxUnitBytes
  digest : sha1 f.content = m.name

end

/-! ## One copy on both sides -/

/-- The directories on both sides, and what the environments share. -/
def Both (R : σ → τ → Prop) (d d' : Disk) (s : Sys σ) (t : Sys τ) : Prop :=
  OnDisk d s ∧ OnDisk d' t ∧ R s.env t.env

section
variable {β : Type} {R : σ → τ → Prop} {d d' e e' : Disk}

/-- What each side does by itself, and what it learns. -/
theorem together_facts {x : Py (Sys σ) α} {y : Py (Sys τ) β} {C C' : Prop} {Φ : α → Prop} {Ψ : β → Prop}
    (hx : ∀ t, Decides (At d (R · t)) x C fun a s => At e (R · t) s ∧ Φ a)
    (hy : ∀ s, Decides (At d' (R s ·)) y C' fun b t => At e' (R s ·) t ∧ Ψ b) (hC : C ↔ C') :
    Together (Both R d d') x y fun a b s t => Both R e e' s t ∧ Φ a ∧ Ψ b := by
  have hleft : ∀ t : Sys τ, Decides (fun s : Sys σ => OnDisk d s ∧ R s.env t.env) x C
      fun a s => (OnDisk e s ∧ Φ a) ∧ R s.env t.env := fun t =>
    (hx t.env).mono Iff.rfl fun _ a s hend => ⟨⟨hend.1.1, hend.2⟩, hend.1.2⟩
  have hright : ∀ s : Sys σ, Decides (fun t : Sys τ => OnDisk d' t ∧ R s.env t.env) y C'
      fun b t => (OnDisk e' t ∧ Ψ b) ∧ R s.env t.env := fun s =>
    (hy s.env).mono Iff.rfl fun _ b t hend => ⟨⟨hend.1.1, hend.2⟩, hend.1.2⟩
  refine (Together.of_decides hleft hright hC).mono (fun _ _ hst => hst) fun a b s t hend => ?_
  obtain ⟨⟨hs, ha⟩, ⟨ht, hb⟩, hR⟩ := hend
  exact ⟨⟨hs, ht, hR⟩, ha, hb⟩

theorem together_each {x : Py (Sys σ) α} {y : Py (Sys τ) β} {C C' : Prop}
    (hx : ∀ t, Decides (At d (R · t)) x C fun _ => At e (R · t))
    (hy : ∀ s, Decides (At d' (R s ·)) y C' fun _ => At e' (R s ·)) (hC : C ↔ C') :
    Together (Both R d d') x y fun _ _ => Both R e e' := by
  have hfacts : Together (Both R d d') x y fun _ _ s t => Both R e e' s t ∧ True ∧ True :=
    together_facts (fun t => (hx t).mono Iff.rfl fun _ _ _ h => ⟨h, trivial⟩)
      (fun s => (hy s).mono Iff.rfl fun _ _ _ h => ⟨h, trivial⟩) hC
  exact hfacts.mono (fun _ _ h => h) fun _ _ _ _ h => h.1

theorem together_rejectIf {P : Sys σ → Sys τ → Prop} {bad bad' : Prop} [Decidable bad] [Decidable bad']
    {code : FailCode} (h : ¬ bad) (h' : ¬ bad') :
    Together P (rejectIf bad code) (rejectIf bad' code) fun _ _ => P :=
  fun s t hst => .inl ⟨(), s, (), t, rejectIf_ok h s, rejectIf_ok h' t, hst⟩

/-- A question both environments answer alike. -/
theorem together_ask {f : σ → Except OSError α × σ} {g : τ → Except OSError α × τ}
    (h : SameAnswer R f g) :
    Together (Both R d d') (callRaise (ask f)) (callRaise (ask g)) fun _ _ => Both R d d' := by
  rintro s t ⟨hs, ht, hR⟩
  obtain ⟨hval, hend⟩ := h s.env t.env hR
  unfold callRaise ask
  generalize f s.env = r at hval hend ⊢
  generalize g t.env = r' at hval hend ⊢
  obtain ⟨x, s'⟩ := r
  obtain ⟨y, t'⟩ := r'
  obtain rfl : x = y := hval
  cases x with
  | ok a => exact .inl ⟨a, _, a, _, rfl, rfl, hs, ht, hend⟩
  | error e => exact .inr ⟨_, _, _, _, rfl, rfl⟩

/-- A change both environments make, or neither. -/
theorem changing_both {f : σ → Except OSError Unit × σ} {g : τ → Except OSError Unit × τ}
    (h : SameAnswer R f g) (dir : OwnDir) (change change' : Dict String Entry → Dict String Entry)
    {s : Sys σ} {t : Sys τ} (hst : Both R d d' s t) :
    (∃ s' t', changing f dir change s = (.ok (), s') ∧ changing g dir change' t = (.ok (), t') ∧
        Both R (d.update dir change) (d'.update dir change') s' t') ∨
      ∃ e s' e' t', changing f dir change s = (.error e, s') ∧ changing g dir change' t = (.error e', t') ∧
        Both R d d' s' t' := by
  obtain ⟨hs, ht, hR⟩ := hst
  obtain ⟨hval, hend⟩ := h s.env t.env hR
  unfold changing ask
  generalize f s.env = r at hval hend ⊢
  generalize g t.env = r' at hval hend ⊢
  obtain ⟨x, s'⟩ := r
  obtain ⟨y, t'⟩ := r'
  obtain rfl : x = y := hval
  cases x with
  | ok a =>
    have hs' : s.disk.update dir change = d.update dir change := by rw [hs]
    have ht' : t.disk.update dir change' = d'.update dir change' := by rw [ht]
    exact .inl ⟨_, _, rfl, rfl, hs', ht', hend⟩
  | error e => exact .inr ⟨e, _, e, _, rfl, rfl, hs, ht, hend⟩

/-- The names in a directory. -/
def Disk.names (d : Disk) (dir : OwnDir) : Option (List String) := (d.files dir).map Dict.keys

/-- Where both have the same names, the target opens on both sides or on none. -/
theorem together_openTarget {calls : Calls σ} {calls' : Calls τ} {dir : OwnDir} {name : String}
    {code : FailCode} (h : SameAnswer R (calls.create dir name) (calls'.create dir name))
    (hnames : d.names dir = d'.names dir) :
    Together (Both R d d') (callOr code (openTarget calls dir name))
      (callOr code (openTarget calls' dir name)) fun _ _ =>
        Both R (d.add dir name (.file [] 0o600)) (d'.add dir name (.file [] 0o600)) := by
  intro s t hst
  obtain ⟨hs, ht, hR⟩ := id hst
  unfold callOr openTarget
  rw [hs, ht]
  unfold Disk.names at hnames
  cases hfiles : d.files dir with
  | none =>
    rw [hfiles, Option.map_none, eq_comm, Option.map_eq_none_iff] at hnames
    rw [hnames]
    exact .inr ⟨_, _, _, _, rfl, rfl⟩
  | some files =>
    rw [hfiles, Option.map_some, eq_comm, Option.map_eq_some_iff] at hnames
    obtain ⟨files', hfiles', hkeys⟩ := hnames
    have hhas : files'.has name = files.has name := by
      rw [Bool.eq_iff_iff, Dict.has_iff, Dict.has_iff, hkeys]
    rw [hfiles']
    dsimp only
    rw [hhas]
    cases files.has name with
    | true => exact .inr ⟨_, _, _, _, rfl, rfl⟩
    | false =>
      rcases changing_both h dir (· ++ [(name, .file [] 0o600)]) (· ++ [(name, .file [] 0o600)]) hst with
        ⟨s', t', hs', ht', hend⟩ | ⟨e, s', e', t', hs', ht', -⟩
      · exact .inl ⟨(), s', (), t', by simp [hs'], by simp [ht'], hend⟩
      · exact .inr ⟨.failClosed code, s', .failClosed code, t', by simp [hs'], by simp [ht']⟩

theorem decides_lstatFile {w : World} {os : OS σ} {I : σ → Prop} (h : ShowsFiles w os I) {path : Path}
    {f : SourceFile} (hf : w path = some (.file f)) {code : FailCode} :
    Decides I (callOr code (os.lstat path)) True fun m s => I s ∧ m = f.stat := by
  refine (decides_lstat h path).mono (iff_true_intro ⟨_, hf⟩) fun _ m s hend => ?_
  obtain ⟨hs, node, hnode, hm⟩ := hend
  rw [hf] at hnode
  cases hnode
  exact ⟨hs, hm⟩

section
variable {w : World} {destination : Path} {calls : Calls σ} {calls' : Calls τ} {sha1 : Bytes → String}
  {unit unit' : MUnit} {f f' : SourceFile} {dir : OwnDir}

/-- Both sources are what the name says; so the copies differ only in where they come from. -/
theorem together_copyStart (hp : Paired w destination R calls calls') (hname : unit'.name = unit.name)
    (hu : Readable (seen w destination d) sha1 unit f)
    (hu' : Readable (seen w destination d') sha1 unit' f') (hnames : d.names dir = d'.names dir) :
    Together (Both R d d') (copyStart calls sha1 destination unit dir)
      (copyStart calls' sha1 destination unit' dir) fun _ _ =>
        Both R (d.add dir unit.name (.file [] 0o600)) (d'.add dir unit.name (.file [] 0o600)) := by
  have hleft := fun t => showsFiles_os (hp.left t) d
  have hright := fun s => showsFiles_os (hp.right s) d'
  refine Together.bind (together_facts (fun t => decides_lstatFile (hleft t) hu.file)
    (fun s => decides_lstatFile (hright s) hu'.file) Iff.rfl) fun m m' => Together.of_fact fun hm => ?_
  rw [hm.1, hm.2]
  refine Together.bind (together_rejectIf (by simp [SourceFile.stat]) (by simp [SourceFile.stat]))
    fun _ _ => ?_
  refine Together.bind (together_facts (fun t => decides_hashRegularFile (hleft t) hu.file hu.small)
    (fun s => decides_hashRegularFile (hright s) hu'.file hu'.small) Iff.rfl) fun r r' =>
      Together.of_fact fun hr => ?_
  rw [hr.1, hr.2]
  refine Together.bind (together_rejectIf ?_ ?_) fun _ _ => ?_
  · simp [hu.digest, hu.size]
  · simp [hu'.digest, hu'.size]
  · rw [hname]
    exact together_openTarget (hp.create dir unit.name) hnames

theorem decides_openSource {J : σ → Prop} (h : Reading w destination calls J)
    (hu : Readable (seen w destination d) sha1 unit f) :
    Decides (At d J) (callRaise ((os calls destination).openRead unit.source)) True
      fun session s => At d J s ∧ f.Handed session := by
  refine decides_callRaise fun s hs => ?_
  obtain ⟨⟨session, hsession, hval⟩, hend⟩ := (showsFiles_os h d).openRead unit.source f s hu.file hs
  exact ⟨session, _, Prod.ext hval rfl, hend, hsession⟩

theorem decides_closeSource {J : σ → Prop} (h : Reading w destination calls J) (path : Path) :
    Decides (At d J) (callRaise (ask (calls.closeSource path))) True fun _ => At d J := by
  refine decides_callRaise fun s hs => ?_
  obtain ⟨s', hs', hJ⟩ := h.closeSource path s.env hs.2
  refine ⟨(), { s with env := s' }, ?_, hs.1, hJ⟩
  unfold ask
  rw [hs']

/-- A change of the mode on both sides or on none. -/
theorem together_chmod {name : String} {code : FailCode}
    (h : SameAnswer R (calls.chmod dir name) (calls'.chmod dir name)) :
    Together (Both R d d') (callOr code (chmodTarget calls dir name))
      (callOr code (chmodTarget calls' dir name)) fun _ _ s t => R s.env t.env := by
  intro s t hst
  unfold callOr chmodTarget
  rcases changing_both h dir (alter name (.setMode 0o644)) (alter name (.setMode 0o644)) hst with
    ⟨s', t', hs', ht', -, -, hR⟩ | ⟨e, s', e', t', hs', ht', -⟩
  · exact .inl ⟨(), s', (), t', by rw [hs'], by rw [ht'], hR⟩
  · exact .inr ⟨.failClosed code, s', .failClosed code, t', by rw [hs'], by rw [ht']⟩

/-- Once the targets are open both are filled, or neither is. -/
theorem together_copyFill (hp : Paired w destination R calls calls') (hname : unit'.name = unit.name)
    (hu : Readable (seen w destination (d.add dir unit.name (.file [] 0o600))) sha1 unit f)
    (hu' : Readable (seen w destination (d'.add dir unit.name (.file [] 0o600))) sha1 unit' f')
    (hfresh : Fresh d dir unit.name) (hfresh' : Fresh d' dir unit.name) :
    Together (Both R (d.add dir unit.name (.file [] 0o600)) (d'.add dir unit.name (.file [] 0o600)))
      (copyFill calls sha1 destination unit dir) (copyFill calls' sha1 destination unit' dir)
      fun _ _ s t => R s.env t.env := by
  unfold copyFill
  rw [hname]
  refine Together.bind (M := fun _ _ => Both R (d.add dir unit.name (.file f.content 0o600))
    (d'.add dir unit.name (.file f'.content 0o600))) (Together.finallyDo (Together.bind
      (together_facts (fun t => decides_openSource (hp.left t) hu)
        (fun s => decides_openSource (hp.right s) hu') Iff.rfl) fun session session' =>
          Together.of_fact fun hsessions => ?_)
      fun _ _ => together_ask (hp.close dir unit.name)) fun _ _ => together_chmod (hp.chmod dir unit.name)
  obtain ⟨⟨chunks, hne, hcontent, hsession⟩, chunks', hne', hcontent', hsession'⟩ := hsessions
  rw [hsession, hsession']
  refine Together.finallyDo (Together.bind (together_facts
    (fun t => decides_copyChunks (hp.left t) hfresh hne [])
    (fun s => decides_copyChunks (hp.right s) hfresh' hne' []) Iff.rfl) fun c c' =>
      Together.of_fact fun hc => ?_) fun _ _ => together_each
        (fun t => decides_closeSource (hp.left t) unit.source)
        (fun s => decides_closeSource (hp.right s) unit'.source) Iff.rfl
  rw [List.nil_append, List.nil_append, hcontent, hcontent'] at *
  rw [hc.1, hc.2]
  refine Together.bind (together_rejectIf ?_ ?_) fun _ _ => together_ask (hp.fsync dir unit.name)
  · simp [hu.digest, hu.size]
  · simp [hu'.digest, hu'.size, hname]

/-- A copy on both sides, or on none. -/
theorem together_copyVerified (hp : Paired w destination R calls calls') (d d' : Disk) (dir : OwnDir)
    (unit unit' : MUnit) (hname : unit'.name = unit.name)
    (hu : Readable (seen w destination d) sha1 unit f ∧
      Readable (seen w destination (d.add dir unit.name (.file [] 0o600))) sha1 unit f)
    (hu' : Readable (seen w destination d') sha1 unit' f' ∧
      Readable (seen w destination (d'.add dir unit.name (.file [] 0o600))) sha1 unit' f')
    (hnames : d.names dir = d'.names dir) :
    Together (Both R d d') (copyVerified calls sha1 destination unit dir)
      (copyVerified calls' sha1 destination unit' dir) fun _ _ s t =>
        (Fresh d dir unit.name ∧ CopiedUnit sha1 d dir unit 0o644 s) ∧
          (Fresh d' dir unit.name ∧ CopiedUnit sha1 d' dir unit' 0o644 t) ∧ R s.env t.env := by
  have hstart := (together_copyStart hp hname hu.1 hu'.1 hnames).returns
    (copyStart_ok unit) (copyStart_ok unit') fun s t hst => ⟨hst.1, hst.2.1⟩
  have hcopy : Together (Both R d d') (copyVerified calls sha1 destination unit dir)
      (copyVerified calls' sha1 destination unit' dir) fun _ _ s t => R s.env t.env := by
    refine Together.bind hstart fun _ _ s t hst => ?_
    obtain ⟨⟨-, hfresh, -⟩, ⟨-, hfresh', -⟩, hboth⟩ := hst
    rw [hname] at hfresh'
    exact together_copyFill hp hname hu.2 hu'.2 hfresh hfresh' s t hboth
  refine (hcopy.returns (copyVerified_ok unit) (copyVerified_ok unit') fun s t hst =>
    ⟨hst.1, hst.2.1⟩).mono (fun _ _ hst => hst) fun _ _ s t hend => ?_
  obtain ⟨⟨hfresh, -, hcopied⟩, ⟨hfresh', -, hcopied'⟩, hR⟩ := hend
  exact ⟨⟨hfresh, hcopied⟩, ⟨hname ▸ hfresh', hcopied'⟩, hR⟩

end

/-! ## All copies on both sides -/

/-- A file of the staging directory that is the unit's copy. -/
def CopyOf (sha1 : Bytes → String) (m : MUnit) (p : String × Entry) : Prop :=
  p.1 = m.name ∧ ∃ content mode, p.2 = .file content mode ∧ sha1 content = m.name ∧
    content.length = m.size ∧ content.length ≤ maxUnitBytes

/-- The staging directory holds the copies of these units. -/
def Copies (sha1 : Bytes → String) (units : List MUnit) (files : Dict String Entry) : Prop :=
  files.keys.Nodup ∧ List.Forall₂ (CopyOf sha1) units files

theorem Copies.keys {sha1 : Bytes → String} {units : List MUnit} {files : Dict String Entry}
    (h : Copies sha1 units files) : files.keys = units.map MUnit.name := by
  obtain ⟨-, h⟩ := h
  induction h with
  | nil => rfl
  | cons hm _ ih =>
    rw [Dict.keys, List.map_cons, List.map_cons, hm.1, ← ih]
    rfl

theorem Copies.add {sha1 : Bytes → String} {units : List MUnit} {files : Dict String Entry}
    (h : Copies sha1 units files) {m : MUnit} {entry : Entry} (hfresh : files.has m.name = false)
    (hcopy : CopyOf sha1 m (m.name, entry)) :
    Copies sha1 (units ++ [m]) (files ++ [(m.name, entry)]) := by
  refine ⟨?_, List.rel_append h.2 (.cons hcopy .nil)⟩
  rw [Dict.keys_append]
  refine List.nodup_append.2 ⟨h.1, List.nodup_singleton _, fun a ha b hb hab => ?_⟩
  rw [List.mem_singleton.1 hb] at hab
  rw [hab, ← Dict.has_iff, hfresh] at ha
  cases ha

/-- The copy of a unit is found under its name. -/
theorem Copies.get? {sha1 : Bytes → String} {units : List MUnit} {files : Dict String Entry}
    (h : Copies sha1 units files) {m : MUnit} (hm : m ∈ units) :
    ∃ content mode, files.get? m.name = some (.file content mode) ∧ sha1 content = m.name ∧
      content.length = m.size ∧ content.length ≤ maxUnitBytes := by
  obtain ⟨hnodup, hall⟩ := h
  obtain ⟨i, hi, rfl⟩ := List.getElem_of_mem hm
  have hi' : i < files.length := hall.length_eq ▸ hi
  have hcopy : CopyOf sha1 units[i] files[i] := (List.forall₂_iff_get.1 hall).2 i hi hi'
  obtain ⟨hkey, content, mode, hentry, hrest⟩ := hcopy
  refine ⟨content, mode, ?_, hrest⟩
  have hmem : files[i] ∈ files := List.getElem_mem hi'
  rw [← hkey, ← hentry]
  exact Dict.get?_of_mem hnodup hmem

section
variable {w : World} {destination staging : Path} {calls : Calls σ} {calls' : Calls τ}
  {sha1 : Bytes → String} {m m' : MUnit} {units units' done done' : List MUnit}

/-- A source that can be read however much has been copied. -/
def Lasting (w : World) (destination : Path) (sha1 : Bytes → String) (staging : Path) (m : MUnit) : Prop :=
  ∃ f, ∀ entries files, Readable (seen w destination ⟨entries, some (staging, files)⟩) sha1 m f

theorem lasting_of_found (hdir : w.IsDirectory destination) (hfresh : w staging = none)
    (h : Found (seen w destination ⟨[], none⟩) sha1 m) : Lasting w destination sha1 staging m := by
  obtain ⟨d, f, hlies, hdigest⟩ := h
  exact ⟨f, fun entries files =>
    ⟨seen_source hdir hfresh hlies entries files, hlies.size, hlies.small, hdigest⟩⟩

/-- An empty destination, and the copies of these units in the staging directory. -/
def StagedBoth (R : σ → τ → Prop) (sha1 : Bytes → String) (staging : Path) (units units' : List MUnit)
    (s : Sys σ) (t : Sys τ) : Prop :=
  ∃ files files', Both R ⟨[], some (staging, files)⟩ ⟨[], some (staging, files')⟩ s t ∧
    Copies sha1 units files ∧ Copies sha1 units' files'

/-- The same names, each of which may have been found in another place. -/
def SameNames (units units' : List MUnit) : Prop :=
  List.Forall₂ (fun m m' => m'.name = m.name) units units'

theorem SameNames.map (h : SameNames units units') :
    units.map MUnit.name = units'.map MUnit.name := by
  induction h with
  | nil => rfl
  | cons hname _ ih => rw [List.map_cons, List.map_cons, hname, ih]

/-- One turn of the first loop. -/
theorem together_stageUnit (hp : Paired w destination R calls calls') (hname : m'.name = m.name)
    (hm : Lasting w destination sha1 staging m) (hm' : Lasting w destination sha1 staging m')
    (hdone : SameNames done done') :
    Together (StagedBoth R sha1 staging done done')
      (copyVerified calls sha1 destination m .staging)
      (copyVerified calls' sha1 destination m' .staging) fun _ _ =>
        StagedBoth R sha1 staging (done ++ [m]) (done' ++ [m']) := by
  rintro s t ⟨files, files', hboth, hc, hc'⟩
  obtain ⟨f, hf⟩ := hm
  obtain ⟨f', hf'⟩ := hm'
  have hkeys : files.keys = files'.keys := by rw [hc.keys, hc'.keys, hdone.map]
  have hcopy := together_copyVerified hp ⟨[], some (staging, files)⟩ ⟨[], some (staging, files')⟩
    .staging m m' hname ⟨hf _ _, hf _ _⟩ ⟨hf' _ _, hf' _ _⟩ (congrArg some hkeys)
  refine (hcopy.mono (fun _ _ h => h) fun _ _ s' t' hend => ?_) s t hboth
  obtain ⟨⟨hfresh, content, hdigest, hsize, hs'⟩, ⟨hfresh', content', hdigest', hsize', ht'⟩, hR⟩ := hend
  rw [← hname] at hfresh'
  have hsmall : ∀ {g : SourceFile} {n : MUnit} {c : Bytes}, g.content.length = n.size →
      g.content.length ≤ maxUnitBytes → c.length = n.size → c.length ≤ maxUnitBytes :=
    fun h1 h2 h3 => h3.trans h1.symm ▸ h2
  refine ⟨_, _, ⟨hs', ht', hR⟩, hc.add (hfresh files rfl) ⟨rfl, content, 0o644, rfl, hdigest, hsize, ?_⟩,
    hc'.add (hfresh' files' rfl) ⟨rfl, content', 0o644, rfl, hdigest', hsize', ?_⟩⟩
  · exact hsmall (hf [] []).size (hf [] []).small hsize
  · exact hsmall (hf' [] []).size (hf' [] []).small hsize'

/-- The first loop. -/
theorem together_stageUnits (hp : Paired w destination R calls calls') (hunits : SameNames units units')
    (hm : ∀ m ∈ units, Lasting w destination sha1 staging m)
    (hm' : ∀ m ∈ units', Lasting w destination sha1 staging m) (hdone : SameNames done done') :
    Together (StagedBoth R sha1 staging done done') (stageUnits calls sha1 destination units)
      (stageUnits calls' sha1 destination units') fun _ _ =>
        StagedBoth R sha1 staging (done ++ units) (done' ++ units') := by
  induction hunits generalizing done done' with
  | nil =>
    rw [List.append_nil, List.append_nil]
    exact Together.pure fun _ _ hst => hst
  | @cons m m' units units' hname _ ih =>
    obtain ⟨hone, hrest⟩ := List.forall_mem_cons.1 hm
    obtain ⟨hone', hrest'⟩ := List.forall_mem_cons.1 hm'
    have hdone' : SameNames (done ++ [m]) (done' ++ [m']) := List.rel_append hdone (.cons hname .nil)
    have htail := ih hrest hrest' hdone'
    rw [List.append_assoc, List.append_assoc] at htail
    exact Together.bind (together_stageUnit hp hname hone hone' hdone) fun _ _ => htail

/-- The destination is found empty on both sides. -/
theorem together_validateDestination (hp : Paired w destination R calls calls')
    (hdir : w.IsDirectory destination) (hfresh : w staging = none)
    (hstaging : destination.dropLast ≠ staging) :
    Together (StagedBoth R sha1 staging units units')
      (validateDestination (os calls destination) destination)
      (validateDestination (os calls' destination) destination) fun _ _ =>
        StagedBoth R sha1 staging units units' := by
  rintro s t ⟨files, files', hboth, hc, hc'⟩
  have hseen := seen_destination hdir hfresh files hstaging
  have hseen' := seen_destination hdir hfresh files' hstaging
  have hempty : Together (Both R ⟨[], some (staging, files)⟩ ⟨[], some (staging, files')⟩)
      (validateDestination (os calls destination) destination)
      (validateDestination (os calls' destination) destination) fun _ _ =>
        Both R ⟨[], some (staging, files)⟩ ⟨[], some (staging, files')⟩ :=
    together_each (fun t => decides_validateDestination (shows_os (hp.left t) rfl hseen.2) destination)
      (fun s => decides_validateDestination (shows_os (hp.right s) rfl hseen'.2) destination)
      (iff_of_true hseen hseen')
  exact hempty.mono (fun _ _ h => h) (fun _ _ s' t' hend => ⟨files, files', hend, hc, hc'⟩) s t hboth

/-- A link on both sides or on none, where both have the file and neither has the target, or both. -/
theorem linkTarget_both (d d' : Disk) {name : String} {entry entry' : Entry}
    (h : SameAnswer R (calls.link name) (calls'.link name))
    (hentry : (d.files .staging).bind (Dict.get? · name) = some entry)
    (hentry' : (d'.files .staging).bind (Dict.get? · name) = some entry')
    (hkeys : d.destination.keys = d'.destination.keys) {s : Sys σ} {t : Sys τ} (hst : Both R d d' s t) :
    (∃ s' t', linkTarget calls name s = (.ok (), s') ∧ linkTarget calls' name t = (.ok (), t') ∧
        Both R (d.add .destination name entry) (d'.add .destination name entry') s' t') ∨
      ∃ e s' e' t', linkTarget calls name s = (.error e, s') ∧
        linkTarget calls' name t = (.error e', t') ∧ Both R d d' s' t' := by
  obtain ⟨hs, ht, -⟩ := id hst
  have hhas : d'.destination.has name = d.destination.has name := by
    rw [Bool.eq_iff_iff, Dict.has_iff, Dict.has_iff, hkeys]
  unfold linkTarget
  rw [hs, ht, hentry, hentry', hhas]
  cases d.destination.has name with
  | true => exact .inr ⟨_, s, _, t, rfl, rfl, hst⟩
  | false => exact changing_both h .destination _ _ hst

/-- The copies are staged, and both destinations have the same names. -/
def LinkedBoth (R : σ → τ → Prop) (staging : Path) (files files' : Dict String Entry) (s : Sys σ)
    (t : Sys τ) : Prop :=
  ∃ entries entries' : Dict String Entry, entries.keys = entries'.keys ∧
    Both R ⟨entries, some (staging, files)⟩ ⟨entries', some (staging, files')⟩ s t

/-- One turn of the second loop: a link, or a copy, on both sides or on none. -/
theorem together_linkUnit (hp : Paired w destination R calls calls') (hdir : w.IsDirectory destination)
    {files files' : Dict String Entry} (hc : Copies sha1 units files) (hc' : Copies sha1 units' files')
    (hm : m ∈ units) (hm' : m' ∈ units') (hname : m'.name = m.name) :
    Together (LinkedBoth R staging files files') (linkUnit calls sha1 destination staging m)
      (linkUnit calls' sha1 destination staging m') fun _ _ => LinkedBoth R staging files files' := by
  rintro s t ⟨entries, entries', hkeys, hboth⟩
  obtain ⟨content, mode, hget, hdigest, hsize, hsmall⟩ := hc.get? hm
  obtain ⟨content', mode', hget', hdigest', hsize', hsmall'⟩ := hc'.get? hm'
  have hadded : ∀ (name : String) (entry entry' : Entry),
      (entries ++ [(name, entry)]).keys = (entries' ++ [(name, entry')]).keys := by
    intro name entry entry'
    rw [Dict.keys_append, Dict.keys_append, hkeys]
    rfl
  have hread : ∀ entries : Dict String Entry, Readable
      (seen w destination ⟨entries, some (staging, files)⟩) sha1
      ⟨m.name, staging ++ [m.name], m.size⟩ ⟨0, 0, content⟩ := fun entries =>
    ⟨by rw [seen_staged hdir, hget]; rfl, hsize, hsmall, hdigest⟩
  have hread' : ∀ entries : Dict String Entry, Readable
      (seen w destination ⟨entries, some (staging, files')⟩) sha1
      ⟨m'.name, staging ++ [m'.name], m'.size⟩ ⟨0, 0, content'⟩ := fun entries =>
    ⟨by rw [seen_staged hdir, hget']; rfl, hsize', hsmall', hdigest'⟩
  unfold linkUnit
  rw [hname] at hget' hread' ⊢
  rcases linkTarget_both ⟨entries, some (staging, files)⟩ ⟨entries', some (staging, files')⟩
    (hp.link m.name) hget hget' hkeys hboth with
    ⟨s', t', hs', ht', hend⟩ | ⟨e, s', e', t', hs', ht', hend⟩
  · rw [hs', ht']
    exact .inl ⟨(), s', (), t', rfl, rfl, _, _, hadded _ _ _, hend⟩
  · rw [hs', ht']
    refine ((together_copyVerified hp ⟨entries, some (staging, files)⟩ ⟨entries', some (staging, files')⟩
      .destination ⟨m.name, staging ++ [m.name], m.size⟩ ⟨m.name, staging ++ [m.name], m'.size⟩ rfl
      ⟨hread _, hread _⟩ ⟨hread' _, hread' _⟩ (congrArg some hkeys)).mono (fun _ _ h => h)
      fun _ _ s'' t'' hend' => ?_) s' t' hend
    obtain ⟨⟨-, c, -, -, hs''⟩, ⟨-, c', -, -, ht''⟩, hR⟩ := hend'
    exact ⟨_, _, hadded _ _ _, hs'', ht'', hR⟩

/-- The second loop. -/
theorem together_linkUnits (hp : Paired w destination R calls calls') (hdir : w.IsDirectory destination)
    {files files' : Dict String Entry} (hc : Copies sha1 units files) (hc' : Copies sha1 units' files')
    {rest rest' : List MUnit} (hrest : SameNames rest rest') (hsub : ∀ m ∈ rest, m ∈ units)
    (hsub' : ∀ m ∈ rest', m ∈ units') (created created' : List String) :
    Together (LinkedBoth R staging files files')
      (linkUnits calls sha1 destination staging rest created)
      (linkUnits calls' sha1 destination staging rest' created') fun _ _ =>
        LinkedBoth R staging files files' := by
  induction hrest generalizing created created' with
  | nil => exact Together.pure fun _ _ hst => hst
  | cons hname _ ih =>
    obtain ⟨hone, hrest⟩ := List.forall_mem_cons.1 hsub
    obtain ⟨hone', hrest'⟩ := List.forall_mem_cons.1 hsub'
    refine Together.bind (Together.onRaise _ _ ?_) fun _ _ => ih hrest hrest' _ _
    exact together_linkUnit hp hdir hc hc' hone hone' hname

theorem decides_removeStaging (calls : Calls σ) (I : Dict String Entry → Prop) :
    Decides (fun s : Sys σ => I s.disk.destination) (removeStaging calls) True
      fun _ s => I s.disk.destination := by
  intro s hs
  have hkeeps : Keeps (fun s : Sys σ => I s.disk.destination) (removeStaging calls) :=
    keeps_removeStaging
  have hkept := hkeeps s hs
  have hok : ∃ t, removeStaging calls s = .ok () t := by
    unfold removeStaging
    split
    · exact ⟨_, rfl⟩
    · exact ⟨_, rfl⟩
  obtain ⟨t, ht⟩ := hok
  rw [ht] at hkept
  exact .inl ⟨trivial, (), t, ht, hkept⟩

/-- From the selected units on. -/
theorem together_materializeUnits (hp : Paired w destination R calls calls')
    (hdir : w.IsDirectory destination) (hunits : SameNames units units')
    (hm : ∀ m ∈ units, Found (seen w destination ⟨[], none⟩) sha1 m)
    (hm' : ∀ m ∈ units', Found (seen w destination ⟨[], none⟩) sha1 m) :
    Together (Both R ⟨[], none⟩ ⟨[], none⟩) (materializeUnits calls sha1 destination units)
      (materializeUnits calls' sha1 destination units') fun _ _ s t =>
        s.disk.destination.keys = t.disk.destination.keys := by
  have hstaging : Together (Both R ⟨[], none⟩ ⟨[], none⟩)
      (callOr .stagingCreate (makeStaging calls destination))
      (callOr .stagingCreate (makeStaging calls' destination)) fun staging staging' s t =>
        StagedBoth R sha1 staging [] [] s t ∧
          (staging' = staging ∧ w staging = none ∧ destination.dropLast ≠ staging) := by
    rintro s t ⟨hs, ht, hR⟩
    obtain ⟨hval, hend⟩ := hp.mkdtemp s.env t.env hR
    have hfresh := hp.fresh s.env
    unfold callOr makeStaging ask
    generalize calls.mkdtemp s.env = r at hval hend hfresh ⊢
    generalize calls'.mkdtemp t.env = r' at hval hend ⊢
    obtain ⟨x, s'⟩ := r
    obtain ⟨y, t'⟩ := r'
    obtain rfl : x = y := hval
    cases x with
    | error e => exact .inr ⟨_, _, _, _, rfl, rfl⟩
    | ok suffix =>
      have hnil : Copies sha1 [] [] := ⟨List.nodup_nil, .nil⟩
      have hdisk : ∀ p : Path, { s.disk with staging := some (p, []) } = ⟨[], some (p, [])⟩ :=
        fun p => by rw [hs]
      have hdisk' : ∀ p : Path, { t.disk with staging := some (p, []) } = ⟨[], some (p, [])⟩ :=
        fun p => by rw [ht]
      exact .inl ⟨_, _, _, _, rfl, rfl, ⟨[], [], ⟨hdisk _, hdisk' _, hend⟩, hnil, hnil⟩, rfl,
        hfresh suffix s' rfl, by simp⟩
  refine Together.bind hstaging fun staging staging' => Together.of_fact fun ⟨hsame, hfresh, hparent⟩ => ?_
  rw [hsame]
  have hlasting : ∀ m ∈ units, Lasting w destination sha1 staging m := fun m h =>
    lasting_of_found hdir hfresh (hm m h)
  have hlasting' : ∀ m ∈ units', Lasting w destination sha1 staging m := fun m h =>
    lasting_of_found hdir hfresh (hm' m h)
  have hlinked : Together (StagedBoth R sha1 staging units units')
      (linkUnits calls sha1 destination staging units [])
      (linkUnits calls' sha1 destination staging units' []) fun _ _ s t =>
        s.disk.destination.keys = t.disk.destination.keys := by
    rintro s t ⟨files, files', hboth, hc, hc'⟩
    refine ((together_linkUnits hp hdir hc hc' hunits (fun _ h => h) (fun _ h => h) [] []).mono
      (fun _ _ h => h) fun _ _ s' t' hend => ?_) s t ⟨[], [], rfl, hboth⟩
    obtain ⟨entries, entries', hkeys, hs', ht', -⟩ := hend
    rw [hs', ht']
    exact hkeys
  refine Together.finallyDo (Together.bind (together_stageUnits hp hunits hlasting hlasting' .nil)
    fun _ _ => Together.bind (together_validateDestination hp hdir hfresh hparent) fun _ _ => hlinked)
    fun _ _ => ?_
  have hremoved : Together (fun (s : Sys σ) (t : Sys τ) =>
        True ∧ True ∧ s.disk.destination.keys = t.disk.destination.keys)
      (removeStaging calls) (removeStaging calls') fun _ _ s t =>
        True ∧ True ∧ s.disk.destination.keys = t.disk.destination.keys :=
    Together.of_decides
      (fun t => decides_removeStaging calls fun files => True ∧ files.keys = t.disk.destination.keys)
      (fun s => decides_removeStaging calls' fun files => True ∧ s.disk.destination.keys = files.keys)
      Iff.rfl
  exact hremoved.mono (fun _ _ hst => ⟨trivial, trivial, hst⟩) fun _ _ _ _ hend => hend.2.2

end

end

/-! ## Whole runs -/

section
variable {w : World} {destination : Path} {R : σ → τ → Prop} {calls : Calls σ} {calls' : Calls τ}
  {sha1 : Bytes → String} {sha256 : String → String} {shardIndex waveShardCount waveNumber : Nat}
  {commonSource : Path} {sources sources' : List Path}

theorem sameNames_of_map {units units' : List MUnit}
    (h : units.map MUnit.name = units'.map MUnit.name) : SameNames units units' := by
  induction units generalizing units' with
  | nil =>
    rw [List.map_nil, eq_comm, List.map_eq_nil_iff] at h
    rw [h]
    exact .nil
  | cons m units ih =>
    cases units' with
    | nil => cases h
    | cons m' units' =>
      obtain ⟨hname, hrest⟩ := List.cons.inj h
      exact .cons hname.symm (ih hrest)

/-- Before anything is copied the destination holds nothing. -/
theorem seen_start : (seen w destination ⟨[], none⟩).entries destination = [] := by
  by_cases hdir : (seen w destination ⟨[], none⟩).IsDirectory destination
  · rw [seen_of_directory (isDirectory_of_seen hdir)]
    unfold World.entries
    rw [World.overlay_self]
    rfl
  · unfold World.entries
    split
    · next names hnames => exact absurd ⟨names, hnames⟩ hdir
    · rfl

/-- What a selection is, and that the units it takes go by the names selected. -/
theorem together_materializeSelect (hp : Paired w destination R calls calls')
    (hsources : sources.Perm sources') :
    Together (Both R ⟨[], none⟩ ⟨[], none⟩)
      (materializeSelect (os calls destination) sha1 destination shardIndex waveShardCount waveNumber
        commonSource sources)
      (materializeSelect (os calls' destination) sha1 destination shardIndex waveShardCount waveNumber
        commonSource sources') fun selection selection' s t =>
        Both R ⟨[], none⟩ ⟨[], none⟩ s t ∧ w.IsDirectory destination ∧
          selection.bare = selection'.bare ∧ SameNames selection.selected selection'.selected ∧
          (∀ m ∈ selection.selected, Found (seen w destination ⟨[], none⟩) sha1 m) ∧
          ∀ m ∈ selection'.selected, Found (seen w destination ⟨[], none⟩) sha1 m := by
  have hplaced := World.placed_perm (w := seen w destination ⟨[], none⟩) hsources
  have hselect : Together (Both R ⟨[], none⟩ ⟨[], none⟩)
      (materializeSelect (os calls destination) sha1 destination shardIndex waveShardCount waveNumber
        commonSource sources)
      (materializeSelect (os calls' destination) sha1 destination shardIndex waveShardCount waveNumber
        commonSource sources') fun selection selection' s t =>
        Both R ⟨[], none⟩ ⟨[], none⟩ s t ∧
          ((seen w destination ⟨[], none⟩).IsDirectory destination ∧
            selection.bare = choice ((seen w destination ⟨[], none⟩).commonNames commonSource)
              ((seen w destination ⟨[], none⟩).placed sources)
              (waveNumber * waveShardCount + shardIndex) ∧
            ∀ m ∈ selection.selected, Found (seen w destination ⟨[], none⟩) sha1 m) ∧
          selection'.bare = choice ((seen w destination ⟨[], none⟩).commonNames commonSource)
            ((seen w destination ⟨[], none⟩).placed sources')
            (waveNumber * waveShardCount + shardIndex) ∧
          ∀ m ∈ selection'.selected, Found (seen w destination ⟨[], none⟩) sha1 m :=
    together_facts
      (fun t => (decides_materializeSelect (shows_os (hp.left t) rfl seen_start) _ _ _ _ _ _).mono Iff.rfl
        fun hC _ _ hend => ⟨hend.1, hC.destination.1, hend.2⟩)
      (fun s => decides_materializeSelect (shows_os (hp.right s) rfl seen_start) _ _ _ _ _ _)
      ⟨Accepts.perm hsources, Accepts.perm hsources.symm⟩
  refine (hselect.returns (selected_names _ _ _ _ _ _ _) (selected_names _ _ _ _ _ _ _)
    fun _ _ _ => ⟨trivial, trivial⟩).mono (fun _ _ h => h) fun selection selection' s t hend => ?_
  obtain ⟨hs, ht, hboth, ⟨hdir, hbare, hfound⟩, hbare', hfound'⟩ := hend
  have hsame : selection.bare = selection'.bare := by rw [hbare, hbare', choice_perm hplaced]
  refine ⟨hboth, isDirectory_of_seen hdir, hsame, sameNames_of_map ?_, hfound, hfound'⟩
  have hcommon := congrArg Selection.commonNames hsame
  have hassigned := congrArg Selection.assignedNames hsame
  simp only [Selection.bare] at hcommon hassigned
  rw [hs, ht, hcommon, hassigned]

/-- A summary does not say where the units were. -/
theorem summaryOf_bare (sha256 : String → String) (shardIndex waveShardCount waveNumber : Nat)
    (selection : Selection) :
    summaryOf sha256 shardIndex waveShardCount waveNumber selection.bare =
      summaryOf sha256 shardIndex waveShardCount waveNumber selection := rfl

theorem together_printNumbers {P : Sys σ → Sys τ → Prop} (numbers : List Nat) :
    Together P (printNumbers numbers) (printNumbers numbers) fun _ _ => P := by
  intro s t hst
  unfold printNumbers
  generalize numbers.all (· < 10 ^ maxStrDigits) = printed
  cases printed with
  | true => exact .inl ⟨(), s, (), t, rfl, rfl, hst⟩
  | false => exact .inr ⟨.valueError, s, .valueError, t, rfl, rfl⟩

theorem printedNumbers_bare (shardIndex waveShardCount waveNumber : Nat) (selection : Selection) :
    printedNumbers shardIndex waveShardCount waveNumber selection.bare =
      printedNumbers shardIndex waveShardCount waveNumber selection := rfl

/-- A run that finds files in the destination raises. -/
theorem materialize_dirty (calls : Calls σ) (sha1 : Bytes → String) (sha256 : String → String)
    (destination : Path) (shardIndex waveShardCount waveNumber : Nat) (commonSource : Path)
    (sources : List Path) (s : Sys σ) (hdirty : s.disk.destination ≠ []) :
    ∃ e t, materialize calls sha1 sha256 destination shardIndex waveShardCount waveNumber commonSource
      sources s = .error e t := by
  cases hr : materialize calls sha1 sha256 destination shardIndex waveShardCount waveNumber commonSource
    sources s with
  | error e t => exact ⟨e, t, rfl⟩
  | ok summary t =>
    obtain ⟨selection, s1, hselect, -⟩ := bind_eq_ok.1 hr
    obtain ⟨_, s2, hshard, hselect⟩ := bind_eq_ok.1 hselect
    obtain ⟨_, s3, hfew, hselect⟩ := bind_eq_ok.1 hselect
    obtain ⟨_, s4, hdestination, -⟩ := bind_eq_ok.1 hselect
    obtain ⟨-, hs2⟩ := rejectIf_eq_ok.1 hshard
    obtain ⟨-, hs3⟩ := rejectIf_eq_ok.1 hfew
    have hs : s3 = s := hs3.trans hs2
    rw [hs] at hdestination
    obtain ⟨-, hempty⟩ := returns_validateDestination (d := s.disk) s rfl _ s4 hdestination
    exact absurd hempty hdirty

/-- **Selection does not depend on directory order.** Over one unchanging file system, whatever
orders each run lists the directories in at each of its scans, and in whatever order it is given
the private sources: both runs raise, or both return the same summary (bucket prefix, visit, window
index and count, hash of the manifest) and leave files of the same names. -/
theorem materialize_order_free (w : World) (destination : Path) (R : σ → τ → Prop) (calls : Calls σ)
    (calls' : Calls τ) (hp : Paired w destination R calls calls') (sha1 : Bytes → String)
    (sha256 : String → String) (shardIndex waveShardCount waveNumber : Nat) (commonSource : Path)
    (sources sources' : List Path) (hsources : sources.Perm sources') (entries : Dict String Entry)
    (s : σ) (t : τ) (hst : R s t) :
    (∃ summary u v,
      materialize calls sha1 sha256 destination shardIndex waveShardCount waveNumber commonSource
          sources ⟨s, ⟨entries, none⟩⟩ = .ok summary u ∧
        materialize calls' sha1 sha256 destination shardIndex waveShardCount waveNumber commonSource
          sources' ⟨t, ⟨entries, none⟩⟩ = .ok summary v ∧
        u.disk.destination.keys = v.disk.destination.keys) ∨
      ∃ e u e' v,
        materialize calls sha1 sha256 destination shardIndex waveShardCount waveNumber commonSource
            sources ⟨s, ⟨entries, none⟩⟩ = .error e u ∧
          materialize calls' sha1 sha256 destination shardIndex waveShardCount waveNumber commonSource
            sources' ⟨t, ⟨entries, none⟩⟩ = .error e' v := by
  by_cases hempty : entries = []
  · have hrun : Together (Both R ⟨[], none⟩ ⟨[], none⟩)
        (materialize calls sha1 sha256 destination shardIndex waveShardCount waveNumber commonSource
          sources)
        (materialize calls' sha1 sha256 destination shardIndex waveShardCount waveNumber commonSource
          sources') fun summary summary' u v =>
          u.disk.destination.keys = v.disk.destination.keys ∧ summary = summary' := by
      refine Together.bind (together_materializeSelect hp hsources) fun selection selection' =>
        Together.of_fact fun ⟨hdir, hbare, hnames, hfound, hfound'⟩ => ?_
      refine Together.bind (together_materializeUnits hp hdir hnames hfound hfound') fun _ _ => ?_
      have hsummary : summaryOf sha256 shardIndex waveShardCount waveNumber selection =
          summaryOf sha256 shardIndex waveShardCount waveNumber selection' := by
        rw [← summaryOf_bare, hbare, summaryOf_bare]
      have hnumbers : printedNumbers shardIndex waveShardCount waveNumber selection =
          printedNumbers shardIndex waveShardCount waveNumber selection' := by
        rw [← printedNumbers_bare, hbare, printedNumbers_bare]
      rw [hnumbers]
      refine Together.bind (together_printNumbers _) fun _ _ => ?_
      exact Together.pure fun _ _ hkeys => ⟨hkeys, hsummary⟩
    rw [hempty]
    rcases hrun ⟨s, ⟨[], none⟩⟩ ⟨t, ⟨[], none⟩⟩ ⟨rfl, rfl, hst⟩ with
      ⟨summary, u, summary', v, hu, hv, hkeys, hsummary⟩ | ⟨e, u, e', v, hu, hv⟩
    · exact .inl ⟨summary, u, v, hu, hsummary ▸ hv, hkeys⟩
    · exact .inr ⟨e, u, e', v, hu, hv⟩
  · obtain ⟨e, u, hu⟩ := materialize_dirty calls sha1 sha256 destination shardIndex waveShardCount
      waveNumber commonSource sources ⟨s, ⟨entries, none⟩⟩ hempty
    obtain ⟨e', v, hv⟩ := materialize_dirty calls' sha1 sha256 destination shardIndex waveShardCount
      waveNumber commonSource sources' ⟨t, ⟨entries, none⟩⟩ hempty
    exact .inr ⟨e, u, e', v, hu, hv⟩

end

/-! ## Environments that differ in their orders -/

/-- The operating system of a world that lists its directories in an order of its own. -/
def listedOS (order : List (String × Node) → List (String × Node)) (w : World) : OS Unit where
  lstat := (worldOS w).lstat
  scandir path _ :=
    match w path with
    | some (.directory names) => (.ok ⟨(order (w.listing path names)).map entryOf, false⟩, ())
    | _ => (.error .osError, ())
  openRead := (worldOS w).openRead

theorem handed_session (f : SourceFile) : f.Handed f.session := by
  unfold SourceFile.session
  by_cases h : f.content = []
  · rw [if_pos h]
    exact ⟨[], List.not_mem_nil, h.symm, rfl⟩
  · rw [if_neg h]
    exact ⟨[f.content], fun hn => h (List.mem_singleton.1 hn).symm, List.flatten_singleton, rfl⟩

theorem shows_listedOS {order : List (String × Node) → List (String × Node)}
    (horder : ∀ es, (order es).Perm es) (w : World) : Shows w (listedOS order w) fun _ => True where
  lstat _ _ _ := ⟨rfl, trivial⟩
  openRead path f _ hf _ := by
    refine ⟨⟨f.session, handed_session f, ?_⟩, trivial⟩
    simp only [listedOS, worldOS, hf]
  scandir path _ hdir _ := by
    obtain ⟨names, hnames⟩ := hdir
    refine ⟨⟨order (w.entries path), horder _, ?_⟩, trivial⟩
    simp only [listedOS, World.entries, hnames]

/-- Calls over a world that all work. -/
def worldCalls (order : List (String × Node) → List (String × Node)) (w : World) (destination : Path) :
    Calls Unit where
  look d := listedOS order (seen w destination d)
  mkdtemp _ := (.ok "x", ())
  create _ _ _ := (.ok (), ())
  write _ _ n _ := (.ok n, ())
  fsync _ _ _ := (.ok (), ())
  close _ _ _ := (.ok (), ())
  closeSource _ _ := (.ok (), ())
  chmod _ _ _ := (.ok (), ())
  link _ _ := (.ok (), ())
  unlink _ _ := (.ok (), ())
  rmtree _ := (none, ())

theorem paired_worldCalls {order order' : List (String × Node) → List (String × Node)}
    (horder : ∀ es, (order es).Perm es) (horder' : ∀ es, (order' es).Perm es) {w : World}
    {destination : Path} (hfresh : w (destination.dropLast ++ [".corpus-shard-x"]) = none) :
    Paired w destination (fun _ _ => True) (worldCalls order w destination)
      (worldCalls order' w destination) where
  left _ := ⟨fun _ => shows_listedOS horder _, fun _ _ n _ _ => ⟨n, (), rfl, id, trivial⟩,
    fun _ _ _ => ⟨(), rfl, trivial⟩⟩
  right _ := ⟨fun _ => shows_listedOS horder' _, fun _ _ n _ _ => ⟨n, (), rfl, id, trivial⟩,
    fun _ _ _ => ⟨(), rfl, trivial⟩⟩
  mkdtemp _ _ _ := ⟨rfl, trivial⟩
  fresh _ suffix _ h := by
    cases h
    exact hfresh
  create _ _ _ _ _ := ⟨rfl, trivial⟩
  fsync _ _ _ _ _ := ⟨rfl, trivial⟩
  close _ _ _ _ _ := ⟨rfl, trivial⟩
  chmod _ _ _ _ _ := ⟨rfl, trivial⟩
  link _ _ _ _ := ⟨rfl, trivial⟩

namespace TwoSources

def commonUnit : String := "da39a3ee5e6b4b0d3255bfef95601890afd80709"

def unitA : String := "86f7e437faa5a7fce15d1ddcb9eaeaea377667b8"

def unitB : String := "e9d71f5ee7c92d6dc9e92ffdad17b8bd49418f98"

/-- SHA-1 on the contents of the three units. -/
def digest (content : Bytes) : String :=
  if content = [] then commonUnit
  else if content = [97] then unitA
  else if content = [98] then unitB
  else ""

/-- One unit in both private sources, another in the second only. -/
def world : World
  | ["dest"] => some (.directory [])
  | ["common"] => some (.directory [commonUnit])
  | ["one"] => some (.directory [unitA])
  | ["two"] => some (.directory [unitA, unitB])
  | ["common", name] => if name = commonUnit then some (.file ⟨0, 1, []⟩) else none
  | ["one", name] => if name = unitA then some (.file ⟨0, 2, [97]⟩) else none
  | ["two", name] =>
    if name = unitA then some (.file ⟨0, 3, [97]⟩)
    else if name = unitB then some (.file ⟨0, 4, [98]⟩)
    else none
  | _ => none

/-- One run. -/
def run (order : List (String × Node) → List (String × Node)) (sources : List Path) :
    EStateM.Result Raised (Sys Unit) Summary :=
  materialize (worldCalls order world ["dest"]) digest id ["dest"] 0 1 0 ["common"] sources
    ⟨(), ⟨[], none⟩⟩

end TwoSources

/-- Two runs over two sources that share a unit, in the one order and in the other: both return. -/
theorem materialize_twoSources :
    ∃ summary u v, TwoSources.run id [["one"], ["two"]] = .ok summary u ∧
      TwoSources.run List.reverse [["two"], ["one"]] = .ok summary v ∧
        u.disk.destination.keys = v.disk.destination.keys := by
  rcases materialize_order_free TwoSources.world ["dest"] (fun _ _ => True)
    (worldCalls id TwoSources.world ["dest"]) (worldCalls List.reverse TwoSources.world ["dest"])
    (paired_worldCalls (fun _ => .refl _) List.reverse_perm rfl) TwoSources.digest id 0 1 0 ["common"]
    [["one"], ["two"]] [["two"], ["one"]] (List.Perm.swap _ _ _) [] () () trivial with
    hboth | ⟨e, u, e', v, hu, -⟩
  · exact hboth
  · have hreturns : (returned (TwoSources.run id [["one"], ["two"]])).isSome = true := by
      decide +kernel
    rw [TwoSources.run, hu] at hreturns
    cases hreturns

end MpcHunt.MaterializeWindow
