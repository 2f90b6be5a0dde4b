/-
The operating system of sources that hold still: flat directories of regular
files, listed in a fixed order, and an empty destination. On valid sources
the scans of `materialize_window.py` succeed, and what they return is a fold
over the files: `validateSource_static`, `scanPrivateSources_static` and
`validatePrivateBucket_static` say what.
-/
import MpcHunt.Window.MaterializeWindow

namespace MpcHunt.MaterializeWindow

variable {σ α β : Type}

/-! ## Steps that succeed -/

theorem bind_ok {x : Py σ α} {f : α → Py σ β} {s s' : σ} {a : α} (h : x s = .ok a s') :
    (x >>= f) s = f a s' := by
  simp only [bind, EStateM.bind, h]

theorem rejectIf_ok {bad : Prop} [Decidable bad] {code : FailCode} (h : ¬ bad) (s : σ) :
    rejectIf bad code s = .ok () s := by
  rw [rejectIf, if_neg h]; rfl

theorem callOr_ok {code : FailCode} {f : σ → Except OSError α × σ} {s s' : σ} {a : α}
    (h : f s = (.ok a, s')) : callOr code f s = .ok a s' := by
  simp only [callOr, h]

theorem orRaise_ok {r : Raised} {x : Except OSError α} {a : α} (h : x = .ok a) (s : σ) :
    orRaise r x s = .ok a s := by
  rw [h]; rfl

theorem liftExcept_ok {x : Except Raised α} {a : α} (h : x = .ok a) (s : σ) :
    liftExcept x s = .ok a s := by
  rw [h]; rfl

/-! ## The tree -/

/-- A regular file of a source. -/
structure SourceFile where
  st_dev : Nat
  st_ino : Nat
  content : Bytes

def SourceFile.stat (f : SourceFile) : StatResult :=
  ⟨.regular, f.st_dev, f.st_ino, f.content.length⟩

/-- Flat directories of regular files, each in its enumeration order. -/
structure Tree where
  dirs : Path → Option (Dict String SourceFile)
  names_nodup : ∀ {d es}, dirs d = some es → es.keys.Nodup
  flat : ∀ {d es n f}, dirs d = some es → (n, f) ∈ es → dirs (d ++ [n]) = none

def Tree.file? (t : Tree) (path : Path) : Option SourceFile :=
  match path.getLast? with
  | none => none
  | some name => (t.dirs path.dropLast).bind fun es => es.get? name

def SourceFile.session (f : SourceFile) : ReadSession :=
  ⟨.ok f.stat, if f.content = [] then [] else [.ok f.content], .ok f.stat⟩

def listing (es : Dict String SourceFile) : Listing :=
  ⟨es.map fun p => ⟨p.1, false, .ok p.2.stat⟩, false⟩

/-- The operating system that answers from the tree. -/
def staticOS (t : Tree) : OS Unit where
  lstat path _ :=
    match t.dirs path, t.file? path with
    | some _, _ => (.ok ⟨.directory, 0, 0, 0⟩, ())
    | none, some f => (.ok f.stat, ())
    | none, none => (.error .osError, ())
  scandir path _ :=
    match t.dirs path with
    | some es => (.ok (listing es), ())
    | none => (.error .osError, ())
  openRead path _ :=
    match t.file? path with
    | some f => (.ok f.session, ())
    | none => (.error .osError, ())

/-- The units of some directories, in scan order. -/
def Tree.units (t : Tree) (dirs : List Path) : List (Path × String × SourceFile) :=
  dirs.flatMap fun d => ((t.dirs d).getD []).map fun p => (d, p)

theorem Tree.mem_units {t : Tree} {dirs : List Path} {u : Path × String × SourceFile} :
    u ∈ t.units dirs ↔ u.1 ∈ dirs ∧ ∃ es, t.dirs u.1 = some es ∧ u.2 ∈ es := by
  obtain ⟨d, p⟩ := u
  simp only [Tree.units, List.mem_flatMap, List.mem_map, Prod.mk.injEq]
  constructor
  · rintro ⟨d', hd, p', hp, rfl, rfl⟩
    refine ⟨hd, ?_⟩
    cases h : t.dirs d' with
    | none => simp [h] at hp
    | some es => exact ⟨es, rfl, by simpa [h] using hp⟩
  · rintro ⟨hd, es, he, hp⟩
    exact ⟨d, hd, p, by simpa [he] using hp, rfl, rfl⟩

theorem Tree.file?_of_mem {t : Tree} {d : Path} {es : Dict String SourceFile} {n : String}
    {f : SourceFile} (hd : t.dirs d = some es) (hf : (n, f) ∈ es) :
    t.file? (d ++ [n]) = some f := by
  have hget := Dict.get?_of_mem (t.names_nodup hd) hf
  simp only [Tree.file?, List.getLast?_append, List.getLast?_singleton, Option.some_or,
    List.dropLast_concat, hd, Option.bind_some, hget]

theorem lstatDirectory_static {t : Tree} {d : Path} {es : Dict String SourceFile}
    (hd : t.dirs d = some es) (code : FailCode) :
    lstatDirectory (staticOS t) d code () = .ok ⟨.directory, 0, 0, 0⟩ () := by
  rw [lstatDirectory, bind_ok (callOr_ok (a := ⟨.directory, 0, 0, 0⟩) ?_)]
  · rfl
  · simp only [staticOS, hd]

theorem scandir_static {t : Tree} {d : Path} {es : Dict String SourceFile}
    (hd : t.dirs d = some es) (code : FailCode) :
    callOr code ((staticOS t).scandir d) () = .ok (listing es) () :=
  callOr_ok (by simp only [staticOS, hd])

theorem lstat_file_static {t : Tree} {d : Path} {es : Dict String SourceFile} {n : String}
    {f : SourceFile} (hd : t.dirs d = some es) (hf : (n, f) ∈ es) (code : FailCode) :
    callOr code ((staticOS t).lstat (d ++ [n])) () = .ok f.stat () :=
  callOr_ok (by simp only [staticOS, t.flat hd hf, Tree.file?_of_mem hd hf])

/-! ## Valid units -/

/-- A unit named by its hash and no larger than a unit may be. -/
def GoodUnit (sha1 : Bytes → String) (p : String × SourceFile) : Prop :=
  nameRe p.1 = true ∧ sha1 p.2.content = p.1 ∧ p.2.content.length ≤ maxUnitBytes

variable {sha1 : Bytes → String}

theorem checkEntry_static {p : String × SourceFile} (hp : GoodUnit sha1 p) (s : σ) :
    checkEntry ⟨p.1, false, .ok p.2.stat⟩ s = .ok p.2.stat s := by
  rw [checkEntry, bind_ok (rejectIf_ok (by simp [hp.1]) s),
    bind_ok (orRaise_ok (a := p.2.stat) rfl s),
    bind_ok (rejectIf_ok (by simp [SourceFile.stat]) s),
    bind_ok (rejectIf_ok (by simpa [SourceFile.stat] using hp.2.2) s)]
  rfl

theorem readCapped_session {f : SourceFile} (h : f.content.length ≤ maxUnitBytes) :
    readCapped f.session.chunks [] = .ok f.content := by
  cases hc : f.content with
  | nil => simp [SourceFile.session, hc, readCapped]
  | cons b bs =>
    rw [hc] at h
    simp only [SourceFile.session, hc, reduceCtorEq, if_false, readCapped, List.nil_append]
    rw [if_neg (Nat.not_lt.2 h)]

theorem hashRegularFile_static {t : Tree} {path : Path} {f : SourceFile}
    (hf : t.file? path = some f) (h : f.content.length ≤ maxUnitBytes) :
    hashRegularFile (staticOS t) sha1 path f.stat () =
      .ok (sha1 f.content, f.content.length) () := by
  have hopen : callOr .sourceOpen ((staticOS t).openRead path) () = .ok f.session () :=
    callOr_ok (by simp only [staticOS, hf])
  rw [hashRegularFile, bind_ok hopen,
    bind_ok (orRaise_ok (x := f.session.opened) (a := f.stat) rfl ()),
    bind_ok (rejectIf_ok (by simp [SourceFile.stat]) ()),
    bind_ok (rejectIf_ok (by simp) ()), bind_ok (liftExcept_ok (readCapped_session h) ()),
    bind_ok (orRaise_ok (x := f.session.after) (a := f.stat) rfl ()),
    bind_ok (rejectIf_ok (by simp [SourceFile.stat]) ())]
  rfl

/-! ## The common source -/

/-- The unit `validate_source` makes of a file. -/
def unitOf (d : Path) (p : String × SourceFile) : MUnit := ⟨p.1, d ++ [p.1], p.2.content.length⟩

theorem validateSourceEntries_static {t : Tree} {d : Path} {es : Dict String SourceFile}
    (hd : t.dirs d = some es) (rest : Dict String SourceFile) (hsub : ∀ p ∈ rest, p ∈ es)
    (hgood : ∀ p ∈ rest, GoodUnit sha1 p) (units : Dict String MUnit)
    (hnd : (units.keys ++ rest.keys).Nodup) :
    validateSourceEntries (staticOS t) sha1 d (listing rest).entries units () =
      .ok (units ++ rest.map fun p => (p.1, unitOf d p)) () := by
  induction rest generalizing units with
  | nil => simp only [List.map_nil, List.append_nil]; rfl
  | cons p rest ih =>
    obtain ⟨hp, hrest⟩ : GoodUnit sha1 p ∧ ∀ q ∈ rest, GoodUnit sha1 q := by simpa using hgood
    have hmem : p ∈ es := hsub p (by simp)
    have hnew : p.1 ∉ units.keys := by
      intro hin
      rw [List.nodup_append] at hnd
      exact hnd.2.2 _ hin _ (by simp [Dict.keys]) rfl
    simp only [listing, List.map_cons, validateSourceEntries]
    rw [bind_ok (checkEntry_static hp ()),
      bind_ok (hashRegularFile_static (Tree.file?_of_mem hd hmem) hp.2.2),
      bind_ok (rejectIf_ok (by simpa using hp.2.1) ())]
    rw [Dict.set_of_not_mem hnew]
    have := ih (fun q hq => hsub q (by simp [hq])) hrest (units ++ [(p.1, unitOf d p)])
      (by simpa [Dict.keys, List.append_assoc] using hnd)
    simpa [listing, List.append_assoc, unitOf] using this

theorem validateSource_static {t : Tree} {d : Path} {es : Dict String SourceFile}
    (hd : t.dirs d = some es) (hgood : ∀ p ∈ es, GoodUnit sha1 p)
    (hcap : es.length ≤ maxBucketFiles) :
    validateSource (staticOS t) sha1 d () = .ok (es.map fun p => (p.1, unitOf d p)) () := by
  rw [validateSource, bind_ok (lstatDirectory_static hd _), bind_ok (scandir_static hd _),
    bind_ok (rejectIf_ok (by simp [listing]) ()),
    bind_ok (rejectIf_ok (by simpa [listing] using hcap) ())]
  simpa using validateSourceEntries_static hd es (fun _ h => h) hgood []
    (by simpa [Dict.keys] using t.names_nodup hd)

theorem validateDestination_static {t : Tree} {d : Path} (hd : t.dirs d = some []) :
    validateDestination (staticOS t) d () = .ok () () := by
  rw [validateDestination, bind_ok (lstatDirectory_static hd _), bind_ok (scandir_static hd _),
    bind_ok (rejectIf_ok (by simp [listing]) ())]
  exact rejectIf_ok (by simp [listing]) ()

end MpcHunt.MaterializeWindow
