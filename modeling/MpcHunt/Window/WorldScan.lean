/-
The private scan over a file system in which anything may be anywhere: what
is at a path is a file, a directory, a symlink or something else. The scan of
one directory succeeds exactly when the directory is `Scannable`, and that
does not depend on the order of its entries.
-/
import MpcHunt.Lib.Raising
import MpcHunt.Window.StaticScan

namespace MpcHunt.MaterializeWindow

variable {σ α β : Type}

/-! ## Steps, when they succeed -/

theorem rejectIf_eq_ok {bad : Prop} [Decidable bad] {code : FailCode} {s s' : σ} {u : Unit} :
    rejectIf bad code s = .ok u s' ↔ ¬ bad ∧ s' = s := by
  by_cases h : bad
  · simp [rejectIf, h, reject, throw, throwThe, MonadExceptOf.throw, EStateM.throw]
  · simp [rejectIf, h, pure, EStateM.pure, eq_comm]

theorem orRaise_eq_ok {r : Raised} {x : Except OSError α} {a : α} {s s' : σ} :
    orRaise r x s = .ok a s' ↔ x = .ok a ∧ s' = s := by
  cases x with
  | error e => simp [orRaise, throw, throwThe, MonadExceptOf.throw, EStateM.throw]
  | ok b => simp [orRaise, pure, EStateM.pure, eq_comm]

theorem callOr_eq_ok {code : FailCode} {f : σ → Except OSError α × σ} {s s' : σ} {a : α} :
    callOr code f s = .ok a s' ↔ f s = (.ok a, s') := by
  simp only [callOr]
  rcases h : f s with ⟨x, t⟩
  cases x <;> simp

theorem pure_eq_ok {a b : α} {s s' : σ} : (pure a : Py σ α) s = .ok b s' ↔ b = a ∧ s' = s := by
  simp [pure, EStateM.pure, eq_comm]

/-! ## The file system -/

/-- What is at a path. A directory has the names of its entries in the order of its scan. -/
inductive Node where
  | file (f : SourceFile)
  | directory (names : List String)
  | symlink
  | other

def Node.stat : Node → StatResult
  | .file f => f.stat
  | .directory _ => ⟨.directory, 0, 0, 0⟩
  | .symlink => ⟨.symlink, 0, 0, 0⟩
  | .other => ⟨.other, 0, 0, 0⟩

/-- What `lstat` finds at each path, symlinks among its parents followed. -/
abbrev World := Path → Option Node

/-- The entries of a directory. -/
def World.listing (w : World) (d : Path) (names : List String) : List (String × Node) :=
  names.filterMap fun n => (w (d ++ [n])).map fun node => (n, node)

def entryOf (p : String × Node) : DirEntry :=
  ⟨p.1, (match p.2 with | .symlink => true | _ => false), .ok p.2.stat⟩

/-- The operating system of a file system that holds still. Nothing but a directory is ever
listed: `lstat_directory` looks first. -/
def worldOS (w : World) : OS Unit where
  lstat path _ :=
    match w path with
    | some node => (.ok node.stat, ())
    | none => (.error .osError, ())
  scandir path _ :=
    match w path with
    | some (.directory names) => (.ok ⟨(w.listing path names).map entryOf, false⟩, ())
    | _ => (.error .osError, ())
  openRead path _ :=
    match w path with
    | some (.file f) => (.ok f.session, ())
    | _ => (.error .osError, ())

/-! ## One directory -/

/-- An entry the scan takes: a regular file of a proper name and no more than a unit's size. -/
def Acceptable (p : String × Node) : Prop :=
  nameRe p.1 = true ∧ ∃ f, p.2 = .file f ∧ f.content.length ≤ maxUnitBytes

/-- The files of a listing, where they lie. -/
def placed (d : Path) (es : List (String × Node)) : List Placed :=
  es.filterMap fun p =>
    match p.2 with
    | .file f => some (d, p.1, f)
    | _ => none

theorem placed_cons_file (d : Path) (n : String) (f : SourceFile) (es : List (String × Node)) :
    placed d ((n, .file f) :: es) = (d, n, f) :: placed d es := rfl

theorem mem_placed {d : Path} {es : List (String × Node)} {u : Placed} :
    u ∈ placed d es ↔ u.1 = d ∧ (u.2.1, Node.file u.2.2) ∈ es := by
  obtain ⟨d', n, f⟩ := u
  simp only [placed, List.mem_filterMap]
  constructor
  · intro ⟨⟨m, node⟩, hp, h⟩
    cases node with
    | file g =>
      obtain ⟨rfl, rfl, rfl⟩ := by simpa using h
      exact ⟨rfl, hp⟩
    | directory | symlink | other => cases h
  · intro ⟨hd, hp⟩
    exact ⟨_, hp, by rw [hd]⟩

theorem checkEntry_eq_ok {p : String × Node} {m : StatResult} {s s' : σ} :
    checkEntry (entryOf p) s = .ok m s' ↔ Acceptable p ∧ m = p.2.stat ∧ s' = s := by
  unfold checkEntry entryOf
  simp only [Raising.bind_eq_ok, rejectIf_eq_ok, orRaise_eq_ok, pure_eq_ok]
  constructor
  · intro h
    obtain ⟨_, _, ⟨hname, rfl⟩, m', _, ⟨hm, rfl⟩, _, _, ⟨hreg, rfl⟩, _, _, ⟨hsize, rfl⟩, rfl, rfl⟩ := h
    obtain rfl := Except.ok.inj hm
    obtain ⟨n, node⟩ := p
    cases node with
    | file f =>
      have hle : f.content.length ≤ maxUnitBytes := by simpa [Node.stat, SourceFile.stat] using hsize
      exact ⟨⟨not_not.1 hname, f, rfl, hle⟩, rfl, rfl⟩
    | directory | symlink | other => simp [Node.stat] at hreg
  · intro h'
    obtain ⟨⟨hname, f, hf, hsize⟩, hm, hs⟩ := h'
    refine ⟨(), s, ⟨not_not.2 hname, rfl⟩, _, s, ⟨rfl, rfl⟩, (), s, ⟨?_, rfl⟩, (), s, ⟨?_, rfl⟩, hm,
      hs⟩
    · simp [hf, Node.stat, SourceFile.stat]
    · simpa [hf, Node.stat, SourceFile.stat] using hsize

/-- The caps after one more unit, as the loop checks them: those of its own bucket. -/
theorem Scan.Within.addUnit {sel : Option String} {acc : Scan} {u : Placed} (h : acc.Within)
    (hfiles : (acc.addUnit sel u).totalFiles ≤ maxTotalFiles)
    (hbytes : (acc.addUnit sel u).totalBytes ≤ maxTotalBytes)
    (hbucket : (acc.addUnit sel u).files u.bucket ≤ maxBucketFiles)
    (hsize : (acc.addUnit sel u).bytes u.bucket ≤ maxBucketBytes) :
    (acc.addUnit sel u).Within where
  totalFiles := hfiles
  totalBytes := hbytes
  files p := by
    by_cases hp : u.bucket = p
    · exact hp ▸ hbucket
    · rw [Scan.files_addUnit, if_neg hp]
      exact h.files p
  bytes p := by
    by_cases hp : u.bucket = p
    · exact hp ▸ hsize
    · rw [Scan.bytes_addUnit, if_neg hp]
      exact h.bytes p

/-- The loop over a listing succeeds exactly when it takes every entry and what it counts stays
within the caps. -/
theorem scanEntries_eq_ok {d : Path} {sel : Option String} {es : List (String × Node)}
    {acc acc' : Scan} {s s' : σ} (h : acc.Within) :
    scanEntries d sel (es.map entryOf) acc s = .ok acc' s' ↔
      (∀ p ∈ es, Acceptable p) ∧ ((placed d es).foldl (Scan.addUnit sel) acc).Within ∧
        acc' = (placed d es).foldl (Scan.addUnit sel) acc ∧ s' = s := by
  induction es generalizing acc s with
  | nil => simp [scanEntries, pure_eq_ok, placed, h]
  | cons p es ih =>
    rw [List.map_cons, List.forall_mem_cons]
    unfold scanEntries
    simp only [Raising.bind_eq_ok, checkEntry_eq_ok, rejectIf_eq_ok]
    constructor
    · intro hrun
      obtain ⟨_, _, ⟨hp, rfl, rfl⟩, _, _, ⟨hfiles, rfl⟩, _, _, ⟨hbytes, rfl⟩, _, _, ⟨hbucket, rfl⟩,
        _, _, ⟨hsize, rfl⟩, hrest⟩ := hrun
      obtain ⟨n, node⟩ := p
      obtain ⟨hname, f, rfl, hf⟩ := id hp
      have hnow : (acc.addUnit sel (d, n, f)).Within := h.addUnit (Nat.not_lt.1 hfiles)
        (Nat.not_lt.1 hbytes) (Nat.not_lt.1 hbucket) (Nat.not_lt.1 hsize)
      obtain ⟨hes, hw, hacc, hs⟩ := (ih hnow).1 hrest
      exact ⟨⟨hp, hes⟩, hw, hacc, hs⟩
    · intro h'
      obtain ⟨⟨hp, hes⟩, hw, hacc, hs⟩ := h'
      obtain ⟨n, node⟩ := p
      obtain ⟨hname, f, rfl, hf⟩ := id hp
      rw [placed_cons_file, List.foldl_cons] at hw hacc
      have hnow : (acc.addUnit sel (d, n, f)).Within := Scan.Within.of_foldl hw
      exact ⟨_, s, ⟨hp, rfl, rfl⟩, (), s, ⟨Nat.not_lt.2 hnow.totalFiles, rfl⟩, (), s,
        ⟨Nat.not_lt.2 hnow.totalBytes, rfl⟩, (), s, ⟨Nat.not_lt.2 (hnow.files (prefixOf n)), rfl⟩, (),
        s, ⟨Nat.not_lt.2 (hnow.bytes (prefixOf n)), rfl⟩, (ih hnow).2 ⟨hes, hw, hacc, hs⟩⟩

theorem within_iff_capped {sel : Option String} {us : List Placed} :
    (us.foldl (Scan.addUnit sel) Scan.empty).Within ↔ Capped us := by
  constructor
  · intro h
    refine ⟨?_, ?_, fun p => ?_, fun p => ?_⟩
    · simpa [Scan.foldl_totalFiles, Scan.empty] using h.totalFiles
    · simpa [Scan.foldl_totalBytes, Scan.empty] using h.totalBytes
    · have := h.files p
      rw [Scan.foldl_files] at this
      exact (Nat.le_add_left _ _).trans this
    · have := h.bytes p
      rw [Scan.foldl_bytes] at this
      exact (Nat.le_add_left _ _).trans this
  · exact fun h => h.within sel

/-- A directory the scan accepts: it takes every entry, and together they keep the caps. -/
structure ScannableAt (w : World) (d : Path) (names : List String) : Prop where
  directory : w d = some (.directory names)
  acceptable : ∀ p ∈ w.listing d names, Acceptable p
  capped : Capped (placed d (w.listing d names))

def Scannable (w : World) (d : Path) : Prop := ∃ names, ScannableAt w d names

/-- The counters after the scan of one directory. -/
def World.scan (w : World) (sel : Option String) (d : Path) (names : List String) : Scan :=
  (placed d (w.listing d names)).foldl (Scan.addUnit sel) Scan.empty

section
variable {w : World} {d : Path} {sel : Option String} {u u' : Unit}

theorem lstatDirectory_eq_ok {code : FailCode} {m : StatResult} :
    lstatDirectory (worldOS w) d code u = .ok m u' ↔
      m = ⟨.directory, 0, 0, 0⟩ ∧ ∃ names, w d = some (.directory names) := by
  simp only [lstatDirectory, Raising.bind_eq_ok, callOr_eq_ok, worldOS]
  cases w d with
  | none => simp
  | some node =>
    cases node with
    | directory names => simp [Node.stat, pure_eq_ok]
    | file | symlink | other =>
      simp [Node.stat, SourceFile.stat, reject, throw, throwThe, MonadExceptOf.throw, EStateM.throw]

theorem scandir_eq_ok {names : List String} {code : FailCode} {l : Listing}
    (h : w d = some (.directory names)) :
    callOr code ((worldOS w).scandir d) u = .ok l u' ↔
      l = ⟨(w.listing d names).map entryOf, false⟩ := by
  rw [callOr_eq_ok]
  simp [worldOS, h, eq_comm]

theorem empty_within : Scan.empty.Within :=
  ⟨Nat.zero_le _, Nat.zero_le _, fun _ => Nat.zero_le _, fun _ => Nat.zero_le _⟩

theorem scanSources_eq_ok {acc : Scan} :
    scanSources (worldOS w) sel [d] Scan.empty u = .ok acc u' ↔
      ∃ names, ScannableAt w d names ∧ acc = w.scan sel d names := by
  unfold scanSources
  rw [Raising.bind_eq_ok]
  constructor
  · intro h'
    obtain ⟨_, _, hdir, h⟩ := h'
    obtain ⟨-, names, hd⟩ := lstatDirectory_eq_ok.1 hdir
    obtain ⟨l, _, hlist, h⟩ := Raising.bind_eq_ok.1 h
    obtain rfl := (scandir_eq_ok hd).1 hlist
    obtain ⟨acc', _, hscan, h⟩ := Raising.bind_eq_ok.1 h
    obtain ⟨hes, hw, rfl, -⟩ := (scanEntries_eq_ok empty_within).1 hscan
    obtain ⟨_, _, -, h⟩ := Raising.bind_eq_ok.1 h
    exact ⟨names, ⟨hd, hes, within_iff_capped.1 hw⟩, (pure_eq_ok.1 h).1⟩
  · intro h'
    obtain ⟨names, h, hacc⟩ := h'
    refine ⟨_, (), lstatDirectory_eq_ok.2 ⟨rfl, names, h.directory⟩, ?_⟩
    refine Raising.bind_eq_ok.2 ⟨_, (), (scandir_eq_ok h.directory).2 rfl, ?_⟩
    refine Raising.bind_eq_ok.2 ⟨acc, (), (scanEntries_eq_ok empty_within).2
      ⟨h.acceptable, within_iff_capped.2 h.capped, hacc, rfl⟩, ?_⟩
    exact Raising.bind_eq_ok.2 ⟨(), (), rejectIf_eq_ok.2 ⟨by simp, rfl⟩, pure_eq_ok.2 ⟨rfl, rfl⟩⟩

theorem scanPrivateSources_eq_ok {r : PrivateInventory × Dict String (List MUnit)} :
    scanPrivateSources (worldOS w) [d] sel u = .ok r u' ↔
      ∃ names, ScannableAt w d names ∧
        r = ((w.scan sel d names).inventory [d], (w.scan sel d names).selected) := by
  unfold scanPrivateSources
  rw [Raising.bind_eq_ok]
  constructor
  · intro ⟨acc, _, hscan, h⟩
    obtain ⟨names, hat, rfl⟩ := scanSources_eq_ok.1 hscan
    exact ⟨names, hat, (pure_eq_ok.1 h).1⟩
  · intro ⟨names, h, hr⟩
    exact ⟨_, (), scanSources_eq_ok.2 ⟨names, h, rfl⟩, pure_eq_ok.2 ⟨hr, rfl⟩⟩

theorem scanPrivateInventory_eq_ok {inventory : PrivateInventory} :
    scanPrivateInventory (worldOS w) [d] u = .ok inventory u' ↔
      ∃ names, ScannableAt w d names ∧ inventory = (w.scan none d names).inventory [d] := by
  unfold scanPrivateInventory
  rw [Raising.bind_eq_ok]
  constructor
  · intro ⟨r, _, hscan, h⟩
    obtain ⟨names, hat, rfl⟩ := scanPrivateSources_eq_ok.1 hscan
    exact ⟨names, hat, (pure_eq_ok.1 h).1⟩
  · intro ⟨names, h, hinv⟩
    exact ⟨_, (), scanPrivateSources_eq_ok.2 ⟨names, h, rfl⟩, pure_eq_ok.2 ⟨hinv, rfl⟩⟩

/-- The private scan of one directory succeeds exactly when it is scannable. -/
theorem scanPrivateInventory_iff :
    (∃ inventory, scanPrivateInventory (worldOS w) [d] u = .ok inventory u') ↔ Scannable w d := by
  constructor
  · intro ⟨_, h⟩
    obtain ⟨names, h, -⟩ := scanPrivateInventory_eq_ok.1 h
    exact ⟨names, h⟩
  · intro ⟨names, h⟩
    exact ⟨_, scanPrivateInventory_eq_ok.2 ⟨names, h, rfl⟩⟩

end

/-! ## The same directory elsewhere -/

/-- What the caps are about. -/
def Placed.key (u : Placed) : String × Nat := (u.bucket, u.size)

theorem capped_of_perm {us us' : List Placed} (hp : (us.map Placed.key).Perm (us'.map Placed.key))
    (h : Capped us) : Capped us' := by
  have hsize : ∀ vs : List Placed, vs.map Placed.size = (vs.map Placed.key).map Prod.snd := by
    intro vs
    rw [List.map_map]
    rfl
  have hfilter : ∀ (vs : List Placed) (p : String),
      (vs.filter (·.bucket = p)).map Placed.key = (vs.map Placed.key).filter (·.1 = p) := by
    intro vs p
    rw [List.filter_map]
    rfl
  refine ⟨?_, ?_, fun p => ?_, fun p => ?_⟩
  · have hlen := hp.length_eq
    rw [List.length_map, List.length_map] at hlen
    exact hlen ▸ h.totalFiles
  · rw [hsize, ← (hp.map Prod.snd).sum_eq, ← hsize]
    exact h.totalBytes
  · have := ((hp.filter (·.1 = p)).length_eq)
    rw [← hfilter, ← hfilter, List.length_map, List.length_map] at this
    exact this ▸ h.files p
  · rw [hsize, hfilter, ← ((hp.filter (·.1 = p)).map Prod.snd).sum_eq, ← hfilter, ← hsize]
    exact h.bytes p

/-- The same thing in two checkouts: the content of a file, the names in a directory. -/
def Node.Same : Node → Node → Prop
  | .file f, .file g => f.content = g.content
  | .directory names, .directory names' => names.Perm names'
  | .symlink, .symlink => True
  | .other, .other => True
  | _, _ => False

/-- Two checkouts of one tree: the same thing at each path under the one and the other root. -/
def SameTree (w : World) (root : Path) (w' : World) (root' : Path) : Prop :=
  ∀ r, Option.Rel Node.Same (w (root ++ r)) (w' (root' ++ r))

theorem SameTree.under {w w' : World} {root root' : Path} (h : SameTree w root w' root') (r : Path) :
    SameTree w (root ++ r) w' (root' ++ r) := by
  intro q
  rw [List.append_assoc, List.append_assoc]
  exact h (r ++ q)

theorem mem_listing {w : World} {d : Path} {names : List String} {p : String × Node} :
    p ∈ w.listing d names ↔ p.1 ∈ names ∧ w (d ++ [p.1]) = some p.2 := by
  obtain ⟨n, node⟩ := p
  simp only [World.listing, List.mem_filterMap, Option.map_eq_some_iff, Prod.mk.injEq]
  constructor
  · intro ⟨m, hm, node', hnode, hn, hnode'⟩
    rw [← hn, ← hnode']
    exact ⟨hm, hnode⟩
  · intro ⟨hm, hnode⟩
    exact ⟨n, hm, node, hnode, rfl, rfl⟩

/-- What the caps count of an entry. -/
def World.keyAt (w : World) (d : Path) (n : String) : Option (String × Nat) :=
  match w (d ++ [n]) with
  | some (.file f) => some (prefixOf n, f.content.length)
  | _ => none

theorem placed_keys (w : World) (d : Path) (names : List String) :
    (placed d (w.listing d names)).map Placed.key = names.filterMap (w.keyAt d) := by
  rw [placed, World.listing, List.filterMap_filterMap, List.map_filterMap]
  refine List.filterMap_congr fun n _ => ?_
  unfold World.keyAt
  cases w (d ++ [n]) with
  | none => rfl
  | some node => cases node <;> rfl

theorem SameTree.at_some {w w' : World} {d d' : Path} (h : SameTree w d w' d') {r : Path}
    {node : Node} (hnode : w (d ++ r) = some node) :
    ∃ node', w' (d' ++ r) = some node' ∧ node.Same node' := by
  have hr := h r
  rw [hnode] at hr
  generalize w' (d' ++ r) = x at hr
  cases hr with
  | some h => exact ⟨_, rfl, h⟩

theorem Node.Same.symm {a b : Node} (h : a.Same b) : b.Same a := by
  cases a <;> cases b <;> first | exact Eq.symm h | exact List.Perm.symm h | exact h

theorem SameTree.symm {w w' : World} {d d' : Path} (h : SameTree w d w' d') :
    SameTree w' d' w d := by
  intro r
  have hr := h r
  generalize w (d ++ r) = x at hr ⊢
  generalize w' (d' ++ r) = y at hr ⊢
  cases hr with
  | none => exact .none
  | some h => exact .some h.symm

theorem SameTree.keyAt {w w' : World} {d d' : Path} (h : SameTree w d w' d') (n : String) :
    w.keyAt d n = w'.keyAt d' n := by
  have hr := h [n]
  unfold World.keyAt
  generalize w (d ++ [n]) = x at hr ⊢
  generalize w' (d' ++ [n]) = y at hr ⊢
  cases hr with
  | none => rfl
  | @some a b hab =>
    cases a <;> cases b <;> first | cases hab; done | skip
    · have hcontent : _ = _ := hab
      dsimp only
      rw [hcontent]
    all_goals rfl

theorem Acceptable.same {n : String} {a b : Node} (h : Acceptable (n, a)) (hab : a.Same b) :
    Acceptable (n, b) := by
  obtain ⟨hname, f, rfl, hf⟩ := h
  cases b with
  | file g =>
    have hcontent : f.content = g.content := hab
    exact ⟨hname, g, rfl, hcontent ▸ hf⟩
  | directory | symlink | other => cases hab

theorem SameTree.scannable {w w' : World} {d d' : Path} (hsame : SameTree w d w' d')
    (h : Scannable w d) : Scannable w' d' := by
  obtain ⟨names, h⟩ := h
  obtain ⟨node', hnode', hnames⟩ := hsame.at_some (r := []) (by rw [List.append_nil, h.directory])
  rw [List.append_nil] at hnode'
  cases node' with
  | file | symlink | other => cases hnames
  | directory names' =>
    have hperm : names.Perm names' := hnames
    refine ⟨names', hnode', ?_, ?_⟩
    · intro p hp
      obtain ⟨hn, hp⟩ := mem_listing.1 hp
      obtain ⟨node, hnode, hp'⟩ := hsame.symm.at_some hp
      exact (h.acceptable (p.1, node) (mem_listing.2 ⟨hperm.mem_iff.2 hn, hnode⟩)).same hp'.symm
    · refine capped_of_perm ?_ h.capped
      rw [placed_keys, placed_keys, List.filterMap_congr fun n _ => hsame.keyAt n]
      exact hperm.filterMap _

end MpcHunt.MaterializeWindow
