/-
The scans over an operating system that shows a file system holding still: it
may list a directory in any order, another one at each scan, and hand out a
file in any chunks. Whether a scan succeeds is decided by the file system, and
what it returns is a fold over the units in some order.
-/
import MpcHunt.Lib.Together
import MpcHunt.Window.WorldScan
import Mathlib

namespace MpcHunt.MaterializeWindow

open Raising

variable {σ α : Type}

/-! ## What is shown -/

def World.IsDirectory (w : World) (d : Path) : Prop := ∃ names, w d = some (.directory names)

/-- The entries of a directory, if it is one. -/
def World.entries (w : World) (d : Path) : List (String × Node) :=
  match w d with
  | some (.directory names) => w.listing d names
  | _ => []

/-- The file is handed out in chunks that make its content. -/
def SourceFile.Handed (f : SourceFile) (session : ReadSession) : Prop :=
  ∃ chunks : List Bytes, [] ∉ chunks ∧ chunks.flatten = f.content ∧
    session = ⟨.ok f.stat, chunks.map .ok, .ok f.stat⟩

/-- The calls on single paths answer from the world. -/
structure ShowsFiles (w : World) (os : OS σ) (I : σ → Prop) : Prop where
  lstat : ∀ path s, I s → (os.lstat path s).1 = ((worldOS w).lstat path ()).1 ∧ I (os.lstat path s).2
  openRead : ∀ path f s, w path = some (.file f) → I s →
    (∃ session, f.Handed session ∧ (os.openRead path s).1 = .ok session) ∧ I (os.openRead path s).2

/-- And a directory is listed in some order. -/
structure Shows (w : World) (os : OS σ) (I : σ → Prop) : Prop extends ShowsFiles w os I where
  scandir : ∀ path s, w.IsDirectory path → I s →
    (∃ es : List (String × Node), es.Perm (w.entries path) ∧ (os.scandir path s).1 = .ok ⟨es.map entryOf, false⟩) ∧
      I (os.scandir path s).2

theorem World.mem_entries {w : World} {d : Path} {p : String × Node} (h : p ∈ w.entries d) :
    w (d ++ [p.1]) = some p.2 := by
  unfold World.entries at h
  split at h
  · exact (mem_listing.1 h).2
  · cases h

/-! ## Steps -/

section
variable {I : σ → Prop}

theorem decides_rejectIf {bad : Prop} [Decidable bad] {code : FailCode} :
    Decides I (rejectIf bad code) (¬ bad) fun _ => I := by
  refine (Decides.of_eq_ok (v := ()) fun s a s' => ?_).mono Iff.rfl fun _ _ _ h => h.1
  rw [rejectIf_eq_ok]
  exact and_congr_right fun _ => ⟨fun hend => ⟨rfl, hend⟩, fun hend => hend.2⟩

theorem decides_callOr {code : FailCode} {f : σ → Except OSError α × σ} {C : Prop}
    {Q : α → Prop} (hC : C → ∀ s, I s → (∃ a, Q a ∧ (f s).1 = .ok a) ∧ I (f s).2)
    (hN : ¬ C → ∀ s, I s → ∃ e, (f s).1 = .error e) :
    Decides I (callOr code f) C fun a s => I s ∧ Q a := by
  intro s hs
  unfold callOr
  by_cases h : C
  · obtain ⟨⟨a, ha, hval⟩, hend⟩ := hC h s hs
    generalize f s = r at hval hend
    obtain ⟨x, s'⟩ := r
    obtain rfl : x = .ok a := hval
    exact .inl ⟨h, a, s', rfl, hend, ha⟩
  · obtain ⟨e, hval⟩ := hN h s hs
    generalize f s = r at hval
    obtain ⟨x, s'⟩ := r
    obtain rfl : x = .error e := hval
    exact .inr ⟨h, _, s', rfl⟩

/-- The checks of one entry. -/
theorem decides_checkEntry (p : String × Node) :
    Decides I (checkEntry (entryOf p)) (Acceptable p) fun m s => I s ∧ m = p.2.stat :=
  Decides.of_eq_ok fun _ _ _ => checkEntry_eq_ok

end

/-! ## Files -/

theorem readCapped_chunks {chunks : List Bytes} (hne : [] ∉ chunks) {acc : Bytes}
    (h : (acc ++ chunks.flatten).length ≤ maxUnitBytes) :
    readCapped (chunks.map .ok) acc = .ok (acc ++ chunks.flatten) := by
  induction chunks generalizing acc with
  | nil =>
    rw [List.flatten_nil, List.append_nil]
    rfl
  | cons chunk rest ih =>
    cases chunk with
    | nil => exact absurd List.mem_cons_self hne
    | cons b chunk =>
      rw [List.flatten_cons, ← List.append_assoc] at h ⊢
      have hle : ¬ (acc ++ b :: chunk).length > maxUnitBytes := by
        rw [List.length_append] at h
        omega
      rw [List.map_cons, readCapped, if_neg hle]
      exact ih (fun hmem => hne (List.mem_cons_of_mem _ hmem)) h

section
variable {w : World} {os : OS σ} {I : σ → Prop} {sha1 : Bytes → String}

theorem decides_lstat (h : ShowsFiles w os I) {code : FailCode} (path : Path) :
    Decides I (callOr code (os.lstat path)) (∃ node, w path = some node)
      fun m s => I s ∧ ∃ node, w path = some node ∧ m = node.stat := by
  refine decides_callOr (fun hnode s hs => ?_) fun hnone s hs => ?_
  · obtain ⟨node, hnode⟩ := hnode
    obtain ⟨hval, hend⟩ := h.lstat path s hs
    refine ⟨⟨node.stat, ⟨node, hnode, rfl⟩, ?_⟩, hend⟩
    rw [hval]
    simp only [worldOS, hnode]
  · have hpath : w path = none := Option.eq_none_iff_forall_not_mem.2 fun node hnode =>
      hnone ⟨node, hnode⟩
    refine ⟨.osError, ?_⟩
    rw [(h.lstat path s hs).1]
    simp only [worldOS, hpath]

theorem decides_lstatDirectory (h : ShowsFiles w os I) (path : Path) (code : FailCode) :
    Decides I (lstatDirectory os path code) (w.IsDirectory path) fun _ => I := by
  have hrest : ∀ m : StatResult, Decides (fun s => I s ∧ ∃ node, w path = some node ∧ m = node.stat)
      (if m.type = .directory then pure m else reject code) (w.IsDirectory path) fun _ => I := by
    intro m
    refine Decides.of_fact fun ⟨node, hnode, hm⟩ => ?_
    cases node with
    | directory names =>
      rw [if_pos (by rw [hm]; rfl)]
      have hdir : w.IsDirectory path := ⟨names, hnode⟩
      exact Decides.pure hdir fun _ hs => hs
    | file | symlink | other =>
      rw [if_neg (by rw [hm]; simp [Node.stat, SourceFile.stat])]
      have hnot : ¬ w.IsDirectory path := by
        intro hdir
        obtain ⟨names, hd⟩ := hdir
        rw [hnode] at hd
        cases hd
      exact Decides.throw hnot _
  refine (Decides.bind (decides_lstat h path) fun _ m => hrest m).mono ?_ fun _ _ _ hs => hs
  have hsome : w.IsDirectory path → ∃ node, w path = some node := by
    intro hdir
    obtain ⟨names, hd⟩ := hdir
    exact ⟨_, hd⟩
  exact and_iff_right_of_imp hsome

/-- A regular file no larger than a unit may be is hashed. -/
theorem decides_hashRegularFile (h : ShowsFiles w os I) {path : Path} {f : SourceFile}
    (hf : w path = some (.file f)) (hsize : f.content.length ≤ maxUnitBytes) :
    Decides I (hashRegularFile os sha1 path f.stat) True
      fun r s => I s ∧ r = (sha1 f.content, f.content.length) := by
  intro s hs
  obtain ⟨⟨session, ⟨chunks, hne, hcontent, rfl⟩, hval⟩, hend⟩ := h.openRead path f s hf hs
  have hopen : callOr .sourceOpen (os.openRead path) s =
      .ok ⟨.ok f.stat, chunks.map .ok, .ok f.stat⟩ (os.openRead path s).2 := callOr_ok (Prod.ext hval rfl)
  have hread : readCapped (chunks.map .ok) [] = .ok f.content := by
    rw [readCapped_chunks hne (by rw [List.nil_append, hcontent]; exact hsize), List.nil_append, hcontent]
  refine .inl ⟨trivial, _, (os.openRead path s).2, ?_, hend, rfl⟩
  rw [hashRegularFile, bind_ok hopen, bind_ok (orRaise_ok rfl _),
    bind_ok (rejectIf_ok (by simp [SourceFile.stat]) _), bind_ok (rejectIf_ok (by simp) _),
    bind_ok (liftExcept_ok hread _), bind_ok (orRaise_ok rfl _),
    bind_ok (rejectIf_ok (by simp [SourceFile.stat]) _)]
  rfl

end

/-! ## The private scan -/

/-- The caps are kept in one order as in another. -/
theorem within_of_perm {sel sel' : Option String} {us us' : List Placed} {acc : Scan}
    (hp : us.Perm us') (h : (us.foldl (Scan.addUnit sel) acc).Within) :
    (us'.foldl (Scan.addUnit sel') acc).Within where
  totalFiles := by
    rw [Scan.foldl_totalFiles, ← hp.length_eq, ← Scan.foldl_totalFiles sel]
    exact h.totalFiles
  totalBytes := by
    rw [Scan.foldl_totalBytes, ← (hp.map Placed.size).sum_eq, ← Scan.foldl_totalBytes sel]
    exact h.totalBytes
  files p := by
    rw [Scan.foldl_files, ← (hp.filter _).length_eq, ← Scan.foldl_files sel]
    exact h.files p
  bytes p := by
    rw [Scan.foldl_bytes, ← ((hp.filter _).map Placed.size).sum_eq, ← Scan.foldl_bytes sel]
    exact h.bytes p

/-- The files in some directories. -/
def World.placed (w : World) (sources : List Path) : List Placed :=
  sources.flatMap fun d => MaterializeWindow.placed d (w.entries d)

section
variable {w : World} {os : OS σ} {I : σ → Prop} {sel : Option String}

/-- A directory the scan takes, the caps apart. -/
def World.Takes (w : World) (d : Path) : Prop := w.IsDirectory d ∧ ∀ p ∈ w.entries d, Acceptable p

theorem decides_scandir (h : Shows w os I) {d : Path} (hd : w.IsDirectory d) (code : FailCode) :
    Decides I (callOr code (os.scandir d)) True fun l s => I s ∧
      ∃ es : List (String × Node), es.Perm (w.entries d) ∧ l = ⟨es.map entryOf, false⟩ := by
  refine decides_callOr (fun _ s hs => ?_) fun hn => absurd trivial hn
  obtain ⟨⟨es, hes, hval⟩, hend⟩ := h.scandir d s hd hs
  exact ⟨⟨_, ⟨es, hes, rfl⟩, hval⟩, hend⟩

theorem decides_scanEntries {d : Path} {es : List (String × Node)} {acc : Scan} (h : acc.Within) :
    Decides I (scanEntries d sel (es.map entryOf) acc)
      ((∀ p ∈ es, Acceptable p) ∧ ((placed d es).foldl (Scan.addUnit sel) acc).Within)
      fun acc' s => I s ∧ acc' = (placed d es).foldl (Scan.addUnit sel) acc :=
  Decides.of_eq_ok fun s acc' s' => by rw [scanEntries_eq_ok h, and_assoc]

/-- The scan of one directory, and what goes on from there with what it has counted. -/
theorem decides_scanDirectory (h : Shows w os I) {d : Path} {acc : Scan} (hacc : acc.Within)
    {f : Scan → Py σ α} {D : Prop} {Q : α → σ → Prop}
    (hf : ∀ es : List (String × Node), es.Perm (w.entries d) →
      ((placed d es).foldl (Scan.addUnit sel) acc).Within →
        Decides I (f ((placed d es).foldl (Scan.addUnit sel) acc)) D Q) :
    Decides I (do
        let _ ← lstatDirectory os d .sourceDirectory
        let listing ← callOr .sourceScan (os.scandir d)
        let acc' ← scanEntries d sel listing.entries acc
        rejectIf (listing.failed) .sourceScan
        f acc')
      (w.Takes d ∧ ((placed d (w.entries d)).foldl (Scan.addUnit sel) acc).Within ∧ D) Q := by
  have hlisted : ∀ l : Listing, Decides
      (fun s => I s ∧ ∃ es : List (String × Node), es.Perm (w.entries d) ∧ l = ⟨es.map entryOf, false⟩)
      (do
        let acc' ← scanEntries d sel l.entries acc
        rejectIf (l.failed) .sourceScan
        f acc')
      (((∀ p ∈ w.entries d, Acceptable p) ∧
        ((placed d (w.entries d)).foldl (Scan.addUnit sel) acc).Within) ∧ D) Q := by
    intro l
    refine Decides.of_fact fun ⟨es, hes, hl⟩ => ?_
    have hplaced : (placed d es).Perm (placed d (w.entries d)) := hes.filterMap _
    have hcounted : ∀ acc' : Scan, ((placed d es).foldl (Scan.addUnit sel) acc).Within → Decides
        (fun s => I s ∧ acc' = (placed d es).foldl (Scan.addUnit sel) acc)
        (do
          rejectIf (l.failed) .sourceScan
          f acc') D Q := by
      intro acc' hw
      refine Decides.of_fact fun hacc' => ?_
      rw [hacc', hl]
      refine (Decides.bind decides_rejectIf fun _ _ => hf es hes hw).mono ?_ fun _ _ _ hend => hend
      exact and_iff_right (by simp)
    rw [hl] at hcounted ⊢
    refine (Decides.bind (decides_scanEntries hacc) fun hC acc' => hcounted acc' hC.2).mono ?_
      fun _ _ _ hend => hend
    refine and_congr_left fun _ => and_congr (forall_congr' fun p => ?_) ?_
    · exact imp_congr_left hes.mem_iff
    · exact ⟨within_of_perm hplaced, within_of_perm hplaced.symm⟩
  refine (Decides.bind (decides_lstatDirectory h.toShowsFiles d .sourceDirectory) fun hd _ =>
    Decides.bind (decides_scandir h hd .sourceScan) fun _ => hlisted).mono ?_ fun _ _ _ hend => hend
  rw [true_and, World.Takes]
  simp only [and_assoc]

/-- The scan of several directories takes them all or fails, whatever the order of their entries:
it has folded over their files in some order. -/
theorem decides_scanSources (h : Shows w os I) (sources : List Path) {acc : Scan} (hacc : acc.Within) :
    Decides I (scanSources os sel sources acc)
      ((∀ d ∈ sources, w.Takes d) ∧ ((w.placed sources).foldl (Scan.addUnit sel) acc).Within)
      fun acc' s => I s ∧ ∃ us : List Placed, us.Perm (w.placed sources) ∧
        acc' = us.foldl (Scan.addUnit sel) acc := by
  induction sources generalizing acc with
  | nil =>
    exact Decides.pure ⟨(fun _ hd => absurd hd List.not_mem_nil), hacc⟩
      fun s hs => ⟨hs, [], .nil, rfl⟩
  | cons d rest ih =>
    have hsplit : w.placed (d :: rest) = placed d (w.entries d) ++ w.placed rest := List.flatMap_cons
    rw [hsplit, List.foldl_append]
    have hone : ∀ es : List (String × Node), es.Perm (w.entries d) →
        ((placed d es).foldl (Scan.addUnit sel) acc).Within → Decides I
          (scanSources os sel rest ((placed d es).foldl (Scan.addUnit sel) acc))
          ((∀ d' ∈ rest, w.Takes d') ∧ ((w.placed rest).foldl (Scan.addUnit sel)
            ((placed d (w.entries d)).foldl (Scan.addUnit sel) acc)).Within)
          fun acc' s => I s ∧ ∃ us : List Placed,
            us.Perm (placed d (w.entries d) ++ w.placed rest) ∧
              acc' = us.foldl (Scan.addUnit sel) acc := by
      intro es hes hw
      have hplaced : (placed d es).Perm (placed d (w.entries d)) := hes.filterMap _
      refine (ih hw).mono (and_congr_right fun _ => ?_) fun _ acc' s hend => ?_
      · rw [← List.foldl_append, ← List.foldl_append]
        have hall := hplaced.append_right (w.placed rest)
        exact ⟨within_of_perm hall, within_of_perm hall.symm⟩
      · obtain ⟨hs, us, hus, hacc'⟩ := hend
        refine ⟨hs, placed d es ++ us, hplaced.append hus, ?_⟩
        rw [hacc', List.foldl_append]
    refine (decides_scanDirectory h hacc hone).mono ?_ fun _ _ _ hend => hend
    rw [List.forall_mem_cons, and_assoc]
    refine and_congr_right fun _ => ?_
    exact and_iff_right_of_imp fun hrest => hrest.2.of_foldl

/-- The files of the sources, within the caps. -/
def World.Private (w : World) (sources : List Path) : Prop :=
  (∀ d ∈ sources, w.Takes d) ∧ Capped (w.placed sources)

/-- The counters of a scan of these files. -/
def scanOf (sel : Option String) (us : List Placed) : Scan := us.foldl (Scan.addUnit sel) Scan.empty

theorem decides_scanPrivateSources (h : Shows w os I) (sources : List Path) :
    Decides I (scanPrivateSources os sources sel) (w.Private sources) fun r s => I s ∧
      ∃ us : List Placed, us.Perm (w.placed sources) ∧
        r = ((scanOf sel us).inventory sources, (scanOf sel us).selected) := by
  refine (Decides.bind (D := True) (decides_scanSources h sources empty_within) fun _ acc => ?_).mono ?_
    fun _ _ _ hend => hend
  · refine Decides.of_fact fun ⟨us, hus, hacc⟩ => Decides.pure trivial fun s hs => ?_
    exact ⟨hs, us, hus, by rw [hacc]; rfl⟩
  · rw [and_true, within_iff_capped]
    rfl

end

/-! ## The inventory -/

theorem keys_bucketBytes (sel : Option String) (us : List Placed) {acc : Scan}
    (h : acc.bucketBytes.keys = acc.bucketFiles.keys) :
    (us.foldl (Scan.addUnit sel) acc).bucketBytes.keys =
      (us.foldl (Scan.addUnit sel) acc).bucketFiles.keys := by
  induction us generalizing acc with
  | nil => exact h
  | cons u us ih =>
    refine ih ?_
    simp only [Scan.addUnit, Scan.add]
    by_cases hmem : prefixOf u.2.1 ∈ acc.bucketFiles.keys
    · rw [Dict.keys_set_of_mem hmem, Dict.keys_set_of_mem (h ▸ hmem), h]
    · rw [Dict.set_of_not_mem hmem, Dict.set_of_not_mem (h ▸ hmem), Dict.keys_append, Dict.keys_append, h]
      rfl

theorem bucketFiles_of_perm {sel sel' : Option String} {us us' : List Placed} (hp : us.Perm us') :
    sorted (scanOf sel us).bucketFiles.keys = sorted (scanOf sel' us').bucketFiles.keys := by
  have hempty : Scan.empty.bucketFiles.keys.Nodup := List.nodup_nil
  refine sorted_congr (nodup_bucketFiles_foldl _ _ _ hempty) (nodup_bucketFiles_foldl _ _ _ hempty)
    fun p => ?_
  rw [scanOf, scanOf, mem_bucketFiles_foldl, mem_bucketFiles_foldl]
  exact or_congr_right (exists_congr fun u => and_congr_left fun _ => hp.mem_iff)

/-- The inventory is that of the files, not of the order they were found in. -/
theorem inventory_of_perm {sel sel' : Option String} {us us' : List Placed} (hp : us.Perm us')
    (sources : List Path) :
    (scanOf sel us).inventory sources = (scanOf sel' us').inventory sources := by
  have hbytes : ∀ (sel : Option String) (us : List Placed),
      (scanOf sel us).bucketBytes.keys = (scanOf sel us).bucketFiles.keys :=
    fun sel us => keys_bucketBytes sel us rfl
  have hfiles : ∀ p, (scanOf sel us).files p = (scanOf sel' us').files p := fun p => by
    rw [scanOf, scanOf, Scan.foldl_files, Scan.foldl_files, (hp.filter _).length_eq]
  have hsizes : ∀ p, (scanOf sel us).bytes p = (scanOf sel' us').bytes p := fun p => by
    rw [scanOf, scanOf, Scan.foldl_bytes, Scan.foldl_bytes, ((hp.filter _).map Placed.size).sum_eq]
  unfold Scan.inventory
  rw [hbytes, hbytes, bucketFiles_of_perm hp, PrivateInventory.mk.injEq]
  refine ⟨rfl, rfl, ?_, ?_, ?_, ?_⟩
  · rw [scanOf, scanOf, Scan.foldl_totalFiles, Scan.foldl_totalFiles, hp.length_eq]
  · rw [scanOf, scanOf, Scan.foldl_totalBytes, Scan.foldl_totalBytes, (hp.map Placed.size).sum_eq]
  · exact List.map_congr_left fun p _ => congrArg (Prod.mk p) (hfiles p)
  · exact List.map_congr_left fun p _ => congrArg (Prod.mk p) (hsizes p)

end MpcHunt.MaterializeWindow
