/-
The scan of the private sources when they hold still and keep the caps: it
counts every unit (`scanSources_static`), a second scan finds the inventory
of the first (`inventory_foldl`), and the bucket that is validated holds the
names of its prefix (`validatePrivateBucket_static`).
-/
import MpcHunt.Window.StaticTree
import Mathlib

namespace MpcHunt.MaterializeWindow

/-- A unit where it lies: its directory, its name, its file. -/
abbrev Placed := Path × String × SourceFile

def Placed.size (u : Placed) : Nat := u.2.2.content.length

def Placed.bucket (u : Placed) : String := prefixOf u.2.1

/-- Counting a unit of the tree. -/
def Scan.addUnit (sel : Option String) (acc : Scan) (u : Placed) : Scan :=
  acc.add u.1 sel u.2.1 u.size

/-- Files counted in a bucket. -/
def Scan.files (acc : Scan) (p : String) : Nat := (acc.bucketFiles.get? p).getD 0

/-- Bytes counted in a bucket. -/
def Scan.bytes (acc : Scan) (p : String) : Nat := (acc.bucketBytes.get? p).getD 0

theorem Scan.files_addUnit (sel : Option String) (acc : Scan) (u : Placed) (p : String) :
    (acc.addUnit sel u).files p = acc.files p + if u.bucket = p then 1 else 0 := by
  simp only [Scan.files, Scan.addUnit, Scan.add, Placed.bucket, Dict.get?_set]
  by_cases h : p = prefixOf u.2.1
  · simp [h]
  · simp [h, Ne.symm h]

theorem Scan.bytes_addUnit (sel : Option String) (acc : Scan) (u : Placed) (p : String) :
    (acc.addUnit sel u).bytes p = acc.bytes p + if u.bucket = p then u.size else 0 := by
  simp only [Scan.bytes, Scan.addUnit, Scan.add, Placed.bucket, Dict.get?_set]
  by_cases h : p = prefixOf u.2.1
  · simp [h]
  · simp [h, Ne.symm h]

/-! ## The caps -/

/-- The counters are within the caps. -/
structure Scan.Within (acc : Scan) : Prop where
  totalFiles : acc.totalFiles ≤ maxTotalFiles
  totalBytes : acc.totalBytes ≤ maxTotalBytes
  files : ∀ p, acc.files p ≤ maxBucketFiles
  bytes : ∀ p, acc.bytes p ≤ maxBucketBytes

theorem Scan.Within.of_addUnit {sel : Option String} {acc : Scan} {u : Placed}
    (h : (acc.addUnit sel u).Within) : acc.Within where
  totalFiles := Nat.le_trans (Nat.le_add_right _ _) h.totalFiles
  totalBytes := Nat.le_trans (Nat.le_add_right _ _) h.totalBytes
  files p := Nat.le_trans (Nat.le_add_right _ _) (Scan.files_addUnit sel acc u p ▸ h.files p)
  bytes p := Nat.le_trans (Nat.le_add_right _ _) (Scan.bytes_addUnit sel acc u p ▸ h.bytes p)

theorem Scan.Within.of_foldl {sel : Option String} {us : List Placed} : ∀ {acc : Scan},
    (us.foldl (Scan.addUnit sel) acc).Within → acc.Within := by
  induction us with
  | nil => exact fun h => h
  | cons u us ih => exact fun h => (ih h).of_addUnit

/-- What a scan of `us` counts stays within the caps. -/
structure Capped (us : List Placed) : Prop where
  totalFiles : us.length ≤ maxTotalFiles
  totalBytes : (us.map Placed.size).sum ≤ maxTotalBytes
  files : ∀ p, (us.filter (·.bucket = p)).length ≤ maxBucketFiles
  bytes : ∀ p, ((us.filter (·.bucket = p)).map Placed.size).sum ≤ maxBucketBytes

/-- What keeps the caps of one bucket keeps them all. -/
theorem capped_of_bucket {us : List Placed} (hfiles : us.length ≤ maxBucketFiles)
    (hbytes : (us.map Placed.size).sum ≤ maxBucketBytes) : Capped us where
  totalFiles := hfiles.trans (by decide)
  totalBytes := hbytes.trans (by decide)
  files _ := (List.length_filter_le _ _).trans hfiles
  bytes _ := ((List.filter_sublist.map Placed.size).sum_le_sum (by simp)).trans hbytes

theorem Scan.foldl_totalFiles (sel : Option String) (us : List Placed) (acc : Scan) :
    (us.foldl (Scan.addUnit sel) acc).totalFiles = acc.totalFiles + us.length := by
  induction us generalizing acc with
  | nil => rfl
  | cons u us ih => rw [List.foldl_cons, ih, List.length_cons]; simp [Scan.addUnit, Scan.add]; omega

theorem Scan.foldl_totalBytes (sel : Option String) (us : List Placed) (acc : Scan) :
    (us.foldl (Scan.addUnit sel) acc).totalBytes = acc.totalBytes + (us.map Placed.size).sum := by
  induction us generalizing acc with
  | nil => rfl
  | cons u us ih =>
    rw [List.foldl_cons, ih, List.map_cons, List.sum_cons]; simp [Scan.addUnit, Scan.add]; omega

theorem Scan.foldl_files (sel : Option String) (p : String) (us : List Placed) (acc : Scan) :
    (us.foldl (Scan.addUnit sel) acc).files p =
      acc.files p + (us.filter (·.bucket = p)).length := by
  induction us generalizing acc with
  | nil => rfl
  | cons u us ih =>
    rw [List.foldl_cons, ih, Scan.files_addUnit, List.filter_cons]
    by_cases h : u.bucket = p
    · simp [h]; omega
    · simp [h]

theorem Scan.foldl_bytes (sel : Option String) (p : String) (us : List Placed) (acc : Scan) :
    (us.foldl (Scan.addUnit sel) acc).bytes p =
      acc.bytes p + ((us.filter (·.bucket = p)).map Placed.size).sum := by
  induction us generalizing acc with
  | nil => rfl
  | cons u us ih =>
    rw [List.foldl_cons, ih, Scan.bytes_addUnit, List.filter_cons]
    by_cases h : u.bucket = p
    · simp [h]; omega
    · simp [h]

theorem Capped.within {us : List Placed} (h : Capped us) (sel : Option String) :
    (us.foldl (Scan.addUnit sel) Scan.empty).Within where
  totalFiles := by rw [Scan.foldl_totalFiles]; simpa [Scan.empty] using h.totalFiles
  totalBytes := by rw [Scan.foldl_totalBytes]; simpa [Scan.empty] using h.totalBytes
  files p := by rw [Scan.foldl_files]; simpa [Scan.empty, Scan.files] using h.files p
  bytes p := by rw [Scan.foldl_bytes]; simpa [Scan.empty, Scan.bytes] using h.bytes p

/-! ## The scan -/

variable {t : Tree} {sha1 : Bytes → String}

theorem scanEntries_static (d : Path) (sel : Option String) (es : Dict String SourceFile)
    (hgood : ∀ p ∈ es, GoodUnit sha1 p) (acc : Scan)
    (hw : ((es.map fun p => (d, p)).foldl (Scan.addUnit sel) acc).Within) :
    scanEntries d sel (listing es).entries acc () =
      .ok ((es.map fun p => (d, p)).foldl (Scan.addUnit sel) acc) () := by
  induction es generalizing acc with
  | nil => rfl
  | cons p es ih =>
    obtain ⟨hp, hes⟩ : GoodUnit sha1 p ∧ ∀ q ∈ es, GoodUnit sha1 q := by simpa using hgood
    rw [List.map_cons, List.foldl_cons] at hw ⊢
    have hnow : (acc.addUnit sel (d, p)).Within := Scan.Within.of_foldl hw
    have hfiles : ¬ ((acc.addUnit sel (d, p)).bucketFiles.get? (prefixOf p.1)).getD 0 >
        maxBucketFiles := Nat.not_lt.2 (hnow.files (prefixOf p.1))
    have hbytes : ¬ ((acc.addUnit sel (d, p)).bucketBytes.get? (prefixOf p.1)).getD 0 >
        maxBucketBytes := Nat.not_lt.2 (hnow.bytes (prefixOf p.1))
    simp only [listing, List.map_cons, scanEntries]
    rw [bind_ok (checkEntry_static hp ()),
      show acc.add d sel p.1 p.2.stat.st_size = acc.addUnit sel (d, p) from rfl,
      bind_ok (rejectIf_ok (Nat.not_lt.2 hnow.totalFiles) ()),
      bind_ok (rejectIf_ok (Nat.not_lt.2 hnow.totalBytes) ()),
      bind_ok (rejectIf_ok hfiles ()), bind_ok (rejectIf_ok hbytes ())]
    exact ih hes _ hw

theorem scanSources_static (sel : Option String) (dirs : List Path)
    (hdirs : ∀ d ∈ dirs, ∃ es, t.dirs d = some es)
    (hgood : ∀ u ∈ t.units dirs, GoodUnit sha1 u.2) (acc : Scan)
    (hw : ((t.units dirs).foldl (Scan.addUnit sel) acc).Within) :
    scanSources (staticOS t) sel dirs acc () =
      .ok ((t.units dirs).foldl (Scan.addUnit sel) acc) () := by
  induction dirs generalizing acc with
  | nil => rfl
  | cons d dirs ih =>
    obtain ⟨es, hd⟩ := hdirs d (by simp)
    have hunits : t.units (d :: dirs) = (es.map fun p => (d, p)) ++ t.units dirs := by
      simp [Tree.units, hd]
    rw [hunits] at hgood hw ⊢
    rw [List.foldl_append] at hw ⊢
    have hes : ∀ p ∈ es, GoodUnit sha1 p := fun p hp =>
      hgood (d, p) (List.mem_append_left _ (List.mem_map.2 ⟨p, hp, rfl⟩))
    rw [scanSources, bind_ok (lstatDirectory_static hd _), bind_ok (scandir_static hd _),
      bind_ok (scanEntries_static d sel es hes acc (Scan.Within.of_foldl hw)),
      bind_ok (rejectIf_ok (by simp [listing]) ())]
    exact ih (fun d' h => hdirs d' (by simp [h]))
      (fun u hu => hgood u (List.mem_append_right _ hu)) _ hw

/-- Private sources as the reader accepts them: readable directories of good
units, within the caps. -/
structure ValidSources (sha1 : Bytes → String) (t : Tree) (sources : List Path) : Prop where
  few : sources.length ≤ maxShardedSources
  dirs : ∀ d ∈ sources, ∃ es, t.dirs d = some es
  good : ∀ u ∈ t.units sources, GoodUnit sha1 u.2
  capped : Capped (t.units sources)

/-- The counters after a full scan. -/
def Tree.scan (t : Tree) (sel : Option String) (sources : List Path) : Scan :=
  (t.units sources).foldl (Scan.addUnit sel) Scan.empty

theorem scanPrivateSources_static {sources : List Path} (h : ValidSources sha1 t sources)
    (sel : Option String) :
    scanPrivateSources (staticOS t) sources sel () =
      .ok ((t.scan sel sources).inventory sources, (t.scan sel sources).selected) () := by
  rw [scanPrivateSources, bind_ok (scanSources_static sel sources h.dirs h.good _
    (h.capped.within sel))]
  rfl

/-- What a scan selects does not show in its inventory. -/
theorem inventory_foldl (sel sel' : Option String) (us : List Placed) (sources : List Path) :
    (us.foldl (Scan.addUnit sel) Scan.empty).inventory sources =
      (us.foldl (Scan.addUnit sel') Scan.empty).inventory sources := by
  have key : ∀ (us : List Placed) (a b : Scan), a.bucketFiles = b.bucketFiles →
      a.bucketBytes = b.bucketBytes → a.totalFiles = b.totalFiles → a.totalBytes = b.totalBytes →
      (us.foldl (Scan.addUnit sel) a).inventory sources =
        (us.foldl (Scan.addUnit sel') b).inventory sources := by
    intro us
    induction us with
    | nil => intro a b h1 h2 h3 h4; simp [Scan.inventory, h1, h2, h3, h4]
    | cons u us ih =>
      intro a b h1 h2 h3 h4
      refine ih _ _ ?_ ?_ ?_ ?_ <;> simp [Scan.addUnit, Scan.add, h1, h2, h3, h4]
  exact key us _ _ rfl rfl rfl rfl

/-! ## The prefixes and the selected bucket -/

theorem mem_bucketFiles_foldl (sel : Option String) (us : List Placed) (acc : Scan) (p : String) :
    p ∈ (us.foldl (Scan.addUnit sel) acc).bucketFiles.keys ↔
      p ∈ acc.bucketFiles.keys ∨ ∃ u ∈ us, u.bucket = p := by
  induction us generalizing acc with
  | nil => simp
  | cons u us ih =>
    rw [List.foldl_cons, ih]
    simp only [Scan.addUnit, Scan.add, Dict.mem_keys_set, List.mem_cons, exists_eq_or_imp,
      Placed.bucket, eq_comm (a := p)]
    tauto

theorem nodup_bucketFiles_foldl (sel : Option String) (us : List Placed) (acc : Scan)
    (h : acc.bucketFiles.keys.Nodup) :
    (us.foldl (Scan.addUnit sel) acc).bucketFiles.keys.Nodup := by
  induction us generalizing acc with
  | nil => exact h
  | cons u us ih => exact ih _ (Dict.nodup_keys_set h _ _)

/-- A candidate of the selected bucket is a unit of its sources, under its own name. -/
def CandidatesOf (us : List Placed) (p : String) (d : Dict String (List MUnit)) : Prop :=
  d.keys.Nodup ∧ (∀ n, n ∈ d.keys ↔ ∃ u ∈ us, u.2.1 = n ∧ u.bucket = p) ∧
    ∀ n ms, d.get? n = some ms → ms ≠ [] ∧ ∀ m ∈ ms, ∃ u ∈ us, u.2.1 = n ∧ m = unitOf u.1 u.2

theorem CandidatesOf.add {us : List Placed} {p : String} {acc : Scan}
    (h : CandidatesOf us p acc.selected) (u : Placed) :
    CandidatesOf (us ++ [u]) p (acc.addUnit (some p) u).selected := by
  obtain ⟨hnd, hkeys, hval⟩ := h
  by_cases hb : u.bucket = p
  · have hsel : (acc.addUnit (some p) u).selected = acc.selected.set u.2.1
        ((acc.selected.get? u.2.1).getD [] ++ [unitOf u.1 u.2]) := by
      simp only [Scan.addUnit, Scan.add, unitOf, Placed.size]
      rw [if_pos (by simpa [Placed.bucket] using hb)]
    rw [hsel]
    refine ⟨Dict.nodup_keys_set hnd _ _, fun n => ?_, fun n ms hms => ?_⟩
    · rw [Dict.mem_keys_set, hkeys]
      constructor
      · rintro (rfl | ⟨v, hv, hvn, hvb⟩)
        · exact ⟨u, by simp, rfl, hb⟩
        · exact ⟨v, by simp [hv], hvn, hvb⟩
      · rintro ⟨v, hv, rfl, hvb⟩
        rcases List.mem_append.1 hv with hv | hv
        · exact .inr ⟨v, hv, rfl, hvb⟩
        · exact .inl (by rw [List.mem_singleton.1 hv])
    · rw [Dict.get?_set] at hms
      split at hms
      · next hn =>
        subst hn
        cases hms
        refine ⟨by simp, fun m hm => ?_⟩
        rcases List.mem_append.1 hm with hm | hm
        · cases hg : acc.selected.get? u.2.1 with
          | none => simp [hg] at hm
          | some ms =>
            obtain ⟨v, hv, h1, h2⟩ := (hval _ _ hg).2 m (by simpa [hg] using hm)
            exact ⟨v, by simp [hv], h1, h2⟩
        · exact ⟨u, by simp, rfl, List.mem_singleton.1 hm⟩
      · obtain ⟨h1, h2⟩ := hval n ms hms
        refine ⟨h1, fun m hm => ?_⟩
        obtain ⟨v, hv, h3, h4⟩ := h2 m hm
        exact ⟨v, by simp [hv], h3, h4⟩
  · have hsel : (acc.addUnit (some p) u).selected = acc.selected := by
      simp only [Scan.addUnit, Scan.add]
      rw [if_neg (by simpa [Placed.bucket] using hb)]
    rw [hsel]
    refine ⟨hnd, fun n => ?_, fun n ms hms => ?_⟩
    · rw [hkeys]
      constructor
      · rintro ⟨v, hv, h1, h2⟩
        exact ⟨v, by simp [hv], h1, h2⟩
      · rintro ⟨v, hv, h1, h2⟩
        rcases List.mem_append.1 hv with hv | hv
        · exact ⟨v, hv, h1, h2⟩
        · rw [List.mem_singleton.1 hv] at h2
          exact absurd h2 hb
    · obtain ⟨h1, h2⟩ := hval n ms hms
      refine ⟨h1, fun m hm => ?_⟩
      obtain ⟨v, hv, h3, h4⟩ := h2 m hm
      exact ⟨v, by simp [hv], h3, h4⟩

theorem candidatesOf_foldl (p : String) (us : List Placed) :
    CandidatesOf us p (us.foldl (Scan.addUnit (some p)) Scan.empty).selected := by
  induction us using List.reverseRecOn with
  | nil => exact ⟨List.nodup_nil, by simp [Scan.empty, Dict.keys], by simp [Scan.empty]⟩
  | append_singleton us u ih => rw [List.foldl_append]; exact ih.add u

/-! ## Validating the selected bucket -/

/-- A validated dictionary maps names to units of that name. -/
def Named (d : Dict String MUnit) : Prop := d.keys.Nodup ∧ ∀ n m, d.get? n = some m → m.name = n

theorem Named.nil : Named [] := ⟨List.nodup_nil, by simp⟩

theorem Named.set {d : Dict String MUnit} (hd : Named d) {n : String} {m : MUnit} (hm : m.name = n) :
    Named (d.set n m) := by
  refine ⟨Dict.nodup_keys_set hd.1 _ _, fun k u hu => ?_⟩
  rw [Dict.get?_set] at hu
  split at hu
  · next hk =>
    cases hu
    rw [hk, hm]
  · exact hd.2 k u hu

theorem Named.filter {d : Dict String MUnit} (hd : Named d) (p : String × MUnit → Bool) :
    Named (d.filter p) := by
  refine ⟨hd.1.sublist (List.Sublist.map _ List.filter_sublist), fun n m hm => ?_⟩
  have hmem := (List.mem_filter.1 (Dict.mem_of_get? hm)).1
  exact hd.2 n m (Dict.get?_of_mem hd.1 hmem)

theorem validateCandidates_static {sources : List Path} (h : ValidSources sha1 t sources)
    (n : String) (ms : List MUnit)
    (hms : ∀ m ∈ ms, ∃ u ∈ t.units sources, u.2.1 = n ∧ m = unitOf u.1 u.2)
    (d : Dict String MUnit) (hd : Named d) :
    ∃ d', validateCandidates (staticOS t) sha1 n ms d () = .ok d' () ∧ Named d' ∧
      ∀ k, k ∈ d'.keys ↔ k ∈ d.keys ∨ (k = n ∧ ms ≠ []) := by
  induction ms generalizing d with
  | nil => exact ⟨d, rfl, hd, by simp⟩
  | cons m ms ih =>
    obtain ⟨u, hu, hun, rfl⟩ := hms m (by simp)
    obtain ⟨-, es, hes, hmem⟩ := Tree.mem_units.1 hu
    have hgood := h.good u hu
    have hfile : t.file? (u.1 ++ [u.2.1]) = some u.2.2 := Tree.file?_of_mem hes hmem
    obtain ⟨d', he, hn', hk'⟩ := ih (fun m hm => hms m (by simp [hm]))
      (if d.has n then d else d.set n (unitOf u.1 u.2)) (by
        split
        · exact hd
        · exact hd.set hun)
    have hlstat : callOr .sourceChanged ((staticOS t).lstat (unitOf u.1 u.2).source) () =
        .ok u.2.2.stat () := lstat_file_static hes hmem _
    have hhash : hashRegularFile (staticOS t) sha1 (unitOf u.1 u.2).source u.2.2.stat () =
        .ok (sha1 u.2.2.content, u.2.2.content.length) () := hashRegularFile_static hfile hgood.2.2
    refine ⟨d', ?_, hn', fun k => ?_⟩
    · rw [validateCandidates, bind_ok hlstat,
        bind_ok (rejectIf_ok (by simp [SourceFile.stat]) ()),
        bind_ok hhash]
      dsimp only
      rw [bind_ok (rejectIf_ok (by simpa [hun] using hgood.2.1) ()),
        bind_ok (rejectIf_ok (by simp [unitOf]) ())]
      exact he
    · rw [hk']
      split
      · next hh =>
        have := (Dict.has_iff d n).1 hh
        constructor
        · rintro (hk | ⟨rfl, -⟩)
          · exact .inl hk
          · exact .inl this
        · rintro (hk | ⟨rfl, -⟩)
          · exact .inl hk
          · exact .inl this
      · rw [Dict.mem_keys_set]
        simp only [ne_eq, reduceCtorEq, not_false_eq_true, and_true]
        tauto

theorem validateNames_static {sources : List Path} (h : ValidSources sha1 t sources)
    {candidates : Dict String (List MUnit)} (ns : List String)
    (hns : ∀ n ∈ ns, ∃ ms, candidates.get? n = some ms ∧ ms ≠ [] ∧
      ∀ m ∈ ms, ∃ u ∈ t.units sources, u.2.1 = n ∧ m = unitOf u.1 u.2)
    (d : Dict String MUnit) (hd : Named d) :
    ∃ d', validateNames (staticOS t) sha1 candidates ns d () = .ok d' () ∧ Named d' ∧
      ∀ k, k ∈ d'.keys ↔ k ∈ d.keys ∨ k ∈ ns := by
  induction ns generalizing d with
  | nil => exact ⟨d, rfl, hd, by simp⟩
  | cons n ns ih =>
    obtain ⟨ms, hg, hne, hms⟩ := hns n (by simp)
    obtain ⟨d1, h1, hd1, hk1⟩ := validateCandidates_static h n ms hms d hd
    obtain ⟨d2, h2, hd2, hk2⟩ := ih (fun k hk => hns k (by simp [hk])) d1 hd1
    refine ⟨d2, ?_, hd2, fun k => ?_⟩
    · rw [validateNames, hg, Option.getD_some, bind_ok h1]
      exact h2
    · rw [hk2, hk1, List.mem_cons]
      simp only [ne_eq, hne, not_false_eq_true, and_true]
      tauto

/-- The names of the units of some directories. -/
def Tree.names (t : Tree) (dirs : List Path) : List String := (t.units dirs).map fun u => u.2.1

/-- The validated bucket holds, once each and under its own name, every unit of the prefix. -/
theorem validatePrivateBucket_static {sources : List Path} (h : ValidSources sha1 t sources)
    (p : String) :
    ∃ d, validatePrivateBucket (staticOS t) sha1 ((t.scan none sources).inventory sources) p () =
        .ok d () ∧ Named d ∧ ∀ n, n ∈ d.keys ↔ n ∈ t.names sources ∧ prefixOf n = p := by
  obtain ⟨-, hkeys, hval⟩ := candidatesOf_foldl p (t.units sources)
  obtain ⟨d, hd, hnamed, hk⟩ := validateNames_static h
    (sorted (t.scan (some p) sources).selected.keys) (fun n hn => by
      obtain ⟨ms, hms⟩ := (Dict.mem_keys_iff _ n).1 (mem_sorted.1 hn)
      exact ⟨ms, hms, hval n ms hms⟩) [] Named.nil
  have hscan : scanPrivateSources (staticOS t)
      ((t.scan none sources).inventory sources).sources (some p) () =
        .ok ((t.scan (some p) sources).inventory sources, (t.scan (some p) sources).selected) () :=
    scanPrivateSources_static h (some p)
  have hsame : ¬ ((t.scan (some p) sources).inventory sources ≠
      (t.scan none sources).inventory sources) := not_not.2 (inventory_foldl (some p) none _ sources)
  refine ⟨d, ?_, hnamed, fun n => ?_⟩
  · rw [validatePrivateBucket, bind_ok hscan]
    dsimp only
    rw [bind_ok (rejectIf_ok hsame ())]
    exact hd
  · rw [hk, mem_sorted, Tree.scan, hkeys]
    simp only [Dict.keys, List.map_nil, List.not_mem_nil, false_or, Tree.names, List.mem_map,
      Placed.bucket]
    constructor
    · rintro ⟨u, hu, rfl, hp⟩
      exact ⟨⟨u, hu, rfl⟩, hp⟩
    · rintro ⟨⟨u, hu, rfl⟩, hp⟩
      exact ⟨u, hu, rfl, hp⟩

end MpcHunt.MaterializeWindow
