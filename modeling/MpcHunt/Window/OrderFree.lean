/-
What a selection comes to, said without an order (`choice`), and when there is
one (`Accepts`). The scans list the directories in whatever order, count as
they go, keep the first of several copies and scan twice; none of it shows.
-/
import MpcHunt.Window.Coverage
import MpcHunt.Window.Shown

namespace MpcHunt.MaterializeWindow

open Raising

variable {σ α : Type} {w : World} {os : OS σ} {I : σ → Prop} {sha1 : Bytes → String}

/-! ## Units as they were found -/

/-- A unit that lies in `d`: this file. -/
structure LiesIn (w : World) (m : MUnit) (d : Path) (f : SourceFile) : Prop where
  source : m.source = d ++ [m.name]
  directory : w.IsDirectory d
  file : w m.source = some (.file f)
  size : f.content.length = m.size
  small : f.content.length ≤ maxUnitBytes

/-- A unit that lies somewhere and is what its name says. -/
def Found (w : World) (sha1 : Bytes → String) (m : MUnit) : Prop :=
  ∃ d f, LiesIn w m d f ∧ sha1 f.content = m.name

theorem LiesIn.found_iff {m : MUnit} {d : Path} {f : SourceFile} (h : LiesIn w m d f) :
    Found w sha1 m ↔ sha1 f.content = m.name := by
  refine ⟨fun ⟨d', g, hg, hdigest⟩ => ?_, fun hdigest => ⟨d, f, h, hdigest⟩⟩
  have hfile := hg.file
  rw [h.file] at hfile
  cases hfile
  exact hdigest

/-- A dictionary of such units, each under its name. -/
structure FoundUnits (w : World) (sha1 : Bytes → String) (units : Dict String MUnit) : Prop where
  named : Named units
  found : ∀ n m, units.get? n = some m → Found w sha1 m

theorem FoundUnits.nil : FoundUnits w sha1 [] := ⟨Named.nil, fun _ _ h => by cases h⟩

theorem FoundUnits.set {units : Dict String MUnit} (h : FoundUnits w sha1 units) {n : String} {m : MUnit}
    (hname : m.name = n) (hm : Found w sha1 m) : FoundUnits w sha1 (units.set n m) := by
  refine ⟨h.named.set hname, fun k u hu => ?_⟩
  rw [Dict.get?_set] at hu
  split at hu
  · cases hu
    exact hm
  · exact h.found k u hu

/-- An entry the common scan takes. -/
def Verified (sha1 : Bytes → String) (p : String × Node) : Prop :=
  Acceptable p ∧ ∀ f, p.2 = .file f → sha1 f.content = p.1

theorem decides_validateSourceEntries (h : ShowsFiles w os I) {d : Path} (hd : w.IsDirectory d)
    {es : List (String × Node)} (hes : ∀ p ∈ es, w (d ++ [p.1]) = some p.2)
    {units : Dict String MUnit} (hunits : FoundUnits w sha1 units) :
    Decides I (validateSourceEntries os sha1 d (es.map entryOf) units) (∀ p ∈ es, Verified sha1 p)
      fun units' s => I s ∧ FoundUnits w sha1 units' ∧
        ∀ n, n ∈ units'.keys ↔ n ∈ units.keys ∨ n ∈ es.map Prod.fst := by
  induction es generalizing units with
  | nil =>
    exact Decides.pure (fun _ hp => absurd hp List.not_mem_nil)
      fun s hs => ⟨hs, hunits, fun n => by simp⟩
  | cons p rest ih =>
    obtain ⟨hp, hrest⟩ := List.forall_mem_cons.1 hes
    obtain ⟨n, node⟩ := p
    have hentry : Acceptable (n, node) → ∀ m : StatResult, Decides
        (fun s => I s ∧ m = node.stat)
        (do
          let r ← hashRegularFile os sha1 (d ++ [n]) m
          rejectIf (r.1 ≠ n) .contentHash
          validateSourceEntries os sha1 d (rest.map entryOf) (units.set n ⟨n, d ++ [n], r.2⟩))
        ((∀ f, node = .file f → sha1 f.content = n) ∧ ∀ q ∈ rest, Verified sha1 q)
        fun units' s => I s ∧ FoundUnits w sha1 units' ∧
          ∀ k, k ∈ units'.keys ↔ k ∈ units.keys ∨ k ∈ n :: rest.map Prod.fst := by
      intro hacceptable m
      obtain ⟨-, f, hnode, hsize⟩ := hacceptable
      obtain rfl : node = .file f := hnode
      refine Decides.of_fact fun hm => ?_
      rw [hm]
      have hhashed : ∀ r : String × Nat, Decides
          (fun s => I s ∧ r = (sha1 f.content, f.content.length))
          (do
            rejectIf (r.1 ≠ n) .contentHash
            validateSourceEntries os sha1 d (rest.map entryOf) (units.set n ⟨n, d ++ [n], r.2⟩))
          (¬ sha1 f.content ≠ n ∧ ∀ q ∈ rest, Verified sha1 q)
          fun units' s => I s ∧ FoundUnits w sha1 units' ∧
            ∀ k, k ∈ units'.keys ↔ k ∈ units.keys ∨ k ∈ n :: rest.map Prod.fst := by
        intro r
        refine Decides.of_fact fun hr => ?_
        rw [hr]
        refine Decides.bind decides_rejectIf fun hdigest _ => ?_
        have hfound : Found w sha1 ⟨n, d ++ [n], f.content.length⟩ :=
          ⟨d, f, ⟨rfl, hd, hp, rfl, hsize⟩, not_not.1 hdigest⟩
        refine (ih hrest (hunits.set rfl hfound)).mono Iff.rfl fun _ units' s hend => ?_
        obtain ⟨hs, hunits', hkeys⟩ := hend
        refine ⟨hs, hunits', fun k => ?_⟩
        rw [hkeys, Dict.mem_keys_set, List.mem_cons]
        tauto
      refine (Decides.bind (decides_hashRegularFile h hp hsize) fun _ => hhashed).mono ?_
        fun _ _ _ hend => hend
      rw [true_and, not_not]
      refine and_congr_left fun _ => ⟨fun hdigest g hg => ?_, fun hdigest => hdigest f rfl⟩
      cases hg
      exact hdigest
    refine (Decides.bind (decides_checkEntry (n, node)) hentry).mono ?_ fun _ _ _ hend => hend
    rw [List.forall_mem_cons, Verified, and_assoc]

/-! ## The common source and the destination -/

/-- What the common source must be. -/
structure Common (w : World) (sha1 : Bytes → String) (d : Path) : Prop where
  directory : w.IsDirectory d
  few : (w.entries d).length ≤ maxBucketFiles
  verified : ∀ p ∈ w.entries d, Verified sha1 p

theorem decides_validateSource (h : Shows w os I) (d : Path) :
    Decides I (validateSource os sha1 d) (Common w sha1 d) fun units s => I s ∧
      FoundUnits w sha1 units ∧ ∀ n, n ∈ units.keys ↔ n ∈ (w.entries d).map Prod.fst := by
  have hlisted : w.IsDirectory d → ∀ l : Listing, Decides
      (fun s => I s ∧ ∃ es : List (String × Node), es.Perm (w.entries d) ∧ l = ⟨es.map entryOf, false⟩)
      (do
        rejectIf (l.failed) .sourceScan
        rejectIf (l.entries.length > maxBucketFiles) .fileCountCap
        validateSourceEntries os sha1 d l.entries [])
      ((w.entries d).length ≤ maxBucketFiles ∧ ∀ p ∈ w.entries d, Verified sha1 p)
      fun units s => I s ∧ FoundUnits w sha1 units ∧
        ∀ n, n ∈ units.keys ↔ n ∈ (w.entries d).map Prod.fst := by
    intro hd l
    refine Decides.of_fact fun ⟨es, hes, hl⟩ => ?_
    rw [hl]
    have hentries : ∀ p ∈ es, w (d ++ [p.1]) = some p.2 := fun p hp =>
      World.mem_entries (hes.mem_iff.1 hp)
    refine (Decides.bind decides_rejectIf fun _ _ => Decides.bind decides_rejectIf fun _ _ =>
      decides_validateSourceEntries h.toShowsFiles hd hentries FoundUnits.nil).mono ?_
      fun _ units s hend => ?_
    · rw [List.length_map, hes.length_eq, not_lt]
      refine (and_iff_right (by simp)).trans (and_congr_right fun _ => forall_congr' fun p => ?_)
      exact imp_congr_left hes.mem_iff
    · obtain ⟨hs, hunits, hkeys⟩ := hend
      refine ⟨hs, hunits, fun n => ?_⟩
      rw [hkeys, (hes.map Prod.fst).mem_iff]
      exact or_iff_right (fun hn => absurd hn List.not_mem_nil)
  refine (Decides.bind (decides_lstatDirectory h.toShowsFiles d .sourceDirectory) fun hd _ =>
    Decides.bind (decides_scandir h hd .sourceScan) fun _ => hlisted hd).mono ?_ fun _ _ _ hend => hend
  rw [true_and]
  exact ⟨fun ⟨hd, hfew, hverified⟩ => ⟨hd, hfew, hverified⟩, fun hc => ⟨hc.1, hc.2, hc.3⟩⟩

theorem decides_validateDestination (h : Shows w os I) (d : Path) :
    Decides I (validateDestination os d) (w.IsDirectory d ∧ w.entries d = []) fun _ => I := by
  have hlisted : ∀ l : Listing, Decides
      (fun s => I s ∧ ∃ es : List (String × Node), es.Perm (w.entries d) ∧ l = ⟨es.map entryOf, false⟩)
      (do
        rejectIf (¬ l.entries.isEmpty) .destinationDirty
        rejectIf (l.failed) .destinationScan) (w.entries d = []) fun _ => I := by
    intro l
    refine Decides.of_fact fun ⟨es, hes, hl⟩ => ?_
    rw [hl]
    refine (Decides.bind decides_rejectIf fun _ _ => decides_rejectIf).mono ?_ fun _ _ _ hs => hs
    rw [not_not, List.isEmpty_iff, List.map_eq_nil_iff]
    refine (and_iff_left (by simp)).trans ⟨fun he => ?_, fun he => ?_⟩
    · exact (he ▸ hes).nil_eq.symm
    · exact (he ▸ hes).eq_nil
  refine (Decides.bind (decides_lstatDirectory h.toShowsFiles d .destinationDirectory) fun hd _ =>
    Decides.bind (decides_scandir h hd .destinationScan) fun _ => hlisted).mono ?_ fun _ _ _ hs => hs
  rw [true_and]

/-! ## The candidates of the selected bucket -/

/-- A candidate is on file. -/
def OnFile (acc : Scan) (n : String) (m : MUnit) : Prop :=
  ∃ ms, acc.selected.get? n = some ms ∧ m ∈ ms

theorem OnFile.addUnit {acc : Scan} {n : String} {m : MUnit} (h : OnFile acc n m) (sel : Option String)
    (u : Placed) : OnFile (acc.addUnit sel u) n m := by
  obtain ⟨ms, hms, hm⟩ := h
  unfold OnFile Scan.addUnit Scan.add
  dsimp only
  split
  · by_cases hn : n = u.2.1
    · refine ⟨_, by rw [hn, Dict.get?_set_self], List.mem_append_left _ ?_⟩
      rw [← hn, hms]
      exact hm
    · exact ⟨ms, by rw [Dict.get?_set_other _ hn, hms], hm⟩
  · exact ⟨ms, hms, hm⟩

theorem onFile_addUnit {acc : Scan} {u : Placed} {p : String} (h : u.bucket = p) :
    OnFile (acc.addUnit (some p) u) u.2.1 (unitOf u.1 u.2) := by
  have hsel : some (prefixOf u.2.1) = some p := congrArg some h
  unfold OnFile Scan.addUnit Scan.add
  rw [if_pos hsel]
  exact ⟨_, Dict.get?_set_self _ _ _, List.mem_append_right _ (List.mem_singleton.2 rfl)⟩

/-- Every file of the bucket is a candidate, in whatever order they were found. -/
theorem onFile_foldl {p : String} {us : List Placed} (acc : Scan) {u : Placed} (hu : u ∈ us)
    (hb : u.bucket = p) : OnFile (us.foldl (Scan.addUnit (some p)) acc) u.2.1 (unitOf u.1 u.2) := by
  have hkeep : ∀ (vs : List Placed) (acc : Scan), OnFile acc u.2.1 (unitOf u.1 u.2) →
      OnFile (vs.foldl (Scan.addUnit (some p)) acc) u.2.1 (unitOf u.1 u.2) := by
    intro vs
    induction vs with
    | nil => exact fun _ h => h
    | cons v vs ih => exact fun acc h => ih _ (h.addUnit _ v)
  induction us generalizing acc with
  | nil => cases hu
  | cons v us ih =>
    rcases List.mem_cons.1 hu with rfl | hu
    · exact hkeep us _ (onFile_addUnit hb)
    · exact ih _ hu

theorem World.mem_placed {sources : List Path} {u : Placed} (h : u ∈ w.placed sources) :
    u.1 ∈ sources ∧ (u.2.1, Node.file u.2.2) ∈ w.entries u.1 := by
  obtain ⟨d, hd, hu⟩ := List.mem_flatMap.1 h
  obtain ⟨rfl, hentry⟩ := MaterializeWindow.mem_placed.1 hu
  exact ⟨hd, hentry⟩

/-- A file of the sources, as a unit. -/
theorem World.Private.liesIn {sources : List Path} (h : w.Private sources) {u : Placed}
    (hu : u ∈ w.placed sources) : LiesIn w (unitOf u.1 u.2) u.1 u.2.2 := by
  obtain ⟨hd, hentry⟩ := World.mem_placed hu
  obtain ⟨hdir, hall⟩ := h.1 u.1 hd
  obtain ⟨-, f, hf, hsize⟩ := hall _ hentry
  cases hf
  exact ⟨rfl, hdir, World.mem_entries hentry, rfl, hsize⟩

/-! ## The selected bucket -/

/-- All copies of a name are hashed, and the first is kept. -/
theorem decides_validateCandidates (h : ShowsFiles w os I) {name : String} {ms : List MUnit}
    (hms : ∀ m ∈ ms, m.name = name ∧ ∃ d f, LiesIn w m d f) {validated : Dict String MUnit}
    (hv : FoundUnits w sha1 validated) :
    Decides I (validateCandidates os sha1 name ms validated) (∀ m ∈ ms, Found w sha1 m)
      fun validated' s => I s ∧ FoundUnits w sha1 validated' ∧
        ∀ n, n ∈ validated'.keys ↔ n ∈ validated.keys ∨ (n = name ∧ ms ≠ []) := by
  induction ms generalizing validated with
  | nil =>
    exact Decides.pure (fun _ hm => absurd hm List.not_mem_nil)
      fun s hs => ⟨hs, hv, fun n => by simp⟩
  | cons m rest ih =>
    obtain ⟨⟨hname, d, f, hlies⟩, hrest⟩ := List.forall_mem_cons.1 hms
    have hsome : ∃ node, w m.source = some node := ⟨_, hlies.file⟩
    have hhashed : ∀ r : String × Nat, Decides
        (fun s => I s ∧ r = (sha1 f.content, f.content.length))
        (do
          rejectIf (r.1 ≠ name) .contentHash
          rejectIf (r.2 ≠ m.size) .sourceChanged
          validateCandidates os sha1 name rest
            (if validated.has name then validated else validated.set name m))
        (Found w sha1 m ∧ ∀ m' ∈ rest, Found w sha1 m')
        fun validated' s => I s ∧ FoundUnits w sha1 validated' ∧
          ∀ n, n ∈ validated'.keys ↔ n ∈ validated.keys ∨ (n = name ∧ m :: rest ≠ []) := by
      intro r
      refine Decides.of_fact fun hr => ?_
      rw [hr]
      have hkept : ¬ sha1 f.content ≠ name → FoundUnits w sha1
          (if validated.has name then validated else validated.set name m) := by
        intro hdigest
        split
        · exact hv
        · exact hv.set hname (hlies.found_iff.2 ((not_not.1 hdigest).trans hname.symm))
      refine (Decides.bind decides_rejectIf fun hdigest _ => Decides.bind decides_rejectIf fun _ _ =>
        ih hrest (hkept hdigest)).mono ?_ fun _ validated' s hend => ?_
      · rw [hlies.found_iff, hname, not_not]
        exact and_congr_right fun _ => and_iff_right (not_not.2 hlies.size)
      · obtain ⟨hs, hunits, hkeys⟩ := hend
        refine ⟨hs, hunits, fun n => ?_⟩
        rw [hkeys]
        split
        · next hhas =>
          have hmem := (Dict.has_iff validated name).1 hhas
          constructor
          · rintro (hn | ⟨rfl, -⟩)
            · exact .inl hn
            · exact .inl hmem
          · rintro (hn | ⟨rfl, -⟩)
            · exact .inl hn
            · exact .inl hmem
        · rw [Dict.mem_keys_set]
          simp only [ne_eq, reduceCtorEq, not_false_eq_true, and_true]
          tauto
    have hlooked : ∀ metadata : StatResult, Decides
        (fun s => I s ∧ ∃ node, w m.source = some node ∧ metadata = node.stat)
        (do
          rejectIf (metadata.type ≠ .regular) .sourceChanged
          let r ← hashRegularFile os sha1 m.source metadata
          rejectIf (r.1 ≠ name) .contentHash
          rejectIf (r.2 ≠ m.size) .sourceChanged
          validateCandidates os sha1 name rest
            (if validated.has name then validated else validated.set name m))
        (Found w sha1 m ∧ ∀ m' ∈ rest, Found w sha1 m')
        fun validated' s => I s ∧ FoundUnits w sha1 validated' ∧
          ∀ n, n ∈ validated'.keys ↔ n ∈ validated.keys ∨ (n = name ∧ m :: rest ≠ []) := by
      intro metadata
      refine Decides.of_fact fun hlooked => ?_
      obtain ⟨node, hnode, hmetadata⟩ := hlooked
      rw [hlies.file] at hnode
      cases hnode
      rw [hmetadata]
      refine (Decides.bind decides_rejectIf fun _ _ =>
        Decides.bind (decides_hashRegularFile h hlies.file hlies.small) fun _ => hhashed).mono ?_
        fun _ _ _ hend => hend
      rw [true_and]
      exact and_iff_right (by simp [Node.stat, SourceFile.stat])
    refine (Decides.bind (decides_lstat h m.source) fun _ => hlooked).mono ?_ fun _ _ _ hend => hend
    rw [List.forall_mem_cons]
    exact and_iff_right hsome

theorem decides_validateNames (h : ShowsFiles w os I) {candidates : Dict String (List MUnit)}
    {names : List String}
    (hc : ∀ n, ∀ m ∈ (candidates.get? n).getD [], m.name = n ∧ ∃ d f, LiesIn w m d f)
    {validated : Dict String MUnit} (hv : FoundUnits w sha1 validated) :
    Decides I (validateNames os sha1 candidates names validated)
      (∀ n ∈ names, ∀ m ∈ (candidates.get? n).getD [], Found w sha1 m)
      fun validated' s => I s ∧ FoundUnits w sha1 validated' ∧
        ∀ n, n ∈ validated'.keys ↔
          n ∈ validated.keys ∨ (n ∈ names ∧ (candidates.get? n).getD [] ≠ []) := by
  induction names generalizing validated with
  | nil =>
    exact Decides.pure (fun _ hn => absurd hn List.not_mem_nil)
      fun s hs => ⟨hs, hv, fun n => by simp⟩
  | cons name rest ih =>
    have hone : ∀ validated' : Dict String MUnit, Decides
        (fun s => I s ∧ FoundUnits w sha1 validated' ∧ ∀ n, n ∈ validated'.keys ↔
          n ∈ validated.keys ∨ (n = name ∧ (candidates.get? name).getD [] ≠ []))
        (validateNames os sha1 candidates rest validated')
        (∀ n ∈ rest, ∀ m ∈ (candidates.get? n).getD [], Found w sha1 m)
        fun validated'' s => I s ∧ FoundUnits w sha1 validated'' ∧
          ∀ n, n ∈ validated''.keys ↔
            n ∈ validated.keys ∨ (n ∈ name :: rest ∧ (candidates.get? n).getD [] ≠ []) := by
      intro validated'
      refine Decides.of_fact fun hfound => ?_
      obtain ⟨hv', hkeys'⟩ := hfound
      refine (ih hv').mono Iff.rfl fun _ validated'' s hend => ?_
      obtain ⟨hs, hv'', hkeys⟩ := hend
      refine ⟨hs, hv'', fun n => ?_⟩
      rw [hkeys, hkeys', List.mem_cons]
      by_cases hn : n = name
      · subst hn
        tauto
      · tauto
    refine (Decides.bind (decides_validateCandidates h (hc name) hv) fun _ => hone).mono ?_
      fun _ _ _ hend => hend
    rw [List.forall_mem_cons]

/-- The files of a bucket are what their names say. -/
def World.Digests (w : World) (sha1 : Bytes → String) (sources : List Path) (p : String) : Prop :=
  ∀ u ∈ w.placed sources, u.bucket = p → sha1 u.2.2.content = u.2.1

/-- The candidates are what their names say just where the files of the bucket are. -/
theorem candidates_found_iff {sources : List Path} (hprivate : w.Private sources) {us : List Placed}
    (hus : us.Perm (w.placed sources)) (p : String) :
    (∀ n ∈ sorted (scanOf (some p) us).selected.keys,
        ∀ m ∈ ((scanOf (some p) us).selected.get? n).getD [], Found w sha1 m) ↔
      w.Digests sha1 sources p := by
  obtain ⟨-, hkeys, hval⟩ := candidatesOf_foldl p us
  constructor
  · intro h u hu hb
    obtain ⟨ms, hms, hm⟩ := onFile_foldl Scan.empty (hus.mem_iff.2 hu) hb
    have hfound := h u.2.1 (mem_sorted.2 ((Dict.mem_keys_iff _ _).2 ⟨ms, hms⟩)) (unitOf u.1 u.2)
      (by rw [scanOf, hms]; exact hm)
    exact (hprivate.liesIn hu).found_iff.1 hfound
  · intro h n hn m hm
    obtain ⟨v, hv, hvn, hvb⟩ := (hkeys n).1 (mem_sorted.1 hn)
    obtain ⟨ms, hms⟩ := (Dict.mem_keys_iff _ _).1 (mem_sorted.1 hn)
    rw [hms] at hm
    obtain ⟨u, hu, hun, rfl⟩ := (hval n ms hms).2 m hm
    have hu' := hus.mem_iff.1 hu
    have hb : u.bucket = p := by rw [← hvb, Placed.bucket, Placed.bucket, hun, hvn]
    exact (hprivate.liesIn hu').found_iff.2 (h u hu' hb)

/-- The second scan finds the inventory of the first, and the bucket has the names of its prefix. -/
theorem decides_validatePrivateBucket (h : Shows w os I) {sources : List Path}
    (hprivate : w.Private sources) {us : List Placed} (hus : us.Perm (w.placed sources)) (p : String) :
    Decides I (validatePrivateBucket os sha1 ((scanOf none us).inventory sources) p)
      (w.Digests sha1 sources p) fun units s => I s ∧ FoundUnits w sha1 units ∧
        ∀ n, n ∈ units.keys ↔ ∃ u ∈ w.placed sources, u.2.1 = n ∧ u.bucket = p := by
  have hrescanned : ∀ r : PrivateInventory × Dict String (List MUnit), Decides
      (fun s => I s ∧ ∃ us' : List Placed, us'.Perm (w.placed sources) ∧
        r = ((scanOf (some p) us').inventory sources, (scanOf (some p) us').selected))
      (do
        rejectIf (r.1 ≠ (scanOf none us).inventory sources) .sourceChanged
        validateNames os sha1 r.2 (sorted r.2.keys) [])
      (w.Digests sha1 sources p) fun units s => I s ∧ FoundUnits w sha1 units ∧
        ∀ n, n ∈ units.keys ↔ ∃ u ∈ w.placed sources, u.2.1 = n ∧ u.bucket = p := by
    intro r
    refine Decides.of_fact fun ⟨us', hus', hr⟩ => ?_
    rw [hr]
    obtain ⟨-, hkeys, hval⟩ := candidatesOf_foldl p us'
    have hlies : ∀ n, ∀ m ∈ ((scanOf (some p) us').selected.get? n).getD [],
        m.name = n ∧ ∃ d f, LiesIn w m d f := by
      intro n m hm
      cases hms : (scanOf (some p) us').selected.get? n with
      | none =>
        rw [hms] at hm
        cases hm
      | some ms =>
        rw [hms] at hm
        obtain ⟨u, hu, hun, rfl⟩ := (hval n ms hms).2 m hm
        exact ⟨hun, u.1, u.2.2, hprivate.liesIn (hus'.mem_iff.1 hu)⟩
    have hsame : ¬ (scanOf (some p) us').inventory sources ≠ (scanOf none us).inventory sources :=
      not_not.2 (inventory_of_perm (hus'.trans hus.symm) sources)
    refine (Decides.bind decides_rejectIf fun _ _ =>
      decides_validateNames h.toShowsFiles hlies FoundUnits.nil).mono ?_ fun _ units s hend => ?_
    · exact (and_iff_right hsame).trans (candidates_found_iff hprivate hus' p)
    · obtain ⟨hs, hunits, hmem⟩ := hend
      refine ⟨hs, hunits, fun n => ?_⟩
      have hcandidate : n ∈ (scanOf (some p) us').selected.keys ↔
          ∃ u ∈ w.placed sources, u.2.1 = n ∧ u.bucket = p := by
        rw [scanOf, hkeys]
        exact exists_congr fun u => and_congr_left fun _ => hus'.mem_iff
      rw [hmem, mem_sorted, ← hcandidate]
      refine (or_iff_right (fun hn => absurd hn List.not_mem_nil)).trans
        (and_iff_left_of_imp fun hn => ?_)
      obtain ⟨ms, hms⟩ := (Dict.mem_keys_iff _ _).1 hn
      rw [hms]
      exact (hval n ms hms).1
  refine (Decides.bind (decides_scanPrivateSources h sources) fun _ => hrescanned).mono ?_
    fun _ _ _ hend => hend
  exact and_iff_right hprivate

/-! ## What a selection comes to -/

/-- A selection apart from which copies of its units it takes. -/
def Selection.bare (selection : Selection) : Selection := { selection with selected := [] }

/-- The prefixes there are, in order. -/
def bucketsOf (us : List Placed) : List String := sorted (us.map Placed.bucket).dedup

/-- The names of a bucket that are not common, in order. -/
def remainingOf (common : List String) (us : List Placed) (p : String) : List String :=
  sorted (((us.filter (·.bucket = p)).map (·.2.1)).filter (· ∉ common)).dedup

/-- The bucket whose turn it is. -/
def bucketAt (us : List Placed) (ordinal : Nat) : Option String :=
  if bucketsOf us = [] then none
  else some ((bucketsOf us).getD (ordinal % (bucketsOf us).length) "")

/-- What is selected, by the names that are common and the private files. -/
def choice (common : List String) (us : List Placed) (ordinal : Nat) : Selection :=
  let names := ((bucketAt us ordinal).map (remainingOf common us)).getD []
  let bucketVisit := if bucketsOf us = [] then 0 else ordinal / (bucketsOf us).length
  let (windowCount, windowIndex, assignedNames) := assign names (windowSize - common.length) bucketVisit
  { commonNames := sorted common, assignedNames, bucketPrefix := bucketAt us ordinal, bucketVisit,
    windowIndex, windowCount, selected := [] }

/-- The names in the common source. -/
def World.commonNames (w : World) (d : Path) : List String := ((w.entries d).map Prod.fst).dedup

theorem bucketsOf_perm {us us' : List Placed} (h : us.Perm us') : bucketsOf us = bucketsOf us' :=
  sorted_congr (List.nodup_dedup _) (List.nodup_dedup _) fun p => by
    rw [List.mem_dedup, List.mem_dedup, (h.map _).mem_iff]

theorem remainingOf_perm {us us' : List Placed} (h : us.Perm us') (common : List String) (p : String) :
    remainingOf common us p = remainingOf common us' p :=
  sorted_congr (List.nodup_dedup _) (List.nodup_dedup _) fun n => by
    rw [List.mem_dedup, List.mem_dedup, ((((h.filter _).map _).filter _)).mem_iff]

/-- The choice is about the files, not about their order. -/
theorem choice_perm {us us' : List Placed} (h : us.Perm us') (common : List String) (ordinal : Nat) :
    choice common us ordinal = choice common us' ordinal := by
  have hat : bucketAt us ordinal = bucketAt us' ordinal := by
    unfold bucketAt
    rw [bucketsOf_perm h]
  have hremaining : remainingOf common us = remainingOf common us' :=
    funext (remainingOf_perm h common)
  unfold choice
  rw [hat, hremaining, bucketsOf_perm h]

/-- When there is a selection. -/
structure Accepts (w : World) (sha1 : Bytes → String) (destination : Path)
    (shardIndex waveShardCount waveNumber : Nat) (commonSource : Path) (shardedSources : List Path) :
    Prop where
  shard : ¬ (waveShardCount < 1 ∨ waveShardCount > maxShards ∨ shardIndex ≥ waveShardCount)
  few : ¬ shardedSources.length > maxShardedSources
  destination : w.IsDirectory destination ∧ w.entries destination = []
  common : Common w sha1 commonSource
  room : 1 ≤ (w.commonNames commonSource).length ∧ (w.commonNames commonSource).length < windowSize
  capped : w.Private shardedSources
  digests : ∀ p ∈ bucketAt (w.placed shardedSources) (waveNumber * waveShardCount + shardIndex),
    w.Digests sha1 shardedSources p

theorem World.placed_perm {sources sources' : List Path} (h : sources.Perm sources') :
    (w.placed sources).Perm (w.placed sources') := h.flatMap_right _

theorem World.Digests.perm {sources sources' : List Path} (hp : sources.Perm sources') {p : String}
    (h : w.Digests sha1 sources p) : w.Digests sha1 sources' p :=
  fun u hu => h u ((World.placed_perm hp).mem_iff.2 hu)

/-- The order of the private sources does not matter. -/
theorem Accepts.perm {destination : Path} {shardIndex waveShardCount waveNumber : Nat}
    {commonSource : Path} {sources sources' : List Path} (hp : sources.Perm sources')
    (h : Accepts w sha1 destination shardIndex waveShardCount waveNumber commonSource sources) :
    Accepts w sha1 destination shardIndex waveShardCount waveNumber commonSource sources' := by
  have hplaced := World.placed_perm (w := w) hp
  refine ⟨h.shard, hp.length_eq ▸ h.few, h.destination, h.common, h.room, ⟨fun d hd => ?_, ?_⟩, ?_⟩
  · exact h.capped.1 d (hp.mem_iff.2 hd)
  · exact capped_of_perm (hplaced.map _) h.capped.2
  · intro q hq
    unfold bucketAt at hq
    rw [← bucketsOf_perm hplaced] at hq
    exact (h.digests q hq).perm hp

/-! ## The selection -/

theorem found_unitsOf {units : Dict String MUnit} (h : FoundUnits w sha1 units) {names : List String}
    {m : MUnit} (hm : m ∈ unitsOf units names) : Found w sha1 m := by
  obtain ⟨n, -, hn⟩ := List.mem_filterMap.1 hm
  exact h.found n m hn

theorem FoundUnits.filter {units : Dict String MUnit} (h : FoundUnits w sha1 units)
    (q : String × MUnit → Bool) : FoundUnits w sha1 (units.filter q) := by
  refine ⟨h.named.filter q, fun n m hm => ?_⟩
  have hmem := (List.mem_filter.1 (Dict.mem_of_get? hm)).1
  exact h.found n m (Dict.get?_of_mem h.named.1 hmem)

/-- The names of a validated bucket that are not common. -/
theorem remaining_keys {common units : Dict String MUnit} (hunits : FoundUnits w sha1 units)
    {us : List Placed} {names : List String} {p : String} (hcommon : ∀ n, n ∈ common.keys ↔ n ∈ names)
    (hkeys : ∀ n, n ∈ units.keys ↔ ∃ u ∈ us, u.2.1 = n ∧ u.bucket = p) :
    sorted (Dict.keys (units.filter fun q => ¬ common.has q.1)) = remainingOf names us p := by
  refine sorted_congr (hunits.filter _).named.1 (List.nodup_dedup _) fun n => ?_
  have hleft : n ∈ Dict.keys (units.filter fun q => ¬ common.has q.1) ↔
      n ∈ units.keys ∧ n ∉ common.keys := by
    simp only [Dict.keys, List.mem_map, List.mem_filter, decide_eq_true_eq, Dict.has_iff]
    constructor
    · rintro ⟨q, ⟨hq, hnot⟩, rfl⟩
      exact ⟨⟨q, hq, rfl⟩, hnot⟩
    · rintro ⟨⟨q, hq, rfl⟩, hnot⟩
      exact ⟨q, ⟨hq, hnot⟩, rfl⟩
  rw [hleft, hkeys, hcommon, List.mem_dedup, List.mem_filter, List.mem_map]
  simp only [List.mem_filter, decide_eq_true_eq]
  constructor
  · rintro ⟨⟨u, hu, rfl, hb⟩, hnot⟩
    exact ⟨⟨u, ⟨hu, hb⟩, rfl⟩, hnot⟩
  · rintro ⟨⟨u, ⟨hu, hb⟩, rfl⟩, hnot⟩
    exact ⟨⟨u, hu, rfl, hb⟩, hnot⟩

/-- The prefixes an inventory lists. -/
theorem prefixes_inventory {us us' : List Placed} (hus : us.Perm us') (sources : List Path) :
    ((scanOf none us).inventory sources).prefixes = bucketsOf us' := by
  refine sorted_congr (nodup_bucketFiles_foldl none us Scan.empty List.nodup_nil) (List.nodup_dedup _)
    fun p => ?_
  rw [scanOf, mem_bucketFiles_foldl, List.mem_dedup, List.mem_map]
  refine (or_iff_right fun h => absurd h List.not_mem_nil).trans
    (exists_congr fun u => and_congr_left fun _ => ?_)
  exact hus.mem_iff

/-- The selection made of the common units and of those of a bucket. -/
def selectionOf (common : Dict String MUnit) (bucketPrefix : Option String) (bucketVisit : Nat)
    (privateUnits : Dict String MUnit) : Selection :=
  let commonNames := sorted common.keys
  let (windowCount, windowIndex, assignedNames) :=
    assign (sorted privateUnits.keys) (windowSize - common.length) bucketVisit
  { commonNames, assignedNames, bucketPrefix, bucketVisit, windowIndex, windowCount
    selected := unitsOf common commonNames ++ unitsOf privateUnits assignedNames }

theorem found_selectionOf {common privateUnits : Dict String MUnit} (hcommon : FoundUnits w sha1 common)
    (hprivate : FoundUnits w sha1 privateUnits) (bucketPrefix : Option String) (bucketVisit : Nat) :
    ∀ m ∈ (selectionOf common bucketPrefix bucketVisit privateUnits).selected, Found w sha1 m := by
  intro m hm
  rcases List.mem_append.1 hm with hm | hm
  · exact found_unitsOf hcommon hm
  · exact found_unitsOf hprivate hm

/-- The selection is the choice where the bucket, its visit and its names are. -/
theorem bare_selectionOf {common : Dict String MUnit} (privateUnits : Dict String MUnit)
    {names : List String} (us : List Placed) (ordinal : Nat) (hcommon : sorted common.keys = sorted names)
    (hlength : common.length = names.length)
    (hprivate : sorted privateUnits.keys = ((bucketAt us ordinal).map (remainingOf names us)).getD []) :
    (selectionOf common (bucketAt us ordinal) (if bucketsOf us = [] then 0
      else ordinal / (bucketsOf us).length) privateUnits).bare = choice names us ordinal := by
  unfold selectionOf choice Selection.bare
  rw [hcommon, hlength, hprivate]

section
variable {common : Dict String MUnit} {names : List String} {sources : List Path}

/-- From the inventory on. -/
theorem decides_bucket (h : Shows w os I) (hcommon : FoundUnits w sha1 common)
    (hkeys : ∀ n, n ∈ common.keys ↔ n ∈ names) (hnames : names.Nodup) (hprivate : w.Private sources)
    {us : List Placed} (hus : us.Perm (w.placed sources)) (ordinal : Nat) :
    Decides I
      (if bucketsOf (w.placed sources) = [] then pure (selectionOf common none 0 [])
      else do
        let validated ← validatePrivateBucket os sha1 ((scanOf none us).inventory sources)
          ((bucketsOf (w.placed sources)).getD (ordinal % (bucketsOf (w.placed sources)).length) "")
        pure (selectionOf common
          (some ((bucketsOf (w.placed sources)).getD (ordinal % (bucketsOf (w.placed sources)).length) ""))
          (ordinal / (bucketsOf (w.placed sources)).length)
          (validated.filter fun q => ¬ common.has q.1)))
      (∀ p ∈ bucketAt (w.placed sources) ordinal, w.Digests sha1 sources p)
      fun selection s => I s ∧ selection.bare = choice names (w.placed sources) ordinal ∧
        ∀ m ∈ selection.selected, Found w sha1 m := by
  have hsorted : sorted common.keys = sorted names := sorted_congr hcommon.named.1 hnames hkeys
  have hlength : common.length = names.length := by
    rw [← length_sorted names, ← hsorted, length_sorted, Dict.keys, List.length_map]
  by_cases hempty : bucketsOf (w.placed sources) = []
  · have hat : bucketAt (w.placed sources) ordinal = none := if_pos hempty
    rw [if_pos hempty, hat]
    refine Decides.pure (fun _ hp => absurd hp (Option.not_mem_none _)) fun s hs => ⟨hs, ?_, ?_⟩
    · have hbare := bare_selectionOf [] (w.placed sources) ordinal hsorted hlength (by rw [hat]; rfl)
      rw [hat, if_pos hempty] at hbare
      exact hbare
    · exact found_selectionOf hcommon FoundUnits.nil _ _
  · have hat : bucketAt (w.placed sources) ordinal = some _ := if_neg hempty
    rw [if_neg hempty, hat]
    refine (Decides.bind (D := True) (decides_validatePrivateBucket h hprivate hus _)
      fun _ validated => ?_).mono ?_ fun _ _ _ hend => hend
    · refine Decides.of_fact fun ⟨hunits, hmem⟩ => Decides.pure trivial fun s hs => ⟨hs, ?_, ?_⟩
      · have hbare := bare_selectionOf (validated.filter fun q => ¬ common.has q.1) (w.placed sources)
          ordinal hsorted hlength (by rw [hat, remaining_keys hunits hkeys hmem]; rfl)
        rw [hat, if_neg hempty] at hbare
        exact hbare
      · exact found_selectionOf hcommon (hunits.filter _) _ _
    · rw [and_true]
      exact ⟨fun hd p hp => by cases hp; exact hd, fun hd => hd _ rfl⟩

/-- The inventory is that of the files in some order. -/
theorem decides_scanPrivateInventory (h : Shows w os I) (sources : List Path) :
    Decides I (scanPrivateInventory os sources) (w.Private sources) fun inventory s => I s ∧
      ∃ us : List Placed, us.Perm (w.placed sources) ∧
        inventory = (scanOf none us).inventory sources := by
  refine (Decides.bind (D := True) (decides_scanPrivateSources h sources) fun _ r => ?_).mono ?_
    fun _ _ _ hend => hend
  · refine Decides.of_fact fun ⟨us, hus, hr⟩ => ?_
    rw [hr]
    exact Decides.pure trivial fun s hs => ⟨hs, us, hus, rfl⟩
  · exact and_iff_left trivial

end

/-- Whether there is a selection, and what it comes to. -/
theorem decides_materializeSelect (h : Shows w os I) (destination : Path)
    (shardIndex waveShardCount waveNumber : Nat) (commonSource : Path) (shardedSources : List Path) :
    Decides I
      (materializeSelect os sha1 destination shardIndex waveShardCount waveNumber commonSource
        shardedSources)
      (Accepts w sha1 destination shardIndex waveShardCount waveNumber commonSource shardedSources)
      fun selection s => I s ∧
        selection.bare = choice (w.commonNames commonSource) (w.placed shardedSources)
          (waveNumber * waveShardCount + shardIndex) ∧
        ∀ m ∈ selection.selected, Found w sha1 m := by
  have hnames : (w.commonNames commonSource).Nodup := List.nodup_dedup _
  have hselect : ∀ common : Dict String MUnit, Decides
      (fun s => I s ∧ FoundUnits w sha1 common ∧
        ∀ n, n ∈ common.keys ↔ n ∈ (w.entries commonSource).map Prod.fst)
      (do
        rejectIf (¬ (1 ≤ common.length ∧ common.length < windowSize)) .commonCapacity
        let inventory ← scanPrivateInventory os shardedSources
        if inventory.prefixes = [] then pure (selectionOf common none 0 [])
        else do
          let validated ← validatePrivateBucket os sha1 inventory (inventory.prefixes.getD
            ((waveNumber * waveShardCount + shardIndex) % inventory.prefixes.length) "")
          pure (selectionOf common
            (some (inventory.prefixes.getD
              ((waveNumber * waveShardCount + shardIndex) % inventory.prefixes.length) ""))
            ((waveNumber * waveShardCount + shardIndex) / inventory.prefixes.length)
            (validated.filter fun q => ¬ common.has q.1)))
      ((1 ≤ (w.commonNames commonSource).length ∧
          (w.commonNames commonSource).length < windowSize) ∧
        w.Private shardedSources ∧
        ∀ p ∈ bucketAt (w.placed shardedSources) (waveNumber * waveShardCount + shardIndex),
          w.Digests sha1 shardedSources p)
      fun selection s => I s ∧
        selection.bare = choice (w.commonNames commonSource) (w.placed shardedSources)
          (waveNumber * waveShardCount + shardIndex) ∧
        ∀ m ∈ selection.selected, Found w sha1 m := by
    intro common
    refine Decides.of_fact fun ⟨hcommon, hmem⟩ => ?_
    have hkeys : ∀ n, n ∈ common.keys ↔ n ∈ w.commonNames commonSource := fun n => by
      rw [hmem, World.commonNames, List.mem_dedup]
    have hlength : common.length = (w.commonNames commonSource).length := by
      rw [← length_sorted (w.commonNames commonSource), ← sorted_congr hcommon.named.1 hnames hkeys,
        length_sorted, Dict.keys, List.length_map]
    refine (Decides.bind decides_rejectIf fun _ _ =>
      Decides.bind (D := ∀ p ∈ bucketAt (w.placed shardedSources) (waveNumber * waveShardCount +
          shardIndex), w.Digests sha1 shardedSources p)
        (decides_scanPrivateInventory h shardedSources) fun hprivate inventory =>
          Decides.of_fact fun hinventory => ?_).mono ?_ fun _ _ _ hend => hend
    · obtain ⟨us, hus, hinventory⟩ := hinventory
      rw [hinventory, prefixes_inventory hus]
      exact decides_bucket h hcommon hkeys hnames hprivate hus _
    · rw [not_not, hlength]
  refine (Decides.bind decides_rejectIf fun _ _ => Decides.bind decides_rejectIf fun _ _ =>
    Decides.bind (decides_validateDestination h destination) fun _ _ =>
    Decides.bind (decides_validateSource h commonSource) fun _ => hselect).mono ?_
    fun _ _ _ hend => hend
  exact ⟨fun ⟨h1, h2, h3, h4, h5, h6, h7⟩ => ⟨h1, h2, h3, h4, h5, h6, h7⟩,
    fun ha => ⟨ha.1, ha.2, ha.3, ha.4, ha.5, ha.6, ha.7⟩⟩

end MpcHunt.MaterializeWindow
