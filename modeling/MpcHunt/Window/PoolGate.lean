/-
The capacity gate of `aggregate_ingest.sh` against the reader: the gate scans
the corpus directories that are there, each shard that of its own lane. A
pool the gate lets through is scanned by every shard of a lane that has a
directory in it, and by none of a lane that has not.
-/
import MpcHunt.Window.Coverage
import MpcHunt.Window.WorldScan

namespace MpcHunt.MaterializeWindow

/-! ## The gate -/

/-- `BRAIN_HARNESSES`. -/
def brainHarnesses : List String :=
  ["cmp_ecdsa_online", "cmp_ecdsa_online_r4_tn", "cmp_ecdsa_online_dual"]

inductive Lane where
  | cmpGeneral | cmpR4Tn | cmpDual
deriving DecidableEq, Repr

/-- `lane_to_harness`. -/
def laneToHarness : Lane → String
  | .cmpGeneral => "cmp_ecdsa_online"
  | .cmpR4Tn => "cmp_ecdsa_online_r4_tn"
  | .cmpDual => "cmp_ecdsa_online_dual"

/-- `corpus_dir_for`, of a known harness. -/
def corpusDirFor (harness : String) : Path := ["corpus", harness]

/-- `[[ -e path || -L path ]]`: whatever `lstat` finds, a symlink to nowhere too. -/
def World.present (w : World) (path : Path) : Bool := (w path).isSome

/-- `capacity_dirs`. -/
def capacityDirs (w : World) (stage : Path) : List Path :=
  (brainHarnesses.map fun harness => stage ++ corpusDirFor harness).filter w.present

section
variable {σ : Type} (os : OS σ)

/-- `validate` of `validate_pool_capacity.py`. -/
def validatePool : List Path → Py σ Unit
  | [] => pure ()
  | directory :: rest => do
    let _ ← scanPrivateInventory os [directory]
    validatePool rest

/-- The exit status of `validate_pool_capacity.py`. -/
def validatePoolCapacity (directories : List Path) (s : σ) : Nat :=
  match validatePool os directories s with
  | .ok _ _ => 0
  | .error _ _ => 2

end

/-- The exit status of the gate on a staged pool. -/
def capacityGate (w : World) (stage : Path) : Nat :=
  validatePoolCapacity (worldOS w) (capacityDirs w stage) ()

variable {w : World}

theorem validatePool_eq_ok {dirs : List Path} {u u' : Unit} {r : Unit} :
    validatePool (worldOS w) dirs u = .ok r u' ↔ ∀ d ∈ dirs, Scannable w d := by
  induction dirs generalizing u with
  | nil => simp [validatePool, pure_eq_ok]
  | cons d dirs ih =>
    rw [List.forall_mem_cons, validatePool, Raising.bind_eq_ok]
    constructor
    · intro ⟨inventory, _, hscan, hrest⟩
      exact ⟨scanPrivateInventory_iff.1 ⟨inventory, hscan⟩, ih.1 hrest⟩
    · intro ⟨hd, hrest⟩
      obtain ⟨inventory, hscan⟩ := scanPrivateInventory_iff.2 hd
      exact ⟨inventory, (), hscan, ih.2 hrest⟩

/-- The gate lets a pool through when every corpus directory that is there is scannable. -/
theorem capacityGate_eq_zero {stage : Path} :
    capacityGate w stage = 0 ↔ ∀ harness ∈ brainHarnesses,
      w.present (stage ++ corpusDirFor harness) = true →
        Scannable w (stage ++ corpusDirFor harness) := by
  have hexit : capacityGate w stage = 0 ↔
      ∃ r u', validatePool (worldOS w) (capacityDirs w stage) () = .ok r u' := by
    unfold capacityGate validatePoolCapacity
    cases validatePool (worldOS w) (capacityDirs w stage) () <;> simp
  rw [hexit]
  simp only [validatePool_eq_ok, exists_const, capacityDirs, List.mem_filter, List.mem_map]
  constructor
  · intro h harness hmem hpresent
    exact h _ ⟨⟨harness, hmem, rfl⟩, hpresent⟩
  · rintro h d ⟨⟨harness, hmem, rfl⟩, hpresent⟩
    exact h harness hmem hpresent

theorem laneToHarness_mem (lane : Lane) : laneToHarness lane ∈ brainHarnesses := by
  cases lane <;> decide

/-! ## The reader -/

/-- The codes of the scan: `source_*`, `*_cap` and `*_size_cap`. -/
def FailCode.ofScan : FailCode → Bool
  | .sourceCountCap | .sourceDirectory | .sourceScan | .sourceName | .sourceStat
  | .sourceNonregular | .sourceOpen | .sourceChanged | .unitSizeCap | .fileCountCap | .totalSizeCap
  | .bucketCap | .bucketSizeCap => true
  | _ => false

/-- A step that raises nothing but a content that does not hash to its name. -/
def OnlyHash {α : Type} (x : EStateM.Result Raised Unit α) : Prop :=
  ∀ r u, x = .error r u → r = .failClosed .contentHash

theorem onlyHash_ok {α : Type} {x : EStateM.Result Raised Unit α} {a : α} {u : Unit}
    (h : x = .ok a u) : OnlyHash x := by
  intro r u' hx
  rw [h] at hx
  cases hx

theorem onlyHash_bind {α β : Type} {x : Py Unit α} {f : α → Py Unit β} {u : Unit}
    (hx : OnlyHash (x u)) (hf : ∀ a u', x u = .ok a u' → OnlyHash (f a u')) :
    OnlyHash ((x >>= f) u) := by
  intro r u' h
  simp only [bind, EStateM.bind] at h
  cases hres : x u with
  | ok a t =>
    rw [hres] at h
    exact hf a t hres r u' h
  | error e t =>
    rw [hres] at h
    cases h
    exact hx _ _ hres

theorem onlyHash_contentHash {bad : Prop} [Decidable bad] {u : Unit} :
    OnlyHash (rejectIf bad .contentHash u) := by
  intro r u' h
  unfold rejectIf at h
  by_cases hbad : bad
  · rw [if_pos hbad] at h
    cases h
    rfl
  · rw [if_neg hbad] at h
    cases h

variable {sha1 : Bytes → String}

theorem hashRegularFile_world {path : Path} {f : SourceFile} (hf : w path = some (.file f))
    (h : f.content.length ≤ maxUnitBytes) (u : Unit) :
    hashRegularFile (worldOS w) sha1 path f.stat u = .ok (sha1 f.content, f.content.length) u := by
  have hopen : callOr .sourceOpen ((worldOS w).openRead path) u = .ok f.session u :=
    callOr_ok (by simp only [worldOS, hf])
  rw [hashRegularFile, bind_ok hopen,
    bind_ok (orRaise_ok (x := f.session.opened) (a := f.stat) rfl u),
    bind_ok (rejectIf_ok (by simp [SourceFile.stat]) u),
    bind_ok (rejectIf_ok (by simp) u), bind_ok (liftExcept_ok (readCapped_session h) u),
    bind_ok (orRaise_ok (x := f.session.after) (a := f.stat) rfl u),
    bind_ok (rejectIf_ok (by simp [SourceFile.stat]) u)]
  rfl

/-- A unit as the scan selects it from a directory. -/
def FromScan (w : World) (d : Path) (names : List String) (m : MUnit) : Prop :=
  ∃ n f, (n, Node.file f) ∈ w.listing d names ∧ m = ⟨n, d ++ [n], f.content.length⟩

theorem validateCandidates_onlyHash {d : Path} {names : List String} (h : ScannableAt w d names)
    (name : String) {ms : List MUnit} (hms : ∀ m ∈ ms, FromScan w d names m)
    (validated : Dict String MUnit) (u : Unit) :
    OnlyHash (validateCandidates (worldOS w) sha1 name ms validated u) := by
  induction ms generalizing validated u with
  | nil => exact onlyHash_ok rfl
  | cons m ms ih =>
    obtain ⟨⟨n, f, hmem, rfl⟩, hrest⟩ := List.forall_mem_cons.1 hms
    have hat : w (d ++ [n]) = some (.file f) := (mem_listing.1 hmem).2
    have hsize : f.content.length ≤ maxUnitBytes := by
      obtain ⟨-, g, hg, hsize⟩ := h.acceptable _ hmem
      cases hg
      exact hsize
    have hlstat : callOr .sourceChanged ((worldOS w).lstat (d ++ [n])) u = .ok f.stat u :=
      callOr_ok (by simp only [worldOS, hat, Node.stat])
    unfold validateCandidates
    rw [bind_ok hlstat, bind_ok (rejectIf_ok (by simp [SourceFile.stat]) u),
      bind_ok (hashRegularFile_world hat hsize u)]
    refine onlyHash_bind onlyHash_contentHash fun _ u' _ => ?_
    rw [bind_ok (rejectIf_ok (by simp) u')]
    exact ih hrest _ u'

theorem validateNames_onlyHash {d : Path} {names : List String} (h : ScannableAt w d names)
    {candidates : Dict String (List MUnit)}
    (hc : ∀ n ms, candidates.get? n = some ms → ∀ m ∈ ms, FromScan w d names m) (ns : List String)
    (validated : Dict String MUnit) (u : Unit) :
    OnlyHash (validateNames (worldOS w) sha1 candidates ns validated u) := by
  induction ns generalizing validated u with
  | nil => exact onlyHash_ok rfl
  | cons n ns ih =>
    unfold validateNames
    refine onlyHash_bind (validateCandidates_onlyHash h n ?_ validated u) fun v u' _ => ih v u'
    cases hn : candidates.get? n with
    | none => simp
    | some ms => exact hc n ms hn

theorem validatePrivateBucket_onlyHash {d : Path} {names : List String}
    (h : ScannableAt w d names) (p : String) (u : Unit) :
    OnlyHash (validatePrivateBucket (worldOS w) sha1 ((w.scan none d names).inventory [d]) p u) := by
  obtain ⟨-, -, hval⟩ := candidatesOf_foldl p (placed d (w.listing d names))
  have hscan : scanPrivateSources (worldOS w) ((w.scan none d names).inventory [d]).sources (some p)
      u = .ok ((w.scan (some p) d names).inventory [d], (w.scan (some p) d names).selected) () :=
    scanPrivateSources_eq_ok.2 ⟨names, h, rfl⟩
  have hsame : ¬ ((w.scan (some p) d names).inventory [d] ≠ (w.scan none d names).inventory [d]) :=
    not_not.2 (inventory_foldl (some p) none _ [d])
  rw [validatePrivateBucket, bind_ok hscan]
  dsimp only
  rw [bind_ok (rejectIf_ok hsame ())]
  refine validateNames_onlyHash h ?_ _ _ ()
  intro n ms hms m hm
  obtain ⟨⟨d', k, f⟩, hq, -, rfl⟩ := (hval n ms hms).2 m hm
  obtain ⟨hd, hmem⟩ := mem_placed.1 hq
  exact ⟨k, f, hmem, by rw [← show d' = d from hd]; rfl⟩

section
variable {dest common : Path} {d : Path} {units : Dict String MUnit} {i N wave : Nat}

theorem scanPrivateInventory_absent (h : w d = none) :
    scanPrivateInventory (worldOS w) [d] () = .error (.failClosed .sourceDirectory) () := by
  simp only [scanPrivateInventory, scanPrivateSources, scanSources, lstatDirectory, bind,
    EStateM.bind, callOr, worldOS, h]

theorem few_sources : ¬ [d].length > maxShardedSources := by
  simp [maxShardedSources]

/-- A shard whose arguments, destination and common set are in order, with a directory to scan,
can only fail on a content. -/
theorem materializeSelect_onlyHash (hN : 1 ≤ N ∧ N ≤ maxShards) (hi : i < N)
    (hdest : validateDestination (worldOS w) dest () = .ok () ())
    (hcommon : validateSource (worldOS w) sha1 common () = .ok units ())
    (hunits : 1 ≤ units.length ∧ units.length < windowSize) (h : Scannable w d) :
    OnlyHash (materializeSelect (worldOS w) sha1 dest i N wave common [d] ()) := by
  obtain ⟨names, h⟩ := h
  have hscan : scanPrivateInventory (worldOS w) [d] () =
      .ok ((w.scan none d names).inventory [d]) () :=
    scanPrivateInventory_eq_ok.2 ⟨names, h, rfl⟩
  rw [materializeSelect, bind_ok (rejectIf_ok (by omega) ()),
    bind_ok (rejectIf_ok few_sources ()), bind_ok hdest,
    bind_ok hcommon, bind_ok (rejectIf_ok (not_not.2 hunits) ()), bind_ok hscan]
  dsimp only
  by_cases hp : ((w.scan none d names).inventory [d]).prefixes = []
  · rw [if_pos hp]
    exact onlyHash_ok rfl
  · rw [if_neg hp]
    exact onlyHash_bind (validatePrivateBucket_onlyHash h _ ()) fun _ _ _ => onlyHash_ok rfl

/-- With nothing to scan it fails. -/
theorem materializeSelect_absent (hN : 1 ≤ N ∧ N ≤ maxShards) (hi : i < N)
    (hdest : validateDestination (worldOS w) dest () = .ok () ())
    (hcommon : validateSource (worldOS w) sha1 common () = .ok units ())
    (hunits : 1 ≤ units.length ∧ units.length < windowSize) (h : w d = none) :
    materializeSelect (worldOS w) sha1 dest i N wave common [d] () =
      .error (.failClosed .sourceDirectory) () := by
  rw [materializeSelect, bind_ok (rejectIf_ok (by omega) ()),
    bind_ok (rejectIf_ok few_sources ()), bind_ok hdest,
    bind_ok hcommon, bind_ok (rejectIf_ok (not_not.2 hunits) ())]
  simp only [bind, EStateM.bind, scanPrivateInventory_absent h]

end

/-! ## Gate and reader -/

/-- A pool the gate lets through is read by a shard, whatever its number and wave, exactly when
the pool has something at the corpus directory of its lane. -/
theorem capacityGate_reader_iff {staged w : World} {stage brain dest common : Path}
    (hgate : capacityGate staged stage = 0) (hsame : SameTree staged stage w brain) (lane : Lane)
    {i N : Nat} (hN : 1 ≤ N ∧ N ≤ maxShards) (hi : i < N) (wave : Nat)
    (hdest : validateDestination (worldOS w) dest () = .ok () ()) {units : Dict String MUnit}
    (hcommon : validateSource (worldOS w) sha1 common () = .ok units ())
    (hunits : 1 ≤ units.length ∧ units.length < windowSize) :
    (∀ code u, code.ofScan = true →
      materializeSelect (worldOS w) sha1 dest i N wave common
        [brain ++ corpusDirFor (laneToHarness lane)] () ≠ .error (.failClosed code) u) ↔
      staged.present (stage ++ corpusDirFor (laneToHarness lane)) = true := by
  have hlane := hsame.under (corpusDirFor (laneToHarness lane))
  constructor
  · intro h
    by_contra habsent
    have hnone : staged (stage ++ corpusDirFor (laneToHarness lane)) = none := by
      simpa [World.present] using habsent
    have hroot := hlane []
    rw [List.append_nil, List.append_nil, hnone] at hroot
    have hw : w (brain ++ corpusDirFor (laneToHarness lane)) = none := by
      generalize w (brain ++ corpusDirFor (laneToHarness lane)) = x at hroot
      cases hroot
      rfl
    exact h .sourceDirectory () rfl (materializeSelect_absent hN hi hdest hcommon hunits hw)
  · intro hpresent code u hcode herror
    have hscan := hlane.scannable (capacityGate_eq_zero.1 hgate _ (laneToHarness_mem lane) hpresent)
    have hhash := materializeSelect_onlyHash hN hi hdest hcommon hunits hscan _ _ herror
    cases hhash
    cases hcode

/-! ## A pool with one lane -/

namespace OneLane

open OneEach (commonUnit privateUnit digest)

/-- One unit, of the harness of `cmp_general`. -/
def pool : World
  | ["corpus", "cmp_ecdsa_online"] => some (.directory [privateUnit])
  | ["corpus", "cmp_ecdsa_online", n] => if n = privateUnit then some (.file ⟨1, 2, [97]⟩) else none
  | _ => none

/-- The pool under `pool`, an empty destination and a common set of one unit. -/
def world : World
  | "pool" :: r => pool r
  | ["dest"] => some (.directory [])
  | ["common"] => some (.directory [commonUnit])
  | ["common", n] => if n = commonUnit then some (.file ⟨1, 1, []⟩) else none
  | _ => none

theorem same : SameTree world ["pool"] world ["pool"] := by
  intro r
  cases h : world (["pool"] ++ r) with
  | none => exact .none
  | some node => exact .some (by cases node <;> simp [Node.Same])

theorem gate : capacityGate world ["pool"] = 0 := by decide

theorem destination : validateDestination (worldOS world) ["dest"] () = .ok () () := rfl

theorem common : validateSource (worldOS world) digest ["common"] () =
    .ok [(commonUnit, ⟨commonUnit, ["common", commonUnit], 0⟩)] () := rfl

end OneLane

/-- The shards of `cmp_general` read the pool of `OneLane`. -/
theorem capacityGate_reader_oneLane :
    capacityGate OneLane.world ["pool"] = 0 ∧ ∀ code u, code.ofScan = true →
      materializeSelect (worldOS OneLane.world) OneEach.digest ["dest"] 0 1 0 ["common"]
        [["pool"] ++ corpusDirFor (laneToHarness .cmpGeneral)] () ≠ .error (.failClosed code) u :=
  ⟨OneLane.gate, (capacityGate_reader_iff OneLane.gate OneLane.same .cmpGeneral (by decide)
    (by decide) 0 OneLane.destination OneLane.common (by decide)).2 rfl⟩

/-- The gate lets the pool of `OneLane` through, and a shard of `cmp_dual` fails on it. -/
theorem oneLane_unreadable :
    ∃ units, capacityGate OneLane.world ["pool"] = 0 ∧
      SameTree OneLane.world ["pool"] OneLane.world ["pool"] ∧
      validateDestination (worldOS OneLane.world) ["dest"] () = .ok () () ∧
      validateSource (worldOS OneLane.world) OneEach.digest ["common"] () = .ok units () ∧
      1 ≤ units.length ∧ units.length < windowSize ∧
      materializeSelect (worldOS OneLane.world) OneEach.digest ["dest"] 0 1 0 ["common"]
        [["pool"] ++ corpusDirFor (laneToHarness .cmpDual)] () =
          .error (.failClosed .sourceDirectory) () :=
  ⟨_, OneLane.gate, OneLane.same, OneLane.destination, OneLane.common, by decide, by decide,
    materializeSelect_absent (by decide) (by decide) OneLane.destination OneLane.common (by decide)
      rfl⟩

end MpcHunt.MaterializeWindow
