/-
What a shard publishes, from its corpus directory to the merged pool:
`quarantine_corpus.py`, `validate_corpus.py`, `materialize_corpus.py`, the
loop of `publish_ingest.sh` and that of `aggregate_ingest.sh`. The shard side
takes units of up to 4 MiB, the reader of the pool units of up to 1 MiB.
-/
import MpcHunt.Lib.Merge
import MpcHunt.Window.PoolGate

namespace MpcHunt.MaterializeWindow

open Checks Merge

/-- `MAX_UNIT_BYTES` of `quarantine_corpus.py`, and the constant of the other two. -/
def maxCorpusUnitBytes : Nat := 4 * 1024 * 1024

def maxCorpusFiles : Nat := 100000

def maxCorpusBytes : Nat := 512 * 1024 * 1024

/-- A corpus directory as the scripts find it: not there, not a directory (or a symlink), or its
entries in the order of the scan. -/
inductive Corpus where
  | missing
  | invalid
  | dir (entries : List (String × Node))

/-- Forty characters of `0123456789abcdef`. -/
def corpusName (name : String) : Bool :=
  name.toList.length = 40 && name.toList.all fun c => "0123456789abcdef".toList.contains c

section
variable (sha1 : Bytes → String)

/-! ## The shard -/

/-- The file of an entry that is not an anomaly: what all three scripts refuse first. -/
def corpusFile (entry : String × Node) : Except String SourceFile :=
  match entry.2 with
  | .symlink => .error "symlink rejected"
  | .directory _ => .error "nested or non-regular corpus entry rejected"
  | .other => .error "nested or non-regular corpus entry rejected"
  | .file f => if ¬ corpusName entry.1 then .error "invalid corpus name" else .ok f

/-- One entry of `quarantine_corpus.py`: kept, or set aside where the quarantine directory can be
used. -/
def quarantineEntry (usable : Bool) (kept : List (String × Node)) (entry : String × Node) :
    Except String (List (String × Node)) := do
  let f ← corpusFile entry
  if f.content.length ≤ maxCorpusUnitBytes ∧ sha1 f.content = entry.1 then
    return kept ++ [entry]
  else do
    refuse (¬ usable) "invalid quarantine directory"
    return kept

/-- `quarantine_corpus.py`, with the directory it leaves. -/
def quarantineCorpus (usable : Bool) (root : Corpus) : Except String (List (String × Node)) :=
  match root with
  | .dir entries => do
    let kept ← entries.foldlM (quarantineEntry sha1 usable) []
    refuse (kept = []) "no valid unit survives"
    return kept
  | _ => .error "invalid corpus root"

/-- The checks `validate_corpus.py` and `validated_units` make of an entry. -/
def validatedEntry (entry : String × Node) : Except String (String × Bytes) := do
  let f ← corpusFile entry
  refuse (f.content.length > maxCorpusUnitBytes) "corpus unit too large"
  refuse (sha1 f.content ≠ entry.1) "corpus hash mismatch"
  return (entry.1, f.content)

/-- `validate_corpus.py`. -/
def validateCorpus (root : Corpus) : Except String Unit :=
  match root with
  | .dir entries => do
    let units ← entries.mapM (validatedEntry sha1)
    refuse (units = []) "empty corpus"
  | _ => .error "invalid corpus root"

/-! ## The publisher -/

/-- `validated_units`. -/
def validatedUnits (root : Corpus) : Except String (List (String × Bytes)) :=
  match root with
  | .missing => .ok []
  | .invalid => .error "invalid corpus root"
  | .dir entries => entries.mapM (validatedEntry sha1)

/-- The destination of `materialize_corpus.py`, with its counters. -/
structure Copied where
  files : Dict String Bytes
  count : Nat
  total : Nat

def copyUnit (acc : Copied) (unit : String × Bytes) : Except String Copied :=
  match acc.files.get? unit.1 with
  | some content => if content ≠ unit.2 then .error "corpus collision" else .ok acc
  | none =>
    if acc.count + 1 > maxCorpusFiles ∨ acc.total + unit.2.length > maxCorpusBytes then
      .error "corpus materialization limit exceeded"
    else .ok ⟨acc.files.set unit.1 unit.2, acc.count + 1, acc.total + unit.2.length⟩

/-- `materialize` of `materialize_corpus.py`, into an empty directory. -/
def materializeCorpus (sources : List Corpus) : Except String (Dict String Bytes) := do
  let acc ← sources.foldlM (fun acc source => do
    (← validatedUnits sha1 source).foldlM copyUnit acc) ⟨[], 0, 0⟩
  return acc.files

/-- One turn of the loop of `publish_ingest.sh` over the validated units: the pool's corpus
directory of the harness with the unit in it. -/
def publishUnit (pool : Dict String Node) (unit : String × Bytes) :
    Except String (Dict String Node) :=
  match pool.get? unit.1 with
  | some (.file g) => if g.content = unit.2 then .ok pool else .error "exit 1"
  | some _ => .error "exit 1"
  | none => .ok (pool.set unit.1 (.file ⟨0, 0, unit.2⟩))

/-! ## The aggregator -/

/-- One turn of the loop of `aggregate_ingest.sh` over the corpus entries of a branch: the staged
directory with the unit in it. What the pool had at the start is only compared. -/
def aggregateUnit (base staged : Dict String Node) (entry : String × Node) :
    Except String (Dict String Node) :=
  match entry.2 with
  | .file f =>
    match base.get? entry.1 with
    | some (.file g) => if g.content = f.content then .ok staged else .error "exit 65"
    | some _ => .error "exit 65"
    | none =>
      if ¬ nameRe entry.1 then .error "exit 65"
      else if sha1 f.content ≠ entry.1 then .error "exit 1"
      else
        match staged.get? entry.1 with
        | some (.file g) => if g.content = f.content then .ok staged else .error "exit 1"
        | some _ => .error "exit 1"
        | none => .ok (staged.set entry.1 (.file ⟨0, 0, f.content⟩))
  | _ => .error "exit 65"

/-- The units in the order of `sort -z`. -/
def publishCorpus (pool : Dict String Node) (units : Dict String Bytes) :
    Except String (Dict String Node) :=
  (units.insertionSort fun a b => a.1 ≤ b.1).foldlM publishUnit pool

def aggregateCorpus (base branch : Dict String Node) : Except String (Dict String Node) :=
  branch.foldlM (aggregateUnit sha1 base) base

end

/-! ## What survives and what is copied -/

variable {sha1 : Bytes → String}

/-- A unit the shard side takes. -/
def Sound (sha1 : Bytes → String) (p : String × Node) : Prop :=
  ∃ f, p.2 = .file f ∧ sha1 f.content = p.1 ∧ f.content.length ≤ maxCorpusUnitBytes

theorem corpusFile_eq_ok {p : String × Node} {f : SourceFile} :
    corpusFile p = .ok f ↔ p.2 = .file f ∧ corpusName p.1 = true := by
  obtain ⟨n, node⟩ := p
  cases node with
  | file g =>
    simp only [corpusFile, guard_eq_ok, not_not, Except.ok.injEq, Node.file.injEq]
    exact and_comm
  | directory | symlink | other => simp [corpusFile]

theorem quarantineEntry_eq_ok {usable : Bool} {kept kept' : List (String × Node)}
    {p : String × Node} (h : quarantineEntry sha1 usable kept p = .ok kept') (q : String × Node) :
    q ∈ kept' ↔ q ∈ kept ∨ q = p ∧ Sound sha1 q := by
  obtain ⟨f, hf, h⟩ := bind_eq_ok.1 h
  obtain ⟨hp, -⟩ := corpusFile_eq_ok.1 hf
  by_cases hsound : f.content.length ≤ maxCorpusUnitBytes ∧ sha1 f.content = p.1
  · rw [if_pos hsound] at h
    obtain rfl : kept ++ [p] = kept' := Except.ok.inj h
    have : Sound sha1 p := ⟨f, hp, hsound.2, hsound.1⟩
    rw [List.mem_append, List.mem_singleton]
    constructor
    · rintro (hq | rfl)
      · exact .inl hq
      · exact .inr ⟨rfl, this⟩
    · rintro (hq | ⟨rfl, -⟩)
      · exact .inl hq
      · exact .inr rfl
  · rw [if_neg hsound] at h
    obtain ⟨_, -, h⟩ := bind_eq_ok.1 h
    obtain rfl : kept = kept' := Except.ok.inj h
    constructor
    · exact .inl
    · rintro (hq | ⟨rfl, g, hg, hhash, hsize⟩)
      · exact hq
      · rw [hp] at hg
        cases hg
        exact absurd ⟨hsize, hhash⟩ hsound

/-- What `quarantine_corpus.py` leaves: the units that are sound. -/
theorem mem_survivors {usable : Bool} {entries survivors : List (String × Node)}
    (h : quarantineCorpus sha1 usable (.dir entries) = .ok survivors) (p : String × Node) :
    p ∈ survivors ↔ p ∈ entries ∧ Sound sha1 p := by
  obtain ⟨kept, hkept, h⟩ := bind_eq_ok.1 h
  obtain ⟨_, -, h⟩ := bind_eq_ok.1 h
  obtain rfl : kept = survivors := Except.ok.inj h
  have key : ∀ {es acc : List (String × Node)},
      es.foldlM (quarantineEntry sha1 usable) acc = .ok kept →
        (p ∈ kept ↔ p ∈ acc ∨ p ∈ es ∧ Sound sha1 p) := by
    intro es
    induction es with
    | nil =>
      intro acc h
      obtain rfl : acc = kept := Except.ok.inj h
      simp
    | cons e es ih =>
      intro acc h
      rw [List.foldlM_cons] at h
      obtain ⟨mid, hmid, hrest⟩ := bind_eq_ok.1 h
      rw [ih hrest, quarantineEntry_eq_ok hmid, List.mem_cons]
      tauto
  rw [key hkept]
  simp

theorem mem_validatedUnits {entries : List (String × Node)} {units : List (String × Bytes)}
    (h : validatedUnits sha1 (.dir entries) = .ok units) (u : String × Bytes) :
    u ∈ units ↔ ∃ f, (u.1, Node.file f) ∈ entries ∧ f.content = u.2 ∧ corpusName u.1 = true ∧
      f.content.length ≤ maxCorpusUnitBytes ∧ sha1 f.content = u.1 := by
  rw [mem_mapM_ok h]
  simp only [validatedEntry, bind_eq_ok, refuse_eq_ok, corpusFile_eq_ok]
  constructor
  · rintro ⟨⟨n, node⟩, hmem, f, ⟨hnode, hname⟩, _, hsize, _, hhash, hu⟩
    obtain rfl : (n, f.content) = u := Except.ok.inj hu
    exact ⟨f, hnode ▸ hmem, rfl, hname, Nat.not_lt.1 hsize, not_not.1 hhash⟩
  · rintro ⟨f, hmem, hcontent, hname, hsize, hhash⟩
    exact ⟨(u.1, .file f), hmem, f, ⟨rfl, hname⟩, (), Nat.not_lt.2 hsize, (), not_not.2 hhash,
      by rw [hcontent]; rfl⟩

theorem copyUnit_merged {acc acc' : Copied} {u : String × Bytes} (h : copyUnit acc u = .ok acc') :
    Merged Prod.fst (fun (u : String × Bytes) content => content = u.2) acc.files [u]
      acc'.files := by
  unfold copyUnit at h
  cases hget : acc.files.get? u.1 with
  | some content =>
    rw [hget] at h
    obtain ⟨hsame, h⟩ := guard_eq_ok.1 h
    obtain rfl := Except.ok.inj h
    exact .present (Dict.mem_of_get? hget) (not_not.1 hsame)
  | none =>
    rw [hget] at h
    obtain ⟨-, h⟩ := guard_eq_ok.1 h
    obtain rfl := Except.ok.inj h
    have hnew : u.1 ∉ acc.files.keys := by
      rw [Dict.mem_keys_iff, hget]
      simp
    dsimp only
    rw [Dict.set_of_not_mem hnew]
    exact .fresh rfl

/-- What `materialize_corpus.py` copies from one source: its units, by their contents. -/
theorem materializeCorpus_merged {entries : List (String × Node)} {files : Dict String Bytes}
    (h : materializeCorpus sha1 [.dir entries] = .ok files) :
    ∃ units, validatedUnits sha1 (.dir entries) = .ok units ∧
      Merged Prod.fst (fun (u : String × Bytes) content => content = u.2) [] units files := by
  obtain ⟨acc, hfold, h⟩ := bind_eq_ok.1 h
  obtain rfl : acc.files = files := Except.ok.inj h
  rw [List.foldlM_cons] at hfold
  obtain ⟨mid, hmid, hfold⟩ := bind_eq_ok.1 hfold
  obtain rfl : mid = acc := Except.ok.inj hfold
  obtain ⟨units, hunits, hmid⟩ := bind_eq_ok.1 hmid
  refine ⟨units, hunits, ?_⟩
  exact foldlM_merged Copied.files (fun _ => True)
    (fun _ h => ⟨trivial, copyUnit_merged h⟩) trivial hmid

/-! ## The merged directory -/

/-- The corpus directory of a harness in a pool; one that is not there holds nothing. -/
def harnessListing (w : World) (d : Path) : Dict String Node :=
  match w d with
  | some (.directory names) => w.listing d names
  | _ => []

/-- A file with the content of a unit. -/
def Holds (u : String × Bytes) (node : Node) : Prop := ∃ g, node = .file g ∧ g.content = u.2

theorem publishUnit_merged {pool pool' : Dict String Node} {u : String × Bytes}
    (h : publishUnit pool u = .ok pool') : Merged Prod.fst Holds pool [u] pool' := by
  unfold publishUnit at h
  cases hget : pool.get? u.1 with
  | some node =>
    rw [hget] at h
    cases node with
    | file g =>
      obtain ⟨hsame, h⟩ := require_eq_ok.1 h
      obtain rfl := Except.ok.inj h
      exact .present (Dict.mem_of_get? hget) ⟨g, rfl, hsame⟩
    | directory | symlink | other => cases h
  | none =>
    rw [hget] at h
    obtain rfl := Except.ok.inj h
    have hnew : u.1 ∉ pool.keys := by
      rw [Dict.mem_keys_iff, hget]
      simp
    rw [Dict.set_of_not_mem hnew]
    exact .fresh ⟨_, rfl, rfl⟩

/-- Two files with one content. -/
def SameFile (entry : String × Node) (node : Node) : Prop :=
  ∃ f g, entry.2 = .file f ∧ node = .file g ∧ g.content = f.content

theorem aggregateUnit_merged {base staged staged' : Dict String Node} {entry : String × Node}
    (hbase : ∀ p ∈ base, p ∈ staged) (h : aggregateUnit sha1 base staged entry = .ok staged') :
    Merged Prod.fst SameFile staged [entry] staged' := by
  obtain ⟨n, node⟩ := entry
  cases node with
  | directory | symlink | other => cases h
  | file f =>
    simp only [aggregateUnit] at h
    cases hget : base.get? n with
    | some node =>
      rw [hget] at h
      cases node with
      | file g =>
        obtain ⟨hsame, h⟩ := require_eq_ok.1 h
        obtain rfl := Except.ok.inj h
        exact .present (hbase _ (Dict.mem_of_get? hget)) ⟨f, g, rfl, rfl, hsame⟩
      | directory | symlink | other => cases h
    | none =>
      rw [hget] at h
      obtain ⟨-, h⟩ := guard_eq_ok.1 h
      obtain ⟨-, h⟩ := guard_eq_ok.1 h
      cases hstaged : staged.get? n with
      | some node =>
        rw [hstaged] at h
        cases node with
        | file g =>
          obtain ⟨hsame, h⟩ := require_eq_ok.1 h
          obtain rfl := Except.ok.inj h
          exact .present (Dict.mem_of_get? hstaged) ⟨f, g, rfl, rfl, hsame⟩
        | directory | symlink | other => cases h
      | none =>
        rw [hstaged] at h
        obtain rfl := Except.ok.inj h
        have hnew : n ∉ staged.keys := by
          rw [Dict.mem_keys_iff, hstaged]
          simp
        rw [Dict.set_of_not_mem hnew]
        exact .fresh ⟨f, _, rfl, rfl, rfl⟩

theorem aggregateCorpus_merged {base branch merged : Dict String Node}
    (h : aggregateCorpus sha1 base branch = .ok merged) :
    Merged Prod.fst SameFile base branch merged := by
  refine foldlM_merged id (fun staged => ∀ p ∈ base, p ∈ staged) ?_
    (fun _ hp => hp) h
  intro staged entry staged' hbase hstep
  have hmerged := aggregateUnit_merged hbase hstep
  exact ⟨fun p hp => hmerged.kept p (hbase p hp), hmerged⟩

theorem publishCorpus_merged {pool branch : Dict String Node} {units : Dict String Bytes}
    (h : publishCorpus pool units = .ok branch) : Merged Prod.fst Holds pool units branch := by
  have hmerged := foldlM_merged id (fun _ => True)
    (fun _ h => ⟨trivial, publishUnit_merged h⟩) trivial h
  have hperm := List.perm_insertionSort (fun (a b : String × Bytes) => a.1 ≤ b.1) units
  exact ⟨hmerged.kept, fun u hu => hmerged.added u (hperm.mem_iff.2 hu), fun p hp => by
    rcases hmerged.origin p hp with hp | ⟨u, hu, hval⟩
    · exact .inl hp
    · exact .inr ⟨u, hperm.mem_iff.1 hu, hval⟩⟩

/-- A corpus directory through the whole chain: what is left of it after the quarantine is
validated and copied, published on top of a checkout `pool`, and the branch merged into `base`. -/
def Shipped (sha1 : Bytes → String) (entries : List (String × Node))
    (pool base merged : Dict String Node) : Prop :=
  ∃ usable survivors units branch,
    quarantineCorpus sha1 usable (.dir entries) = .ok survivors ∧
      validateCorpus sha1 (.dir survivors) = .ok () ∧
      materializeCorpus sha1 [.dir survivors] = .ok units ∧
      publishCorpus pool units = .ok branch ∧ aggregateCorpus sha1 base branch = .ok merged

section
variable {entries : List (String × Node)} {pool base merged : Dict String Node}

/-- Every sound unit arrives. -/
theorem Shipped.arrives (h : Shipped sha1 entries pool base merged) {n : String} {f : SourceFile}
    (hmem : (n, Node.file f) ∈ entries) (hsound : Sound sha1 (n, .file f)) :
    ∃ g, (n, Node.file g) ∈ merged ∧ g.content = f.content := by
  obtain ⟨usable, survivors, units, branch, hq, -, hm, hp, ha⟩ := h
  obtain ⟨us, hus, hcopied⟩ := materializeCorpus_merged hm
  have hsurvives : (n, Node.file f) ∈ survivors := (mem_survivors hq _).2 ⟨hmem, hsound⟩
  have hunit : (n, f.content) ∈ us := by
    obtain ⟨u, hu, hchecked⟩ := exists_of_mapM_ok hus hsurvives
    obtain ⟨g, hg, hchecked⟩ := bind_eq_ok.1 hchecked
    obtain ⟨_, -, hchecked⟩ := bind_eq_ok.1 hchecked
    obtain ⟨_, -, hchecked⟩ := bind_eq_ok.1 hchecked
    obtain rfl : f = g := Node.file.inj (corpusFile_eq_ok.1 hg).1
    exact (Except.ok.inj hchecked : (n, f.content) = u) ▸ hu
  obtain ⟨content, hcontent, heq⟩ := hcopied.added _ hunit
  obtain ⟨node, hnode, g, rfl, hg⟩ := (publishCorpus_merged hp).added _ hcontent
  obtain ⟨node', hnode', _, g', hsame, rfl, hg'⟩ := (aggregateCorpus_merged ha).added _ hnode
  cases hsame
  exact ⟨g', hnode', by rw [hg', hg, heq]⟩

/-- Everything in the merged directory was in one of the two checkouts, or is a sound unit. -/
theorem Shipped.origin (h : Shipped sha1 entries pool base merged) {p : String × Node}
    (hp : p ∈ merged) :
    p ∈ base ∨ (∃ node, (p.1, node) ∈ pool ∧ SameFile (p.1, node) p.2) ∨
      ∃ f, (p.1, Node.file f) ∈ entries ∧ corpusName p.1 = true ∧ Sound sha1 (p.1, .file f) ∧
        SameFile (p.1, .file f) p.2 := by
  obtain ⟨n, node⟩ := p
  obtain ⟨usable, survivors, units, branch, hq, -, hcopy, hpub, ha⟩ := h
  obtain ⟨us, hus, hcopied⟩ := materializeCorpus_merged hcopy
  rcases (aggregateCorpus_merged ha).origin _ hp with hp | ⟨⟨m, node'⟩, hb, hm, hsame⟩
  · exact .inl hp
  obtain rfl : m = n := hm
  rcases (publishCorpus_merged hpub).origin _ hb with hb | ⟨u, hu, hkey, hholds⟩
  · exact .inr (.inl ⟨node', hb, hsame⟩)
  rcases hcopied.origin _ hu with hu | ⟨v, hv, hname, hcontent⟩
  · cases hu
  obtain ⟨f, hf, hfile, hcorpus, -, -⟩ := (mem_validatedUnits hus v).1 hv
  obtain ⟨hentry, hsound⟩ := (mem_survivors hq _).1 hf
  obtain rfl : v.1 = m := hname.trans hkey
  refine .inr (.inr ⟨f, hentry, hcorpus, hsound, ?_⟩)
  obtain ⟨g, rfl, hg⟩ := hholds
  obtain ⟨_, g', hg', rfl, hsame⟩ := hsame
  cases hg'
  exact ⟨f, g', rfl, rfl, by rw [hsame, hg, hcontent, hfile]⟩

/-! ## Shard and reader -/

theorem nameRe_of_corpusName {name : String} (h : corpusName name = true) : nameRe name = true := by
  have hhex : ∀ c ∈ "0123456789abcdef".toList,
      ((('0' ≤ c && c ≤ '9') || ('a' ≤ c && c ≤ 'f')) : Bool) = true := by simp
  simp only [corpusName, nameRe, Bool.and_eq_true, List.all_eq_true, List.contains_iff_mem] at h ⊢
  exact ⟨h.1, fun c hc => hhex c (h.2 c hc)⟩

/-- What a pool past the gate has in the corpus directory of a harness can be read. -/
theorem acceptable_of_gate {w : World} {stage : Path} (h : capacityGate w stage = 0)
    {harness : String} (hharness : harness ∈ brainHarnesses) {p : String × Node}
    (hp : p ∈ harnessListing w (stage ++ corpusDirFor harness)) : Acceptable p := by
  unfold harnessListing at hp
  cases hdir : w (stage ++ corpusDirFor harness) with
  | none => simp [hdir] at hp
  | some node =>
    rw [hdir] at hp
    cases node with
    | file | symlink | other => cases hp
    | directory names =>
      have hpresent : w.present (stage ++ corpusDirFor harness) = true := by
        simp [World.present, hdir]
      obtain ⟨names', hscan⟩ := capacityGate_eq_zero.1 h harness hharness hpresent
      obtain rfl : names = names' := by simpa [hdir] using hscan.directory
      exact hscan.acceptable p hp

theorem Acceptable.sameFile {n : String} {a b : Node} (h : Acceptable (n, a))
    (hab : SameFile (n, a) b) : Acceptable (n, b) := by
  obtain ⟨hname, f, hf, hsize⟩ := h
  obtain ⟨f', g, hf', rfl, hg⟩ := hab
  cases hf.symm.trans hf'
  exact ⟨hname, g, rfl, hg ▸ hsize⟩

/-- The merged directory, within the caps, is scanned exactly when every unit the shard side takes
is one the reader takes: when no sound unit of the shard is of more than `maxUnitBytes`. -/
theorem shipped_scanned_iff {older staged w : World} {checkout stage : Path} {d : Path}
    {names : List String} {harness : String} (hharness : harness ∈ brainHarnesses)
    (holder : capacityGate older checkout = 0) (hgate : capacityGate staged stage = 0)
    (h : Shipped sha1 entries (harnessListing older (checkout ++ corpusDirFor harness))
      (harnessListing staged (stage ++ corpusDirFor harness)) merged)
    (hdir : w d = some (.directory names)) (hmerged : (w.listing d names).Perm merged)
    (hcaps : Capped (placed d merged)) :
    (∃ inventory, scanPrivateInventory (worldOS w) [d] () = .ok inventory ()) ↔
      ∀ n f, (n, Node.file f) ∈ entries → Sound sha1 (n, .file f) →
        f.content.length ≤ maxUnitBytes := by
  rw [scanPrivateInventory_iff]
  constructor
  · intro ⟨names', hscan⟩ n f hmem hsound
    obtain rfl : names = names' := by simpa [hdir] using hscan.directory
    obtain ⟨g, hg, hcontent⟩ := h.arrives hmem hsound
    obtain ⟨-, g', hg', hsize⟩ := hscan.acceptable _ (hmerged.mem_iff.2 hg)
    cases hg'
    exact hcontent ▸ hsize
  · intro hsizes
    refine ⟨names, hdir, fun p hp => ?_, ?_⟩
    · obtain ⟨n, node⟩ := p
      rcases h.origin (hmerged.mem_iff.1 hp) with hbase | ⟨node', hpool, hsame⟩ |
        ⟨f, hmem, hname, hsound, hsame⟩
      · exact acceptable_of_gate hgate hharness hbase
      · exact (acceptable_of_gate holder hharness hpool).sameFile hsame
      · have hunit : Acceptable (n, .file f) :=
          ⟨nameRe_of_corpusName hname, f, rfl, hsizes n f hmem hsound⟩
        exact hunit.sameFile hsame
    · have hplaced : (placed d merged).Perm (placed d (w.listing d names)) :=
        (hmerged.symm.filterMap _)
      exact capped_of_perm (hplaced.map _) hcaps

end

/-! ## One unit in an empty pool -/

namespace OneUnit

variable {name : String} {f : SourceFile}

/-- The merged directory of one unit. -/
def merged (name : String) (f : SourceFile) : World
  | ["merged"] => some (.directory [name])
  | ["merged", n] => if n = name then some (.file ⟨0, 0, f.content⟩) else none
  | _ => none

theorem listing : (merged name f).listing ["merged"] [name] =
    [(name, .file ⟨0, 0, f.content⟩)] := by
  simp [World.listing, merged]

theorem shipped (hname : corpusName name = true) (hhash : sha1 f.content = name)
    (hsize : f.content.length ≤ maxCorpusUnitBytes) :
    Shipped sha1 [(name, .file f)] [] [] [(name, .file ⟨0, 0, f.content⟩)] := by
  have hfile : corpusFile (name, .file f) = .ok f := corpusFile_eq_ok.2 ⟨rfl, hname⟩
  have hunit : validatedEntry sha1 (name, .file f) = .ok (name, f.content) :=
    bind_eq_ok.2 ⟨f, hfile, bind_eq_ok.2 ⟨(), refuse_eq_ok.2 (Nat.not_lt.2 hsize),
      bind_eq_ok.2 ⟨(), refuse_eq_ok.2 (not_not.2 hhash), rfl⟩⟩⟩
  have hunits : validatedUnits sha1 (.dir [(name, .file f)]) = .ok [(name, f.content)] := by
    simp only [validatedUnits, List.mapM_cons, hunit, List.mapM_nil]
    rfl
  have hroom : ¬ (0 + 1 > maxCorpusFiles ∨ 0 + f.content.length > maxCorpusBytes) := by
    unfold maxCorpusUnitBytes at hsize
    unfold maxCorpusFiles maxCorpusBytes
    omega
  refine ⟨true, [(name, .file f)], [(name, f.content)], [(name, .file ⟨0, 0, f.content⟩)], ?_, ?_,
    ?_, rfl, ?_⟩
  · have hkept : quarantineEntry sha1 true [] (name, .file f) = .ok [(name, .file f)] :=
      bind_eq_ok.2 ⟨f, hfile, if_pos ⟨hsize, hhash⟩⟩
    simp only [quarantineCorpus, List.foldlM_cons, hkept, List.foldlM_nil]
    rfl
  · simp only [validateCorpus, List.mapM_cons, hunit, List.mapM_nil]
    rfl
  · have hcopy : copyUnit ⟨[], 0, 0⟩ (name, f.content) =
        .ok ⟨[(name, f.content)], 0 + 1, 0 + f.content.length⟩ := if_neg hroom
    simp only [materializeCorpus, List.foldlM_cons, hunits, bind, Except.bind, hcopy,
      List.foldlM_nil]
    rfl
  · simp [aggregateCorpus, aggregateUnit, Dict.get?, nameRe_of_corpusName hname, hhash,
      List.foldlM_cons, Dict.set]

theorem gate {stage : Path} : capacityGate (fun _ => none) stage = 0 :=
  capacityGate_eq_zero.2 fun _ _ h => by simp [World.present] at h

theorem capped {d : Path} (h : f.content.length ≤ maxCorpusUnitBytes) :
    Capped (placed d [(name, .file ⟨0, 0, f.content⟩)]) := by
  have hplaced : placed d [(name, .file ⟨0, 0, f.content⟩)] = [(d, name, ⟨0, 0, f.content⟩)] := rfl
  have hlimit : maxCorpusUnitBytes ≤ maxBucketBytes := by decide
  rw [hplaced]
  refine capped_of_bucket (show 1 ≤ 100000 by decide) ?_
  simpa [Placed.size] using h.trans hlimit

end OneUnit

/-! ## One unit in a pool that holds another -/

namespace PooledUnit

def held : Dict String Node := [(OneEach.commonUnit, .file ⟨1, 1, []⟩)]

def entries : List (String × Node) := [(OneEach.privateUnit, .file ⟨1, 2, [97]⟩)]

def merged : Dict String Node :=
  [(OneEach.commonUnit, .file ⟨1, 1, []⟩), (OneEach.privateUnit, .file ⟨0, 0, [97]⟩)]

/-- A pool that holds a unit. -/
def pool : World
  | ["corpus", "cmp_ecdsa_online"] => some (.directory [OneEach.commonUnit])
  | ["corpus", "cmp_ecdsa_online", n] =>
    if n = OneEach.commonUnit then some (.file ⟨1, 1, []⟩) else none
  | _ => none

/-- The merged directory. -/
def shard : World
  | ["merged"] => some (.directory [OneEach.commonUnit, OneEach.privateUnit])
  | ["merged", n] => Dict.get? merged n
  | _ => none

theorem pool_held : harnessListing pool ([] ++ corpusDirFor "cmp_ecdsa_online") = held := by
  rfl

theorem gate : capacityGate pool [] = 0 := by
  decide

theorem shipped : Shipped OneEach.digest entries held held merged :=
  ⟨true, entries, [(OneEach.privateUnit, [97])], merged, by rfl, by rfl, by rfl, by rfl, by rfl⟩

theorem listing : shard.listing ["merged"] [OneEach.commonUnit, OneEach.privateUnit] = merged := by
  rfl

theorem capped : Capped (placed ["merged"] merged) := by
  have hplaced : placed ["merged"] merged = [(["merged"], OneEach.commonUnit, ⟨1, 1, []⟩),
    (["merged"], OneEach.privateUnit, ⟨0, 0, [97]⟩)] := rfl
  rw [hplaced]
  exact capped_of_bucket (by decide) (by decide)

end PooledUnit

/-- A unit of one byte goes through beside the one of the pool, and both are scanned. -/
theorem shipped_scanned_pooled :
    Shipped OneEach.digest PooledUnit.entries PooledUnit.held PooledUnit.held PooledUnit.merged ∧
      ∃ inventory, scanPrivateInventory (worldOS PooledUnit.shard) [["merged"]] () =
        .ok inventory () := by
  have hshipped := PooledUnit.shipped
  rw [← PooledUnit.pool_held] at hshipped
  have hharness : "cmp_ecdsa_online" ∈ brainHarnesses := by decide
  refine ⟨PooledUnit.shipped, (shipped_scanned_iff hharness PooledUnit.gate PooledUnit.gate hshipped
    rfl (.of_eq PooledUnit.listing) PooledUnit.capped).2 ?_⟩
  intro n f hmem _
  cases List.mem_singleton.1 hmem
  decide

/-! ## A large unit -/

namespace LargeUnit

/-- One byte more than the reader takes. -/
def content : Bytes := List.replicate 1048577 0

def name : String := "a84d35eda74338bd79a432f77d73f8ab5eb91902"

/-- SHA-1 on it. -/
def digest (c : Bytes) : String := if c = content then name else ""

end LargeUnit

/-- A unit of 1048577 bytes goes through, and the scan of a pool of it alone fails. -/
theorem large_unit_rejected :
    capacityGate (fun _ => none) [] = 0 ∧
      Shipped LargeUnit.digest [(LargeUnit.name, .file ⟨1, 2, LargeUnit.content⟩)] [] []
        [(LargeUnit.name, .file ⟨0, 0, LargeUnit.content⟩)] ∧
      Capped (placed ["merged"] [(LargeUnit.name, .file ⟨0, 0, LargeUnit.content⟩)]) ∧
      (OneUnit.merged LargeUnit.name ⟨1, 2, LargeUnit.content⟩).listing ["merged"]
        [LargeUnit.name] = [(LargeUnit.name, .file ⟨0, 0, LargeUnit.content⟩)] ∧
      ¬ ∃ inventory, scanPrivateInventory
        (worldOS (OneUnit.merged LargeUnit.name ⟨1, 2, LargeUnit.content⟩)) [["merged"]] () =
          .ok inventory () := by
  have hlength : LargeUnit.content.length = 1048577 := List.length_replicate
  have hsize : LargeUnit.content.length ≤ maxCorpusUnitBytes := by
    rw [hlength]
    decide
  refine ⟨OneUnit.gate, OneUnit.shipped (by simp [corpusName, LargeUnit.name]) (if_pos rfl) hsize,
    OneUnit.capped (f := ⟨1, 2, LargeUnit.content⟩) hsize, OneUnit.listing, ?_⟩
  rw [scanPrivateInventory_iff]
  intro ⟨names, h⟩
  obtain rfl : [LargeUnit.name] = names := by simpa [OneUnit.merged] using h.directory
  have hmem : (LargeUnit.name, Node.file ⟨0, 0, LargeUnit.content⟩) ∈
      (OneUnit.merged LargeUnit.name ⟨1, 2, LargeUnit.content⟩).listing ["merged"]
        [LargeUnit.name] := by
    rw [OneUnit.listing]
    exact List.mem_singleton.2 rfl
  obtain ⟨-, f, hf, hle⟩ := h.acceptable _ hmem
  cases hf
  rw [hlength] at hle
  exact absurd hle (by decide)

end MpcHunt.MaterializeWindow
