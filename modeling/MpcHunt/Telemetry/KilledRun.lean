/-
What a campaign leaves to the packager: however its processes interleave and
wherever they are killed, the telemetry directory is summed up just where it
holds the documents 0, 1, … and nothing else, all from configurations that the
packager takes. A document in the making is enough to refuse it.
-/
import MpcHunt.Telemetry.GatePackager

namespace MpcHunt.Telemetry

open Digits Json Checks Processes Encoding
open Summary (Node)

/-! ## The job of a document -/

/-- What the packager makes of a document. -/
def Document.job (d : Document) : Job :=
  ⟨d.jobIndex, d.parallelism, d.updatedNs.toNat - d.startedNs.toNat, text "reachability_v2_r4",
    text "opus_cmp_fuzzer_reachability_v2", ⟨d.buildId, d.compiler, d.sanitizers⟩, d.counters.numbers⟩

theorem Document.value_eq (d : Document) :
    d.value = .object (d.job.documentMembers d.startedNs.toNat d.counters.members) := by
  have hupdated : (d.startedNs.toNat : Int) + d.job.durationNs = d.updatedNs.toNat :=
    add_sub_cancel (d.startedNs.toNat : Int) d.updatedNs.toNat
  unfold Job.documentMembers Job.processMembers
  rw [hupdated]
  rfl

/-- A document as a process publishes it, in time and before its counters are full. -/
structure Document.Sound (d : Document) : Prop where
  clean : d.Clean
  closes : d.counters.Closes
  below : d.counters.Below (2 ^ 40)
  range : 1 ≤ d.parallelism ∧ d.parallelism ≤ 64
  started : d.startedNs ≤ d.updatedNs
  updated : d.updatedNs.toNat ≤ 2 ^ 60

/-- No more jobs than the packager takes, and words of its vocabulary. -/
structure Document.Packaged (d : Document) : Prop where
  parallelism : d.parallelism ≤ maxJobs
  buildId : inVocabulary d.buildId = true
  compiler : inVocabulary d.compiler = true
  sanitizers : inVocabulary d.sanitizers = true

section
variable {d : Document} (h : d.Sound)
include h

theorem Document.Sound.reads : ReadsSection d.counters.members d.counters.numbers :=
  expectSection_eq_ok.1 (expectSection_ok h.clean.counters h.below)

theorem Document.Sound.times : 0 ≤ d.job.durationNs ∧
    (d.startedNs.toNat : Int) + d.job.durationNs ≤ maxNanos := by
  have hle : d.startedNs.toNat ≤ d.updatedNs.toNat := UInt64.le_iff_toNat_le.1 h.started
  have hmax := h.updated
  unfold Document.job maxNanos
  dsimp only
  omega

theorem Document.Sound.job_valid (hpackaged : d.Packaged)
    (hindex : 0 ≤ d.jobIndex ∧ d.jobIndex ≤ maxCounter) : d.job.Valid := by
  obtain ⟨hduration, hto⟩ := h.times
  have hword : inVocabulary (text "reachability_v2_r4") = true ∧
      inVocabulary (text "opus_cmp_fuzzer_reachability_v2") = true := by
    simp [inVocabulary, isAlphanumeric, text]
  have hparallelism : 0 ≤ d.parallelism := Int.le_trans (by decide) h.range.1
  have hcloses : d.counters.numbers.Closes :=
    checkEquations_eq_ok.1 (checkEquations_ok h.clean.counters h.closes)
  exact ⟨hindex, ⟨hparallelism, hpackaged.parallelism⟩, ⟨hduration, by omega⟩, hword.1, hword.2,
    hpackaged.buildId, hpackaged.compiler, hpackaged.sanitizers, h.reads.valid hcloses⟩

/-- The packager parses a document just where it is packaged, and then to its job. -/
theorem Document.Sound.parseDocument_iff {n : Nat} (hindex : d.jobIndex = n)
    (hn : n < maxJobDocuments) (j : Job) :
    parseDocument d.value n = .ok j ↔ d.Packaged ∧ j = d.job := by
  have hcounter : 0 ≤ d.jobIndex ∧ d.jobIndex ≤ maxCounter := by
    unfold maxJobDocuments at hn
    unfold maxCounter
    omega
  have hparsed : d.Packaged → parseDocument d.value n = .ok d.job := by
    intro hpackaged
    rw [d.value_eq]
    exact (h.job_valid hpackaged hcounter).parse_documentMembers hindex h.range.1
      (Int.natCast_nonneg _) h.times.2 d.counters.keys_members h.reads
  constructor
  · intro hj
    have hsections := parseSections_of_parseDocument hj
    obtain ⟨hjobs, hbuild, hcompiler, hsanitizers⟩ :=
      (parseSections_value hindex hn h.range h.started h.updated).1 hsections
    have hpackaged : d.Packaged := ⟨hjobs, hbuild, hcompiler, hsanitizers⟩
    exact ⟨hpackaged, Except.ok.inj (hj.symm.trans (hparsed hpackaged))⟩
  · rintro ⟨hpackaged, rfl⟩
    exact hparsed hpackaged

/-! ## Its size -/

omit h in
theorem length_counter64_le (n : UInt64) : (dumps compact (.int n.toNat)).length ≤ 20 := by
  rw [dumps]
  have hn : (n.toNat : Int) < 10 ^ 20 := by
    have := n.toNat_lt
    omega
  exact length_showInt_le (by decide) (Int.natCast_nonneg _) hn

omit h in
theorem length_counterMap_le {m : CounterMap} {names : List Str} (hkeys : m.keys = sorted names)
    (hcount : names.length = 7) (hnames : ∀ k ∈ names, (quote k).length ≤ 40) :
    (dumps compact m.value).length ≤ 450 := by
  have hlength : m.length = 7 := by
    rw [← hcount, ← List.length_insertionSort (· ≤ ·) names]
    show _ = (sorted names).length
    rw [← hkeys, Dict.keys, List.length_map]
  have hbound : (dumps compact m.value).length ≤
      (m.map fun p => (p.1, Value.int p.2.toNat)).length * (40 + 20 + 2) + 2 := by
    refine length_dumps_object_le 40 20 fun q hq => ?_
    obtain ⟨p, hp, rfl⟩ := List.mem_map.1 hq
    have hname : p.1 ∈ names := mem_sorted.1 (hkeys ▸ List.mem_map_of_mem hp)
    exact ⟨hnames p.1 hname, length_counter64_le p.2⟩
  rw [List.length_map, hlength] at hbound
  exact hbound.trans (by decide)

/-- A document is not long. -/
theorem Document.Sound.length_render (hpackaged : d.Packaged)
    (hindex : 0 ≤ d.jobIndex ∧ d.jobIndex ≤ maxCounter) :
    0 < (encodeAscii d.render).length ∧ (encodeAscii d.render).length ≤ 20001 := by
  obtain ⟨hcells, hverdicts, -⟩ := length_names
  have hlength : (encodeAscii d.render).length = (dumps compact d.value).length + 1 := by
    rw [encodeAscii, List.length_map, Document.render_eq_dumps h.clean, List.length_append,
      List.length_singleton]
  have hcounter : ∀ n : UInt64, (dumps compact (.int n.toNat)).length ≤ 450 :=
    fun n => (length_counter64_le n).trans (by decide)
  have hvalues : ∀ v ∈ d.counters.members.map Prod.snd, (dumps compact v).length ≤ 450 := by
    simp only [Counters.members, List.map_cons, List.map_nil, List.forall_mem_cons]
    exact ⟨hcounter _, hcounter _, hcounter _,
      length_counterMap_le h.clean.counters.selected rfl hcells,
      length_counterMap_le h.clean.counters.applied rfl hcells,
      length_counterMap_le h.clean.counters.notApplied rfl hcells,
      length_counterMap_le h.clean.counters.verdicts rfl hverdicts,
      fun v hv => absurd hv List.not_mem_nil⟩
  have hvalue := (h.job_valid hpackaged hindex).length_documentMembers (Int.natCast_nonneg _)
    h.times.2 d.counters.keys_members hvalues
  rw [← d.value_eq] at hvalue
  omega

end

/-! ## The document of a process -/

theorem at_of_not_mem {m : CounterMap} {name : Str} (h : name ∉ m.keys) : m.at name = 0 := by
  have hnone : Dict.get? m name = none :=
    Option.eq_none_iff_forall_ne_some.2 fun v hv => h ((Dict.mem_keys_iff m name).2 ⟨v, hv⟩)
  rw [CounterMap.at, hnone]
  rfl

/-- No counter is above the number of calls. -/
theorem tally_below {calls : List Call} (h : Proper calls) : (tally calls).Below calls.length := by
  obtain ⟨n, hn, htally⟩ := tally_tallied h
  have hkeyed := tally_keyed calls
  obtain ⟨hexecs, hselected, hcells, hverdicts⟩ := htally.closes
  have hcount := htally.execs
  have happlied := htally.total
  have hcell : ∀ cell, (tally calls).selected.at cell ≤ n := by
    intro cell
    have : (tally calls).selected.at cell ≤ (tally calls).selected.total := CounterMap.at_le_total
    omega
  refine ⟨by omega, by omega, by omega, fun cell => (hcell cell).trans hn, fun cell => ?_, fun cell => ?_,
    fun verdict => ?_⟩
  · exact CounterMap.at_le_total.trans (happlied.trans hn)
  · by_cases hmem : cell ∈ cells
    · have hsum := hcells cell hmem
      have hle := hcell cell
      omega
    · have hkeys : cell ∉ (tally calls).notApplied.keys := by
        rw [hkeyed.notApplied, mem_sorted]
        exact hmem
      rw [at_of_not_mem hkeys]
      exact Nat.zero_le _
  · have hle : (tally calls).verdicts.at verdict ≤ (tally calls).verdicts.total :=
      CounterMap.at_le_total
    omega

/-- The build of a configuration. -/
def Config.build (config : Config) : Build :=
  ⟨config.buildId.getD [], config.compiler.getD (text "unknown"), config.sanitizers.getD (text "unknown")⟩

/-- A sound document that a process published of its job. -/
structure Wrote (config : Config) (calls : List Call) (n : Nat) (content : Str) (d : Document) :
    Prop where
  content : content = d.render
  index : d.jobIndex = n
  sound : d.Sound
  packaged : d.Packaged ↔ config.Packaged
  build : d.job.build = config.build
  counted : ∃ done, done.Sublist calls ∧ d.counters = tally done

/-- Proper calls, no more than the counters of the packager count. -/
def Countable (calls : List Call) : Prop := Proper calls ∧ calls.length ≤ 2 ^ 40

section
variable {P : Type} {w : World P} {dir controlDir : Str}

/-- No document was published after the last time that the packager takes. -/
def Timely (w : World P) (dir : Str) : Prop :=
  ∀ (n : Nat) (f : File P) (d : Document), w.files dir (documentName n) = some f → d.Clean →
    f.content = d.render → d.updatedNs.toNat ≤ 2 ^ 60

theorem Inv.wrote {kernel : Kernel P} {inputs : P → Config × List Call}
    (h : Inv kernel inputs dir controlDir w) (hcalls : ∀ p, Countable (inputs p).2)
    (htimely : Timely w dir) {n : Nat} {f : File P} (hfile : w.files dir (documentName n) = some f) :
    ∃ d, Wrote (inputs f.creator).1 (inputs f.creator).2 n f.content d := by
  obtain ⟨-, -, s, now, hcontent, hindex, hready, hstarted⟩ := h.documents n f hfile
  have hclean := hready.clean now
  have hsets := hready.sets
  obtain ⟨done, hdone, htally⟩ := hready.counters
  obtain ⟨hproper, hlength⟩ := hcalls f.creator
  have hbelow : (tally done).Below (2 ^ 40) :=
    (tally_below (hproper.sublist hdone)).mono (hdone.length_le.trans hlength)
  refine ⟨s.document now, hcontent, hindex, ⟨hclean, ?_, ?_, hsets.range, hstarted,
    htimely n f _ hfile hclean hcontent⟩, ?_, ?_, done, hdone, htally⟩
  · show s.counters.Closes
    rw [htally]
    exact tally_closes (hproper.sublist hdone)
  · show s.counters.Below _
    rw [htally]
    exact hbelow
  · rw [hsets.packaged_iff]
    exact ⟨fun hp => ⟨hp.parallelism, hp.buildId, hp.compiler, hp.sanitizers⟩,
      fun hp => ⟨hp.1, hp.2.1, hp.2.2.1, hp.2.2.2⟩⟩
  · unfold Config.build
    rw [hsets.buildId, ← hsets.compiler, ← hsets.sanitizers]
    rfl

/-! ## The directory -/

/-- The files are the documents 0, …, `k - 1`. -/
def Complete (w : World P) (dir : Str) (k : Nat) : Prop :=
  ∀ name, (w.files dir name).isSome = true ↔ ∃ n < k, name = documentName (n : Nat)

theorem foldlM_readEntry_files {entries : List (Str × Node)} {acc acc' : Found}
    (h : entries.foldlM readEntry acc = .ok acc') : ∃ files, List.Forall₂ IsFile entries files := by
  induction entries generalizing acc with
  | nil => exact ⟨[], .nil⟩
  | cons entry entries ih =>
    rw [List.foldlM_cons] at h
    obtain ⟨mid, hmid, hrest⟩ := bind_eq_ok.1 h
    obtain ⟨files, hfiles⟩ := ih hrest
    obtain ⟨name, node⟩ := entry
    unfold readEntry at hmid
    cases node with
    | symlink => cases hmid
    | other => cases hmid
    | regular bytes =>
      cases hnumber : numbered telemetryName name with
      | none =>
        simp only [hnumber] at hmid
        cases hmid
      | some index => exact ⟨(index, bytes) :: files, .cons ⟨rfl, hnumber⟩ hfiles⟩

theorem readDirectory_files {entries : List (Str × Node)} {found : List (Nat × List UInt8)}
    (h : readDirectory (some entries) = .ok found) : ∃ files, List.Forall₂ IsFile entries files := by
  obtain ⟨acc, hfold, -⟩ := bind_eq_ok.1 h
  exact foldlM_readEntry_files hfold

section
variable {entries : List (Str × Node)} (hlists : Lists w dir entries)
include hlists

theorem Lists.mem_names {name : Str} :
    name ∈ entries.map Prod.fst ↔ (w.files dir name).isSome = true := by
  rw [List.mem_map, Option.isSome_iff_exists]
  constructor
  · rintro ⟨⟨name', node⟩, hmem, rfl⟩
    obtain ⟨f, hf, -⟩ := (hlists.files name' node).1 hmem
    exact ⟨f, hf⟩
  · rintro ⟨f, hf⟩
    exact ⟨(name, _), (hlists.files name _).2 ⟨f, hf, rfl⟩, rfl⟩

theorem Lists.length_of_complete {k : Nat} (h : Complete w dir k) : entries.length = k := by
  have hnames : ((List.range k).map fun n : Nat => documentName n).Nodup :=
    List.nodup_range.map fun _ _ heq => documentName_inj heq
  have hperm : (entries.map Prod.fst).Perm ((List.range k).map fun n : Nat => documentName n) := by
    refine (List.perm_ext_iff_of_nodup hlists.once hnames).2 fun name => ?_
    rw [hlists.mem_names, h, List.mem_map]
    constructor
    · rintro ⟨n, hn, rfl⟩
      exact ⟨n, List.mem_range.2 hn, rfl⟩
    · rintro ⟨n, hn, rfl⟩
      exact ⟨n, List.mem_range.1 hn, rfl⟩
  simpa using hperm.length_eq

theorem Lists.files_of_complete {k : Nat} (h : Complete w dir k) :
    ∃ files, List.Forall₂ IsFile entries files := by
  refine exists_forall₂ fun entry hentry => ?_
  obtain ⟨name, node⟩ := entry
  obtain ⟨f, hf, rfl⟩ := (hlists.files name node).1 hentry
  obtain ⟨n, -, rfl⟩ := (h name).1 (by rw [hf]; rfl)
  exact ⟨(n, encodeAscii f.content), rfl, numbered_documentName n⟩

variable {files : List (Nat × List UInt8)} (hfiles : List.Forall₂ IsFile entries files)
include hfiles

/-- What is found is what the documents hold. -/
theorem Lists.mem_files {n : Nat} {bytes : List UInt8} : (n, bytes) ∈ files ↔
    ∃ f, w.files dir (documentName n) = some f ∧ bytes = encodeAscii f.content := by
  rw [mem_files_iff hfiles]
  constructor
  · rintro ⟨name, hmem, hnumber⟩
    obtain ⟨f, hf, heq⟩ := (hlists.files name _).1 hmem
    rw [numbered_telemetryName hnumber] at hf
    exact ⟨f, hf, Node.regular.inj heq⟩
  · rintro ⟨f, hf, rfl⟩
    exact ⟨documentName n, (hlists.files _ _).2 ⟨f, hf, rfl⟩, numbered_documentName n⟩

/-- No index is missing just where the directory is complete. -/
theorem Lists.complete_iff :
    (byIndex files).map (·.1) = List.range files.length ↔ Complete w dir files.length := by
  rw [← contiguous_iff hfiles, ← hfiles.length_eq]
  constructor
  · intro hall name
    have hindices := (contiguous_iff hfiles).1 hall
    rw [← hlists.mem_names]
    constructor
    · intro hname
      obtain ⟨entry, hentry, rfl⟩ := List.mem_map.1 hname
      obtain ⟨file, hfile, -, hnumber⟩ := exists_of_forall₂ hfiles hentry
      have hmem : file.1 ∈ List.range files.length :=
        hindices ▸ List.mem_map_of_mem (mem_byIndex.2 hfile)
      exact ⟨file.1, hfiles.length_eq ▸ List.mem_range.1 hmem, numbered_telemetryName hnumber⟩
    · rintro ⟨n, hn, rfl⟩
      exact hall n hn
  · intro hcomplete n hn
    exact hlists.mem_names.2 ((hcomplete _).2 ⟨n, hn, rfl⟩)

end

end

/-! ## What is left -/

section
variable {P : Type} {w : World P} {dir controlDir : Str} {inputs : P → Config × List Call}

/-- The documents are of configurations that the packager takes, and of one build. -/
def Agreed (inputs : P → Config × List Call) (w : World P) (dir : Str) : Prop :=
  ∀ (n : Nat) (f : File P), w.files dir (documentName n) = some f →
    (inputs f.creator).1.Packaged ∧ ∀ (n' : Nat) (f' : File P),
      w.files dir (documentName n') = some f' → (inputs f.creator).1.build = (inputs f'.creator).1.build

/-- The jobs that the packager sums up are those of the documents. -/
structure SummedUp (inputs : P → Config × List Call) (w : World P) (dir : Str) (jobs : List Job) :
    Prop where
  complete : Complete w dir jobs.length
  counted : ∀ (n : Nat) (f : File P), w.files dir (documentName n) = some f →
    ∃ j ∈ jobs, j.jobIndex = n ∧ ∃ done, done.Sublist (inputs f.creator).2 ∧
      j.counters = (tally done).numbers

/-- What the packager reads of a file. -/
theorem Wrote.readDocument_iff {config : Config} {calls : List Call} {n : Nat} {content : Str}
    {d : Document} (h : Wrote config calls n content d) (hn : n < maxJobs) (j : Job) :
    readDocument (n, encodeAscii content) = .ok j ↔ d.Packaged ∧ j = d.job := by
  have hlimit : n < maxJobDocuments := Nat.lt_trans hn (by decide)
  rw [readDocument_eq_ok, ← h.sound.parseDocument_iff h.index hlimit, h.content]
  dsimp only
  rw [readText_render h.sound.clean]
  simp

theorem Complete.index_lt {k : Nat} (h : Complete w dir k) {n : Nat} {f : File P}
    (hfile : w.files dir (documentName n) = some f) : n < k := by
  obtain ⟨m, hm, heq⟩ := (h _).1 (by rw [hfile]; rfl)
  rwa [documentName_inj heq]

section
variable {entries : List (Str × Node)} (hlists : Lists w dir entries)
  (hwrote : ∀ {n : Nat} {f : File P}, w.files dir (documentName n) = some f →
    ∃ d, Wrote (inputs f.creator).1 (inputs f.creator).2 n f.content d)
  (runId attempt shard : Int) (harness : Str)
include hlists hwrote

/-- What is summed up is complete and agrees, and is what the processes counted. -/
theorem summedUp_of_sanitize {e : Evidence}
    (h : sanitize (some entries) runId attempt shard harness = .ok e) :
    (1 ≤ e.jobs.length ∧ e.jobs.length ≤ maxJobs) ∧ Agreed inputs w dir ∧
      SummedUp inputs w dir e.jobs := by
  obtain ⟨jobs', hjobs, -, hone, he⟩ := sanitize_jobs h
  obtain ⟨found, hfound, h⟩ := bind_eq_ok.1 h
  obtain ⟨jobs, hread, h⟩ := bind_eq_ok.1 h
  obtain ⟨_, -, h⟩ := bind_eq_ok.1 h
  obtain rfl := Except.ok.inj h
  obtain rfl : jobs = jobs' := congrArg Evidence.jobs he
  obtain ⟨files, hfiles⟩ := readDirectory_files hfound
  obtain ⟨-, ⟨-, hfew, hindices⟩, rfl⟩ := (readDirectory_iff hfiles).1 hfound
  have hlength : files.length = jobs.length :=
    (List.length_insertionSort _ _).symm.trans (mapM_eq_ok_iff.1 hread).length_eq
  have hcomplete : Complete w dir files.length := (hlists.complete_iff hfiles).1 hindices
  have hdoc : ∀ (n : Nat) (f : File P), w.files dir (documentName n) = some f →
      ∃ d, Wrote (inputs f.creator).1 (inputs f.creator).2 n f.content d ∧ d.Packaged ∧
        d.job ∈ jobs := by
    intro n f hfile
    obtain ⟨d, hd⟩ := hwrote hfile
    have hn := hcomplete.index_lt hfile
    have hmem : (n, encodeAscii f.content) ∈ files := (hlists.mem_files hfiles).2 ⟨f, hfile, rfl⟩
    obtain ⟨j, hj, hparse⟩ := exists_of_mapM_ok hread (mem_byIndex.2 hmem)
    obtain ⟨hpackaged, rfl⟩ := (hd.readDocument_iff (hn.trans_le hfew) j).1 hparse
    exact ⟨d, hd, hpackaged, hj⟩
  refine ⟨⟨List.length_pos_iff.2 hjobs.ne_nil, hjobs.length_le⟩, fun n f hfile => ?_, ?_, ?_⟩
  · obtain ⟨d, hd, hpackaged, hj⟩ := hdoc n f hfile
    refine ⟨hd.packaged.1 hpackaged, fun n' f' hfile' => ?_⟩
    obtain ⟨d', hd', -, hj'⟩ := hdoc n' f' hfile'
    have hsame := hjobs.one_build hone
    rw [← hd.build, ← hd'.build, hsame _ hj, hsame _ hj']
  · exact hlength ▸ hcomplete
  · intro n f hfile
    obtain ⟨d, hd, -, hj⟩ := hdoc n f hfile
    obtain ⟨done, hdone, htally⟩ := hd.counted
    exact ⟨d.job, hj, hd.index, done, hdone, congrArg Counters.numbers htally⟩

/-- What is complete and agrees is summed up. -/
theorem sanitize_of_complete {k : Nat} (hsome : 1 ≤ k) (hfew : k ≤ maxJobs)
    (hcomplete : Complete w dir k) (hagreed : Agreed inputs w dir) :
    ∃ e, sanitize (some entries) runId attempt shard harness = .ok e := by
  obtain ⟨files, hfiles⟩ := hlists.files_of_complete hcomplete
  obtain rfl : files.length = k := hfiles.length_eq ▸ hlists.length_of_complete hcomplete
  have hindices := (hlists.complete_iff hfiles).2 hcomplete
  have hdoc : ∀ file ∈ files, ∃ (f : File P) (d : Document),
      w.files dir (documentName file.1) = some f ∧ file = (file.1, encodeAscii f.content) ∧
      Wrote (inputs f.creator).1 (inputs f.creator).2 file.1 f.content d ∧ d.Packaged ∧
      file.1 < maxJobs := by
    intro file hfile
    obtain ⟨f, hf, hbytes⟩ := (hlists.mem_files hfiles).1 hfile
    obtain ⟨d, hd⟩ := hwrote hf
    exact ⟨f, d, hf, by rw [← hbytes], hd, hd.packaged.2 (hagreed _ f hf).1,
      (hcomplete.index_lt hf).trans_le hfew⟩
  have hsize : ∀ file ∈ files, 0 < file.2.length ∧ file.2.length ≤ 20001 := by
    intro file hfile
    obtain ⟨f, d, -, hbytes, hd, hpackaged, hlt⟩ := hdoc file hfile
    have hindex : 0 ≤ d.jobIndex ∧ d.jobIndex ≤ maxCounter := by
      rw [hd.index]
      unfold maxJobs at hlt
      unfold maxCounter
      omega
    rw [hbytes, hd.content]
    exact hd.sound.length_render hpackaged hindex
  have hsum : (files.map (·.2.length)).sum ≤ maxTotalBytes := by
    have hle : (files.map (·.2.length)).sum ≤ (files.map (·.2.length)).length • 20001 := by
      refine List.sum_le_card_nsmul _ _ fun n hn => ?_
      obtain ⟨file, hfile, rfl⟩ := List.mem_map.1 hn
      exact (hsize file hfile).2
    rw [List.length_map, smul_eq_mul] at hle
    exact hle.trans ((Nat.mul_le_mul_right 20001 hfew).trans (by decide))
  have hne : files ≠ [] := List.length_pos_iff.1 hsome
  have hdirectory : readDirectory (some entries) = .ok (byIndex files) := by
    refine (readDirectory_iff hfiles).2 ⟨⟨fun file hfile => ?_, hsum⟩, ⟨hne, hfew, hindices⟩, rfl⟩
    obtain ⟨hpos, hle⟩ := hsize file hfile
    exact ⟨List.length_pos_iff.1 hpos, hle.trans (by decide)⟩
  obtain ⟨jobs, hjobs⟩ : ∃ jobs, List.Forall₂ (fun file j => readDocument file = .ok j)
      (byIndex files) jobs := by
    refine exists_forall₂ fun file hfile => ?_
    obtain ⟨f, d, -, hbytes, hd, hpackaged, hlt⟩ := hdoc file (mem_byIndex.1 hfile)
    rw [hbytes]
    exact ⟨d.job, (hd.readDocument_iff hlt _).2 ⟨hpackaged, rfl⟩⟩
  -- Every job is of the build of the first document.
  obtain ⟨first, hfirst⟩ := List.exists_mem_of_ne_nil files hne
  obtain ⟨f₀, -, hf₀, -⟩ := hdoc first hfirst
  have hread := mapM_eq_ok_iff.2 hjobs
  have hbuild : ∀ j ∈ jobs, j.build = (inputs f₀.creator).1.build := by
    intro j hj
    obtain ⟨file, hfile, hparse⟩ := (mem_mapM_ok hread j).1 hj
    obtain ⟨f, d, hf, hbytes, hd, -, hlt⟩ := hdoc file (mem_byIndex.1 hfile)
    rw [hbytes] at hparse
    obtain ⟨-, rfl⟩ := (hd.readDocument_iff hlt j).1 hparse
    rw [hd.build]
    exact (hagreed _ f hf).2 _ f₀ hf₀
  have hjobsNe : jobs ≠ [] := by
    rintro rfl
    cases List.length_eq_zero_iff.1 ((List.length_insertionSort _ _).symm.trans hjobs.length_eq)
    exact hne rfl
  exact ⟨_, bind_eq_ok.2 ⟨_, hdirectory, bind_eq_ok.2 ⟨jobs, hread, bind_eq_ok.2 ⟨(),
    refuse_eq_ok.2 (not_not.2 (one_text hjobsNe hbuild)), rfl⟩⟩⟩⟩

end

end

section
variable {P : Type} {Old : Str → Str → Prop} {p : P} {w : World P} {s : State} {time : UInt64}

/-- A file more. -/
theorem Lists.create [DecidableEq P] {dir name : Str} {entries : List (Str × Node)}
    (h : Lists w dir entries) (hnone : w.files dir name = none) (f : File P) :
    Lists (w.setFile dir name (some f)) dir (entries ++ [(name, .regular (encodeAscii f.content))]) := by
  have hfresh : name ∉ entries.map Prod.fst := by
    rw [h.mem_names, hnone]
    exact Bool.false_ne_true
  refine ⟨?_, fun name' node => ?_⟩
  · rw [List.map_append]
    exact List.nodup_append.2 ⟨h.once, List.nodup_singleton name, fun k hk k' hk' heq => by
      rw [heq, List.mem_singleton.1 hk'] at hk
      exact hfresh hk⟩
  · rw [List.mem_append, List.mem_singleton, Prod.mk.injEq, files_setFile, h.files]
    by_cases hname : name' = name
    · subst hname
      simp [hnone]
    · simp [hname]

variable [DecidableEq P] {k : Kernel P}

/-- It is killed with its document in the making. -/
theorem cutOff_publish (h : Lone Old p time s w) :
    CutOff (exec k) p w publish ({ w with clock := time }.setFile s.dir
      (temporaryName (documentName 0) (k.pid p)) (some ⟨p, []⟩)) := by
  let tmp := temporaryName (documentName 0) (k.pid p)
  let w₀ : World P := { w with clock := time }
  have hclock : Runs (exec k) p w monotonicNs time w₀ :=
    runs_command (c := Command.monotonicNs) ⟨h.clock, rfl⟩
  have hcreate : Runs (exec k) p w₀ (create s.dir tmp) true
      (w₀.setFile s.dir tmp (some ⟨p, []⟩)) := by
    refine runs_command (c := Command.create s.dir tmp) (r := true) ?_
    have hnone : w₀.files s.dir tmp = none := h.temporary (temporary_temporaryName 0 _)
    simp only [exec]
    rw [hnone]
    exact .inl ⟨trivial, trivial⟩
  unfold publish
  refine .second (runs_load w) ?_
  rw [h.memory, h.configured, h.claimed]
  refine .second hclock ?_
  rw [h.job]
  exact .second (runs_getpid w₀) (.second hcreate .here)

end

/-- The kernel of one process, and one input that it rejects. -/
def oneKernel : Kernel Unit := ⟨fun _ => 7, false⟩

def oneInput : Unit → Config × List Call := fun _ => (r4Config, [.doorReject])

/-- What it leaves between its first document and its second. -/
structure OneLeft (w : World Unit) : Prop where
  lone : Lone (fun _ _ => False) () 0 (r4State.done [.doorReject]) w
  file : w.files (text "telemetry") (documentName 0) =
    some ⟨(), (atZero r4State [.doorReject]).render⟩
  reach : ∀ {w'}, CutOff (exec oneKernel) () w publish w' →
    ∃ procs, Reach (exec oneKernel) (start oneInput) ⟨w', procs⟩

theorem oneLeft : ∃ w, OneLeft w := by
  have hapart : Apart (fun _ _ => False) r4State := ⟨not_false, fun _ _ => not_false⟩
  have hconfigure := runs_configure (k := oneKernel) (p := ()) (w := (start oneInput).world)
    r4Config_starts (UInt64.le_refl 0)
  obtain ⟨w₁, hclaim, hlone, -⟩ := runs_claimJob (k := oneKernel)
    (memory_setMemory_self { (start oneInput).world with clock := 0 } () r4State) rfl rfl nofun
    hapart (UInt64.le_refl 0)
  obtain ⟨w, hrun, hlone', hleft⟩ := runs_call hclaim hlone Counters.zero_keyed .doorReject
  refine ⟨w, hlone', (hleft rfl).file, fun hcut => ?_⟩
  have hprog : (start oneInput).procs () = some (harness r4Config [.doorReject]) := rfl
  refine CutOff.reach ?_ hprog
  exact .second hconfigure (.second (.bind hrun .ret) hcut.first)

section
variable {w : World Unit} (h : OneLeft w)
include h

theorem OneLeft.only {name : Str} (hsome : (w.files (text "telemetry") name).isSome = true) :
    name = documentName 0 := by
  rcases h.lone.only _ name hsome with ⟨-, hname⟩ | ⟨hdir, -⟩ | hold
  · exact hname
  · have hapart : text "telemetry" ≠ text "control" := by simp [text]
    exact absurd hdir hapart
  · exact hold.elim

theorem OneLeft.timely {w' : World Unit} (hsame : ∀ n : Nat,
    w'.files (text "telemetry") (documentName n) = w.files (text "telemetry") (documentName n)) :
    Timely w' (text "telemetry") := by
  intro n f d hfile hclean hcontent
  rw [hsame] at hfile
  have hname := h.only (by rw [hfile]; rfl)
  rw [hname, h.file] at hfile
  obtain rfl := Option.some.inj hfile
  have hread := readText_render hclean
  rw [← hcontent, readText_render (atZero_clean r4Config_starts.sets _)] at hread
  rw [← Document.updatedNs_of_value (Option.some.inj hread)]
  exact Nat.zero_le _

theorem OneLeft.complete : Complete w (text "telemetry") 1 := by
  intro name
  constructor
  · exact fun hsome => ⟨0, Nat.one_pos, h.only hsome⟩
  · rintro ⟨n, hn, rfl⟩
    obtain rfl := Nat.lt_one_iff.1 hn
    show (w.files _ (documentName 0)).isSome = true
    rw [h.file]
    rfl

end

theorem oneInput_countable : ∀ p, Countable (oneInput p).2 :=
  fun _ => ⟨⟨by simp [oneInput], by simp [oneInput, Call.Proper]⟩, by simp [oneInput]⟩

theorem r4Config_packaged : r4Config.Packaged := by
  refine ⟨by decide, ⟨_, rfl, ?_⟩, ?_, ?_⟩
  all_goals simp [r4Config, inVocabulary, isAlphanumeric, text]

end MpcHunt.Telemetry
