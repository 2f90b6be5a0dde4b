/-
What the packager takes of what the recorder publishes: the identity, the
build and the process of a document pass its checks just where the strings the
recorder was configured with are words of the packager's vocabulary too, and
no more than eight jobs run at once.
-/
import MpcHunt.Telemetry.Closing

namespace MpcHunt.Telemetry

open Digits Json Checks Processes Encoding

/-! ## The checks of three sections -/

/-- What `parse_document` checks of the identity, the build and the process of a document. -/
def parseSections (raw : Value) (expectedJob : Nat) : Except Str Unit := do
  let document ← expectExactKeys raw documentKeys (text "document")
  let identity ←
    expectExactKeys (member document (text "identity")) identityKeys (text "identity")
  let build ← expectExactKeys (member document (text "build")) buildKeys (text "build")
  let process ← expectExactKeys (member document (text "process")) processKeys (text "process")
  let jobIndex ← expectInt (member process (text "job_index")) (text "process.job_index")
  refuse (jobIndex ≠ expectedJob) (text "job index does not match the file name")
  let parallelism ← expectInt (member process (text "parallelism")) (text "process.parallelism")
  refuse (parallelism < 1 ∨ parallelism > maxJobs) (text "parallelism out of range")
  let started ← expectNanos (member process (text "started_monotonic_ns")) (text "process.started")
  let updated ← expectNanos (member process (text "updated_monotonic_ns")) (text "process.updated")
  refuse (updated < started) (text "negative duration")
  let _ ← expectVocabulary (member identity (text "campaign")) (text "identity.campaign")
  let _ ← expectVocabulary (member identity (text "fuzzer")) (text "identity.fuzzer")
  let _ ← expectVocabulary (member build (text "id")) (text "build.id")
  let _ ← expectVocabulary (member build (text "compiler")) (text "build.compiler")
  let _ ← expectVocabulary (member build (text "sanitizers")) (text "build.sanitizers")
  return ()

/-- A document that `parse_document` takes passes them. -/
theorem parseSections_of_parseDocument {raw : Value} {n : Nat} {job : Job}
    (h : parseDocument raw n = .ok job) : parseSections raw n = .ok () := by
  unfold parseDocument at h
  obtain ⟨document, hdocument, h⟩ := bind_eq_ok.1 h
  obtain ⟨_, _, h⟩ := bind_eq_ok.1 h
  obtain ⟨identity, hidentity, h⟩ := bind_eq_ok.1 h
  obtain ⟨build, hbuild, h⟩ := bind_eq_ok.1 h
  obtain ⟨process, hprocess, h⟩ := bind_eq_ok.1 h
  obtain ⟨_, _, h⟩ := bind_eq_ok.1 h
  obtain ⟨jobIndex, hjob, h⟩ := bind_eq_ok.1 h
  obtain ⟨_, hname, h⟩ := bind_eq_ok.1 h
  obtain ⟨parallelism, hparallelism, h⟩ := bind_eq_ok.1 h
  obtain ⟨_, hrange, h⟩ := bind_eq_ok.1 h
  obtain ⟨started, hstarted, h⟩ := bind_eq_ok.1 h
  obtain ⟨updated, hupdated, h⟩ := bind_eq_ok.1 h
  obtain ⟨_, hduration, h⟩ := bind_eq_ok.1 h
  obtain ⟨_, _, h⟩ := bind_eq_ok.1 h
  obtain ⟨_, _, h⟩ := bind_eq_ok.1 h
  obtain ⟨campaign, hcampaign, h⟩ := bind_eq_ok.1 h
  obtain ⟨fuzzer, hfuzzer, h⟩ := bind_eq_ok.1 h
  obtain ⟨id, hid, h⟩ := bind_eq_ok.1 h
  obtain ⟨compiler, hcompiler, h⟩ := bind_eq_ok.1 h
  obtain ⟨sanitizers, hsanitizers, -⟩ := bind_eq_ok.1 h
  unfold parseSections
  simp only [bind_eq_ok]
  exact ⟨_, hdocument, _, hidentity, _, hbuild, _, hprocess, _, hjob, _, hname, _, hparallelism, _,
    hrange, _, hstarted, _, hupdated, _, hduration, _, hcampaign, _, hfuzzer, _, hid, _, hcompiler,
    _, hsanitizers, rfl⟩

/-! ## The checks of a published document -/

theorem expectNanos_ok {n : Nat} (h : n ≤ 2 ^ 60) (field : Str) :
    expectNanos (.int n) field = .ok (n : Int) := by
  unfold expectNanos expectBounded maxNanos
  exact if_neg (by omega)

theorem expectVocabulary_eq_ok {s s' : Str} {field : Str} :
    expectVocabulary (.string s) field = .ok s' ↔ inVocabulary s = true ∧ s = s' := by
  unfold expectVocabulary
  simp only [require_eq_ok, Except.ok.injEq]

/-- What is found in the sections of a document. -/
theorem Document.sections (d : Document) :
    ∃ identity build process : Dict Str Value,
      expectExactKeys (member d.members (text "identity")) identityKeys (text "identity") =
        .ok identity ∧
      expectExactKeys (member d.members (text "build")) buildKeys (text "build") = .ok build ∧
      expectExactKeys (member d.members (text "process")) processKeys (text "process") =
        .ok process ∧
      member identity (text "campaign") = .string (text "reachability_v2_r4") ∧
      member identity (text "fuzzer") = .string (text "opus_cmp_fuzzer_reachability_v2") ∧
      member build (text "id") = .string d.buildId ∧
      member build (text "compiler") = .string d.compiler ∧
      member build (text "sanitizers") = .string d.sanitizers ∧
      member process (text "job_index") = .int d.jobIndex ∧
      member process (text "parallelism") = .int d.parallelism ∧
      member process (text "started_monotonic_ns") = .int d.startedNs.toNat ∧
      member process (text "updated_monotonic_ns") = .int d.updatedNs.toNat := by
  obtain ⟨-, hidentity, hbuild, hprocess, -⟩ := d.member_members
  rw [hidentity, hbuild, hprocess]
  refine ⟨_, _, _, expectExactKeys_object rfl _, expectExactKeys_object rfl _,
    expectExactKeys_object rfl _, ?_⟩
  simp [member, Dict.get?_cons, text]

theorem parseSections_value {d : Document} {n : Nat} (hjob : d.jobIndex = n)
    (hn : n < maxJobDocuments) (hparallelism : 1 ≤ d.parallelism ∧ d.parallelism ≤ 64)
    (hstarted : d.startedNs ≤ d.updatedNs) (hclock : d.updatedNs.toNat ≤ 2 ^ 60) :
    parseSections d.value n = .ok () ↔ d.parallelism ≤ maxJobs ∧ inVocabulary d.buildId = true ∧
      inVocabulary d.compiler = true ∧ inVocabulary d.sanitizers = true := by
  have hle : d.startedNs.toNat ≤ d.updatedNs.toNat := UInt64.le_iff_toNat_le.1 hstarted
  have hdocument : expectExactKeys d.value documentKeys (text "document") = .ok d.members :=
    expectExactKeys_object rfl _
  obtain ⟨identity, build, process, hidentity, hbuild, hprocess, hcampaign, hfuzzer, hid, hcompiler,
    hsanitizers, hindex, hjobs, hfrom, hto⟩ := d.sections
  have hindex' : expectInt (.int d.jobIndex) (text "process.job_index") = .ok (n : Int) := by
    rw [hjob]
    exact expectInt_ok (by unfold maxJobDocuments at hn; omega) _
  have hjobs' : expectInt (.int d.parallelism) (text "process.parallelism") = .ok d.parallelism := by
    obtain ⟨m, hm⟩ := Int.eq_ofNat_of_zero_le (Int.le_trans (by decide) hparallelism.1)
    rw [hm] at hparallelism ⊢
    exact expectInt_ok (by omega) _
  have hfrom' := expectNanos_ok (hle.trans hclock) (text "process.started")
  have hto' := expectNanos_ok hclock (text "process.updated")
  have hword : inVocabulary (text "reachability_v2_r4") = true ∧
      inVocabulary (text "opus_cmp_fuzzer_reachability_v2") = true := by
    simp [inVocabulary, isAlphanumeric, text]
  have hduration : ¬ (d.updatedNs.toNat : Int) < d.startedNs.toNat := by omega
  unfold parseSections
  simp only [bind_eq_ok, hdocument, hidentity, hbuild, hprocess, hcampaign, hfuzzer, hid, hcompiler,
    hsanitizers, hindex, hjobs, hfrom, hto, hindex', hjobs', hfrom', hto', Except.ok.injEq,
    exists_eq_left', refuse_eq_ok, expectVocabulary_eq_ok, hword, hduration, ne_eq, not_true_eq_false,
    not_false_eq_true, true_and, exists_const]
  have hrange : ¬ (d.parallelism < 1 ∨ d.parallelism > maxJobs) ↔ d.parallelism ≤ maxJobs := by omega
  rw [hrange]
  refine ⟨fun h => ?_, fun h => ?_⟩
  · obtain ⟨hjobs, _, ⟨hid, -⟩, _, ⟨hcompiler, -⟩, _, ⟨hsanitizers, -⟩, -⟩ := h
    exact ⟨hjobs, hid, hcompiler, hsanitizers⟩
  · obtain ⟨hjobs, hid, hcompiler, hsanitizers⟩ := h
    exact ⟨hjobs, _, ⟨hid, rfl⟩, _, ⟨hcompiler, rfl⟩, _, ⟨hsanitizers, rfl⟩, rfl⟩

/-! ## Configurations -/

/-- A configuration with words of the packager's vocabulary, and no more jobs than it takes. -/
structure Config.Packaged (config : Config) : Prop where
  parallelism : config.parallelism ≤ maxJobs
  buildId : ∃ build, config.buildId = some build ∧ inVocabulary build = true
  compiler : inVocabulary (config.compiler.getD (text "unknown")) = true
  sanitizers : inVocabulary (config.sanitizers.getD (text "unknown")) = true

theorem Config.Sets.packaged_iff {config : Config} {s : State} (h : config.Sets s) :
    config.Packaged ↔ s.parallelism ≤ maxJobs ∧ inVocabulary s.buildId = true ∧
      inVocabulary s.compiler = true ∧ inVocabulary s.sanitizers = true := by
  rw [h.parallelism, h.compiler, h.sanitizers]
  refine ⟨fun hp => ⟨hp.parallelism, ?_, hp.compiler, hp.sanitizers⟩, fun hp => ?_⟩
  · obtain ⟨build, hbuild, hword⟩ := hp.buildId
    rw [h.buildId] at hbuild
    rw [Option.some.inj hbuild]
    exact hword
  · obtain ⟨hjobs, hbuild, hcompiler, hsanitizers⟩ := hp
    exact ⟨hjobs, ⟨s.buildId, h.buildId, hbuild⟩, hcompiler, hsanitizers⟩

/-- In every state of any number of processes, what is read of a document of a process passes
the checks on its identity, its build and its process just where the process was configured
with what the packager takes. -/
theorem published_sections_packaged {P : Type} [DecidableEq P] (kernel : Kernel P)
    (inputs : P → Config × List Call) (dir controlDir : Str) (hshare : Share inputs dir controlDir)
    (s : System Command Answer (World P) P) (hreach : Reach (exec kernel) (start inputs) s)
    (n : Nat) (f : File P) (hfile : s.world.files dir (documentName n) = some f)
    (hn : n < maxJobDocuments) :
    ∃ d : Document, f.content = d.render ∧ readText (encodeAscii f.content) = some d.value ∧
      (d.updatedNs.toNat ≤ 2 ^ 60 →
        (parseSections d.value n = .ok () ↔ (inputs f.creator).1.Packaged)) := by
  obtain ⟨-, -, t, now, hcontent, hindex, hready, hstarted⟩ :=
    (inv_of_run hshare hreach).documents n f hfile
  refine ⟨t.document now, hcontent, ?_, fun hclock => ?_⟩
  · rw [hcontent]
    exact readText_render (hready.clean now)
  · rw [hready.sets.packaged_iff]
    exact parseSections_value hindex hn hready.sets.range hstarted hclock

theorem Document.updatedNs_of_value {d d' : Document} (h : d.value = d'.value) :
    d.updatedNs.toNat = d'.updatedNs.toNat := by
  simp only [Document.value, Document.processValue, Value.object.injEq, List.cons.injEq,
    Prod.mk.injEq, Value.int.injEq, Int.ofNat_inj, true_and, and_true] at h
  exact h.2.1.2.2.2

/-- The document of a process that was configured at the time zero and rejected one input. -/
theorem reach_rejecting {config : Config} {s : State} (h : config.Starts s) (hzero : s.startedNs = 0) :
    ∃ r : System Command Answer (World Unit) Unit,
      Reach (exec ⟨fun _ => 7, false⟩) (start fun _ : Unit => (config, [Call.doorReject])) r ∧
        r.world.files s.dir (documentName 0) = some ⟨(), (atZero s [.doorReject]).render⟩ ∧
        (atZero s [.doorReject]).Clean := by
  have htime : s.startedNs ≤ 0 := by
    rw [hzero]
    exact UInt64.le_refl 0
  obtain ⟨r, hreach, -, hfile⟩ := reach_harness (k := ⟨fun _ : Unit => 7, false⟩) (p := ())
    (fun _ => (config, [Call.doorReject])) rfl h htime (List.cons_ne_nil _ _)
  refine ⟨r, hreach, ?_, atZero_clean h.sets _⟩
  rw [atZero]
  exact hfile

/-- The fuzzer's own configuration is one that the packager takes. -/
theorem published_sections_packaged_r4 :
    ∃ (s : System Command Answer (World Unit) Unit) (f : File Unit),
      s.world.files (text "telemetry") (documentName 0) = some f ∧
        ∃ d : Document, f.content = d.render ∧ parseSections d.value 0 = .ok () := by
  obtain ⟨s, hreach, hfile, hclean⟩ := reach_rejecting r4Config_starts rfl
  obtain ⟨d, hcontent, hread, hpass⟩ := published_sections_packaged ⟨fun _ => 7, false⟩ _
    (text "telemetry") (text "control") (share_r4 fun _ => [.doorReject]) s hreach 0 _ hfile
    (by decide)
  refine ⟨s, _, hfile, d, hcontent, (hpass ?_).2 ?_⟩
  · have hvalue := Option.some.inj (hread.symm.trans (readText_render hclean))
    rw [Document.updatedNs_of_value hvalue]
    exact Nat.zero_le _
  · refine ⟨by decide, ⟨_, rfl, ?_⟩, ?_, ?_⟩ <;> simp [r4Config, inVocabulary, isAlphanumeric, text]

/-- A build named with a bar. -/
def barConfig : Config := { r4Config with buildId := some (text "v2|r4") }

def barState : State := { r4State with buildId := text "v2|r4" }

theorem barConfig_starts : barConfig.Starts barState := by
  have h := r4Config_starts
  refine ⟨⟨rfl, rfl, h.sets.paths, rfl, rfl, rfl, ?_, rfl, h.sets.range⟩, rfl, rfl, rfl, rfl⟩
  simp [barState, r4State, text, vocabulary]

/-- The recorder takes a build named with a bar, and the packager does not. -/
theorem published_sections_bar :
    ¬ ∀ (inputs : Unit → Config × List Call) (dir controlDir : Str), Share inputs dir controlDir →
      ∀ s, Reach (exec ⟨fun _ => 7, false⟩) (start inputs) s →
        ∀ (n : Nat) (f : File Unit), s.world.files dir (documentName n) = some f →
          n < maxJobDocuments → ∃ d : Document, f.content = d.render ∧
            readText (encodeAscii f.content) = some d.value ∧
            (d.updatedNs.toNat ≤ 2 ^ 60 → parseSections d.value n = .ok ()) := by
  intro hall
  obtain ⟨s, hreach, hfile, hclean⟩ := reach_rejecting barConfig_starts rfl
  obtain ⟨d, -, hread, hpass⟩ := hall (fun _ => (barConfig, [Call.doorReject])) (text "telemetry")
    (text "control") (fun _ => ⟨rfl, rfl⟩) s hreach 0 _ hfile (by decide)
  have hvalue := Option.some.inj (hread.symm.trans (readText_render hclean))
  rw [hvalue, Document.updatedNs_of_value hvalue] at hpass
  have hsections := (parseSections_value rfl (by decide) barConfig_starts.sets.range
    (UInt64.le_refl 0) (Nat.zero_le _)).1 (hpass (Nat.zero_le _))
  have hbar : inVocabulary (text "v2|r4") = true := hsections.2.1
  simp [inVocabulary, isAlphanumeric, text] at hbar

end MpcHunt.Telemetry
