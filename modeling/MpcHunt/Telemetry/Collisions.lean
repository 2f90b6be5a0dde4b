/-
Job claims and documents of any number of harness processes. They never
collide, and every document closes, as long as each case that was applied has
a verdict of the list: `record_case` counts the case before it looks at the
verdict, and what it has counted the next call publishes.
-/
import MpcHunt.Telemetry.LoneRun

namespace MpcHunt.Telemetry

open Digits Json Processes

/-! ## Documents are told apart -/

theorem CounterMap.value_inj {m m' : CounterMap} (h : m.value = m'.value) : m = m' := by
  have hinj : Function.Injective fun p : Str × UInt64 => (p.1, Value.int p.2.toNat) := by
    intro p q hpq
    simp only [Prod.mk.injEq, Value.int.injEq, Int.ofNat_inj] at hpq
    exact Prod.ext hpq.1 (UInt64.toNat_inj.1 hpq.2)
  exact List.map_injective_iff.2 hinj (Value.object.inj h)

theorem Counters.value_inj {c c' : Counters} (h : c.value = c'.value) : c = c' := by
  simp only [Counters.value, Value.object.injEq, List.cons.injEq, Prod.mk.injEq, Value.int.injEq,
    Int.ofNat_inj, true_and, and_true] at h
  obtain ⟨hexecs, hdoor, hdecoded, hselected, happlied, hnotApplied, hverdicts⟩ := h
  obtain ⟨execs, door, decoded, selected, applied, notApplied, verdicts⟩ := c
  obtain ⟨execs', door', decoded', selected', applied', notApplied', verdicts'⟩ := c'
  dsimp only at hexecs hdoor hdecoded hselected happlied hnotApplied hverdicts
  rw [UInt64.toNat_inj.1 hexecs, UInt64.toNat_inj.1 hdoor, UInt64.toNat_inj.1 hdecoded,
    CounterMap.value_inj hselected, CounterMap.value_inj happlied,
    CounterMap.value_inj hnotApplied, CounterMap.value_inj hverdicts]

/-- Documents that read the same have the same counters. -/
theorem Document.counters_of_render {d d' : Document} (h : d.Clean) (h' : d'.Clean)
    (heq : d.render = d'.render) : d.counters = d'.counters := by
  have hvalue : some d.value = some d'.value := by
    rw [← Document.loads_render h default_faithful, ← Document.loads_render h' default_faithful, heq]
  simp only [Document.value, Option.some.injEq, Value.object.injEq, List.cons.injEq, Prod.mk.injEq,
    true_and, and_true] at hvalue
  exact Counters.value_inj hvalue.2.2

/-! ## Collisions -/

section
variable {P : Type}

/-- No two processes hold one job, the jobs claimed are the first so many, and a document is
whole, from the process that holds its job, and closes. -/
structure Collisionless (dir controlDir : Str) (w : World P) : Prop where
  holders : ∀ p q, (w.memory p).claimed = true → (w.memory q).claimed = true →
    (w.memory p).jobIndex = (w.memory q).jobIndex → p = q
  claims : ∃ k, ∀ i, (w.files controlDir (claimName i)).isSome = true ↔ i < k
  documents : ∀ (n : Nat) f, w.files dir (documentName n) = some f →
    (w.memory f.creator).claimed = true ∧ (w.memory f.creator).jobIndex = n ∧
      ∃ doc : Document, doc.Clean ∧ f.content = doc.render ∧ doc.jobIndex = n ∧ doc.counters.Closes

theorem Inv.collisionless {inputs : P → Config × List Call} {dir controlDir : Str} {w : World P}
    {kernel : Kernel P} (h : Inv kernel inputs dir controlDir w)
    (hcreate : kernel.createMayFail = false) (hproper : ∀ p, Proper (inputs p).2) :
    Collisionless dir controlDir w := by
  refine ⟨fun p q hp hq => one_holder h hp hq, h.segment hcreate, fun n f hf => ?_⟩
  obtain ⟨hclaimed, hjob, s, now, hcontent, hindex, hready, -⟩ := h.documents n f hf
  refine ⟨hclaimed, hjob, s.document now, hready.clean now, hcontent, hindex, ?_⟩
  obtain ⟨calls, hcalls, htally⟩ := hready.counters
  show s.counters.Closes
  rw [htally]
  exact tally_closes ((hproper f.creator).sublist hcalls)

end

/-- Processes that record proper calls never collide, whatever the interleaving and whoever is
killed. -/
theorem jobs_never_collide {P : Type} [DecidableEq P] (pid : P → Nat)
    (inputs : P → Config × List Call) (dir controlDir : Str) (hshare : Share inputs dir controlDir)
    (hproper : ∀ p, Proper (inputs p).2) (s : System Command Answer (World P) P)
    (hreach : Reach (exec ⟨pid, false⟩) (start inputs) s) :
    Collisionless dir controlDir s.world :=
  (inv_of_run hshare hreach).collisionless rfl hproper

/-- The arguments the fuzzer configures with. -/
def r4Config : Config :=
  ⟨some (text "telemetry"), some (text "control"), some (text "v2-r4-extrakey"),
    some (text "clang"), some (text "asan+ubsan"), 1⟩

/-- What `configure` makes of them at the time zero. -/
def r4State : State :=
  { configured := true, dir := text "telemetry", controlDir := text "control",
    buildId := text "v2-r4-extrakey", compiler := text "clang", sanitizers := text "asan+ubsan",
    parallelism := 1, startedNs := 0, counters := .zero }

theorem r4Config_starts : r4Config.Starts r4State := by
  refine ⟨⟨rfl, rfl, by simp [r4State, text], rfl, rfl, rfl, ?_, rfl, by simp [r4State]⟩, rfl, rfl,
    rfl, rfl⟩
  simp [r4State, text, vocabulary]

theorem share_r4 {P : Type} (calls : P → List Call) :
    Share (fun p => (r4Config, calls p)) (text "telemetry") (text "control") :=
  fun _ => ⟨rfl, rfl⟩

/-- A case that was applied, with its verdict. -/
def appliedCase : Call :=
  .case (some (text "r1.mta_proofs[victim]|flip_bit")) true (some (text "CLEAN-REJECT"))

theorem appliedCase_proper : appliedCase.Proper :=
  fun _ _ _ _ => ⟨text "CLEAN-REJECT", by decide, rfl⟩

/-- Two processes: one has a case to record, the other an input that it rejects. -/
def racers (p : Bool) : Config × List Call :=
  (r4Config, if p then [appliedCase] else [.doorReject])

def racersKernel : Kernel Bool := ⟨fun p => if p then 7 else 8, false⟩

theorem racers_proper (p : Bool) : Proper (racers p).2 := by
  cases p with
  | false => exact ⟨by simp [racers], by simp [racers, Call.Proper]⟩
  | true =>
    refine ⟨by simp [racers], fun c hc => ?_⟩
    obtain rfl : c = appliedCase := List.mem_singleton.1 hc
    exact appliedCase_proper

/-- A process that loses the first claim takes the next. -/
theorem cutOff_claimJob {P : Type} [DecidableEq P] {k : Kernel P} {p : P} {w : World P} {s : State}
    (hmem : w.memory p = s) (hconf : s.configured = true) (hfree : s.claimed = false)
    (htaken : (w.files s.controlDir (claimName 0)).isSome = true)
    (hnext : w.files s.controlDir (claimName 1) = none) :
    CutOff (exec k) p w claimJob (w.setFile s.controlDir (claimName 1) (some ⟨p, []⟩)) := by
  have hlost : Runs (exec k) p w (create s.controlDir (claimName 0)) false w := by
    refine runs_command (c := Command.create s.controlDir (claimName 0)) (r := false) ?_
    obtain ⟨f, hf⟩ := Option.isSome_iff_exists.1 htaken
    simp only [exec]
    rw [hf]
    exact ⟨trivial, trivial⟩
  have hcreate : Runs (exec k) p w (create s.controlDir (claimName 1)) true
      (w.setFile s.controlDir (claimName 1) (some ⟨p, []⟩)) := by
    refine runs_command (c := Command.create s.controlDir (claimName 1)) (r := true) ?_
    simp only [exec]
    rw [hnext]
    exact .inl ⟨trivial, trivial⟩
  have hclaim : CutOff (exec k) p w (claimFrom s.controlDir maxJobDocuments 0)
      (w.setFile s.controlDir (claimName 1) (some ⟨p, []⟩)) := by
    rw [show maxJobDocuments = 99998 + 1 + 1 from rfl, claimFrom]
    refine .second hlost ?_
    show CutOff (exec k) p w (claimFrom s.controlDir (99998 + 1) (0 + 1)) _
    rw [claimFrom]
    exact .second hcreate .here
  unfold claimJob
  refine .second (runs_load w) ?_
  rw [hmem, hconf, hfree]
  exact .second (runs_mkdirIfNeeded _ w) (.second (runs_mkdirIfNeeded _ w) hclaim)

/-- One has published its case when the other looks for a job, and loses the first claim. -/
theorem jobs_never_collide_race :
    ∃ s, Reach (exec racersKernel) (start racers) s ∧
      s.world.files (text "telemetry") (documentName 0) =
        some ⟨true, ((r4State.done [appliedCase]).document 0).render⟩ ∧
      s.world.files (text "control") (claimName 1) = some ⟨false, []⟩ ∧
      Collisionless (text "telemetry") (text "control") s.world := by
  have hapart : Apart (fun _ _ => False) r4State := ⟨not_false, fun _ _ => not_false⟩
  obtain ⟨w, hrun, hlone, hfile⟩ := runs_harness (k := racersKernel) (p := true)
    (w := (start racers).world) r4Config_starts (UInt64.le_refl 0) (UInt64.le_refl 0) nofun hapart
    (List.cons_ne_nil appliedCase [])
  have hfirst : (start racers).procs true = some (harness r4Config [appliedCase]) := rfl
  obtain ⟨procs, hreach, hstays⟩ := hrun.reach hfirst
  have hsecond : procs false = some (harness r4Config [.doorReject]) := hstays false (by decide)
  have hconfigure := runs_configure (k := racersKernel) (p := false) r4Config_starts hlone.clock
  have hapart' : text "control" ≠ text "telemetry" := by simp [text]
  have hnext : w.files (text "control") (claimName 1) = none := by
    refine Option.not_isSome_iff_eq_none.1 fun hsome => ?_
    rcases hlone.only _ _ hsome with ⟨hdir, -⟩ | ⟨-, hname⟩ | hold
    · exact hapart' hdir
    · exact absurd (claimName_inj hname) (by decide)
    · exact hold
  have hcut := cutOff_claimJob (k := racersKernel)
    (memory_setMemory_self { w with clock := 0 } false r4State) rfl rfl hlone.claim hnext
  have hpart : CutOff (exec racersKernel) false w (harness r4Config [.doorReject])
      (({ w with clock := 0 }.setMemory false r4State).setFile (text "control") (claimName 1)
        (some ⟨false, []⟩)) :=
    .second hconfigure hcut.first.first.first
  obtain ⟨procs', hreach'⟩ := hpart.reach hsecond
  have hreach := hreach.trans hreach'
  refine ⟨_, hreach, ?_, ?_, jobs_never_collide _ racers (text "telemetry") (text "control")
    (fun _ => ⟨rfl, rfl⟩) racers_proper _ hreach⟩
  · rw [files_setFile, if_neg fun h => hapart' h.1.symm]
    exact hfile
  · rw [files_setFile, if_pos ⟨rfl, rfl⟩]

/-- A case that was applied, without a verdict. -/
def withoutVerdict : Call := .case (some (text "r1.mta_proofs[victim]|flip_bit")) true none

theorem tally_withoutVerdict : ¬ (tally [withoutVerdict, .doorReject]).Closes := by
  intro h
  have hcell : text "r1.mta_proofs[victim]|flip_bit" ∈ cells := by simp [cells]
  have hrecord : Counters.zero.record withoutVerdict =
      Counters.zero.decode (text "r1.mta_proofs[victim]|flip_bit") := by
    simp [withoutVerdict, Counters.record, Counters.zero_keyed.has_selected, hcell]
  have happlied := h.applied _ hcell
  simp only [tally, List.foldl_cons, List.foldl_nil, hrecord] at happlied
  simp only [Counters.record, Counters.rejectAtDoor, Counters.decode, Counters.zero,
    CounterMap.at_zero] at happlied
  rw [CounterMap.at_bump_self (by rw [CounterMap.at_zero]; omega), CounterMap.at_zero] at happlied
  omega

/-- After a case without a verdict the next call publishes what does not close. -/
theorem jobs_collide_without_verdict :
    ¬ ∀ (inputs : Unit → Config × List Call) (dir controlDir : Str), Share inputs dir controlDir →
      ∀ s, Reach (exec ⟨fun _ => 7, false⟩) (start inputs) s →
        Collisionless dir controlDir s.world := by
  intro hall
  obtain ⟨s, hreach, -, hfile⟩ := reach_harness (k := ⟨fun _ : Unit => 7, false⟩) (p := ())
    (fun _ => (r4Config, [withoutVerdict, Call.doorReject])) rfl r4Config_starts
    (UInt64.le_refl 0) (List.cons_ne_nil _ _)
  have hcollisionless := hall _ _ _ (share_r4 _) s hreach
  obtain ⟨-, -, doc, hclean, hcontent, -, hcloses⟩ := hcollisionless.documents 0 _ hfile
  have hready : ((r4State.done [withoutVerdict, .doorReject]).document 0).Clean := by
    obtain ⟨hbuild, hcompiler, hsanitizers⟩ := r4Config_starts.sets.vocabulary
    exact ⟨hbuild, hcompiler, hsanitizers, tally_keyed _⟩
  rw [← Document.counters_of_render hready hclean hcontent] at hcloses
  exact tally_withoutVerdict hcloses

end MpcHunt.Telemetry
