/-
One harness process that runs alone and whose system calls succeed: it takes
job 0, and what is left at the document of that job is the tally of its calls.
Files that were there before (`Old`) stay.
-/
import MpcHunt.Telemetry.Document

namespace MpcHunt.Telemetry

open Digits Json Processes

/-- A call that is counted and published. -/
def Call.publishes : Call → Bool
  | .doorReject => true
  | .case cellKey wasApplied verdict =>
    cellKey.any (cells.contains ·) && (!wasApplied || verdict.any (verdicts.contains ·))

section
variable {P : Type} {Old : Str → Str → Prop} {p : P} {w : World P} {s : State} {time : UInt64}

/-- Files that are not in the way of a process: its claim is not there, and no temporary file. -/
structure Apart (Old : Str → Str → Prop) (s : State) : Prop where
  claim : ¬ Old s.controlDir (claimName 0)
  temporary : ∀ name, Temporary name → ¬ Old s.dir name

/-- The process holds job 0, and no other file is there than its claim, its document and those
from before. -/
structure Lone (Old : Str → Str → Prop) (p : P) (time : UInt64) (s : State) (w : World P) :
    Prop where
  memory : w.memory p = s
  configured : s.configured = true
  claimed : s.claimed = true
  job : s.jobIndex = 0
  clock : w.clock ≤ time
  claim : (w.files s.controlDir (claimName 0)).isSome = true
  apart : Apart Old s
  only : ∀ d name, (w.files d name).isSome = true →
    d = s.dir ∧ name = documentName 0 ∨ d = s.controlDir ∧ name = claimName 0 ∨ Old d name

theorem Lone.temporary (h : Lone Old p time s w) {name : Str} (hname : Temporary name) :
    w.files s.dir name = none := by
  refine Option.not_isSome_iff_eq_none.1 fun hsome => ?_
  rcases h.only s.dir name hsome with ⟨-, heq⟩ | ⟨-, heq⟩ | hold
  · exact hname.document 0 heq
  · exact hname.claim 0 heq
  · exact h.apart.temporary name hname hold

variable [DecidableEq P] {k : Kernel P}

theorem runs_command {c : Command} {r : Answer c} {w' : World P} (h : exec k p w c r w') :
    Runs (exec k) p w (Prog.perform c) r w' := .perform h

theorem runs_ask (q : Query) (w : World P) : Runs (exec k) p w (ask q) true w :=
  runs_command (c := Command.ask q) (r := true) rfl

theorem runs_load (w : World P) : Runs (exec k) p w load (w.memory p) w :=
  runs_command (c := Command.load) ⟨rfl, rfl⟩

theorem runs_store (s : State) (w : World P) :
    Runs (exec k) p w (store s) () (w.setMemory p s) :=
  runs_command (c := Command.store s) (r := ()) rfl

theorem runs_getpid (w : World P) : Runs (exec k) p w getpid (k.pid p) w :=
  runs_command (c := Command.getpid) ⟨rfl, rfl⟩

theorem runs_andAlso (q : Query) (w : World P) :
    Runs (exec k) p w (andAlso true (ask q)) true w := runs_ask q w

/-! ## The claim -/

theorem runs_mkdirIfNeeded (d : Str) (w : World P) :
    Runs (exec k) p w (mkdirIfNeeded d) true w := .bind (runs_ask _ w) .ret

/-- The first claim takes job 0. -/
theorem runs_claimJob (hmem : w.memory p = s) (hconf : s.configured = true)
    (hfree : s.claimed = false) (hfiles : ∀ d name, (w.files d name).isSome = true → Old d name)
    (hapart : Apart Old s) (hclock : w.clock ≤ time) :
    ∃ w', Runs (exec k) p w claimJob true w' ∧ Lone Old p time (s.withJob 0) w' ∧
      w'.renamed = w.renamed := by
  have hnone : w.files s.controlDir (claimName 0) = none :=
    Option.not_isSome_iff_eq_none.1 fun hsome => hapart.claim (hfiles _ _ hsome)
  let owner := decimal (k.pid p) ++ [10]
  let w₁ := w.setFile s.controlDir (claimName 0) (some ⟨p, []⟩)
  let w₂ := w₁.setFile s.controlDir (claimName 0) (some ⟨p, [] ++ owner.take owner.length⟩)
  have hcreate : Runs (exec k) p w (create s.controlDir (claimName 0)) true w₁ := by
    refine runs_command (c := Command.create s.controlDir (claimName 0)) (r := true) ?_
    simp only [exec]
    rw [hnone]
    exact .inl ⟨trivial, rfl⟩
  have hwrite : Runs (exec k) p w₁ (write s.controlDir (claimName 0) owner) owner.length w₂ := by
    refine runs_command (c := Command.write s.controlDir (claimName 0) owner) (r := owner.length) ?_
    simp [exec, w₁, w₂]
  have hmem₂ : w₂.memory p = s := hmem
  have hclaim : Runs (exec k) p w (claimFrom s.controlDir maxJobDocuments 0) true
      (w₂.setMemory p (s.withJob 0)) := by
    rw [show maxJobDocuments = 99999 + 1 from rfl, claimFrom]
    refine .bind hcreate (.bind (runs_getpid w₁) (.bind hwrite ?_))
    refine .bind (a := true) ?_ (.bind (runs_ask .close w₂) ?_)
    · simpa [owner] using runs_andAlso .fsync w₂
    · refine .bind (runs_load w₂) ?_
      rw [hmem₂]
      exact .bind (runs_store (s.withJob 0) w₂) .ret
  refine ⟨w₂.setMemory p (s.withJob 0), ?_, ?_, rfl⟩
  · unfold claimJob
    refine .bind (runs_load w) ?_
    rw [hmem, hconf, hfree]
    exact .bind (runs_mkdirIfNeeded _ w) (.bind (runs_mkdirIfNeeded _ w) hclaim)
  · refine ⟨memory_setMemory_self _ _ _, hconf, rfl, rfl, hclock, by simp [w₂, State.withJob],
      ⟨hapart.claim, hapart.temporary⟩, ?_⟩
    intro d name hsome
    simp only [w₂, w₁, files_setMemory, files_setFile] at hsome
    by_cases h : d = s.controlDir ∧ name = claimName 0
    · exact .inr (.inl h)
    · rw [if_neg h, if_neg h] at hsome
      exact .inr (.inr (hfiles d name hsome))

theorem runs_claimJob_again (h : Lone Old p time s w) : Runs (exec k) p w claimJob true w := by
  unfold claimJob
  refine .bind (runs_load w) ?_
  rw [h.memory, h.configured, h.claimed]
  exact .ret

/-! ## Publishing -/

theorem runs_writeAll {d name data : Str} {f : File P} (hfile : w.files d name = some f)
    (hdata : data ≠ []) :
    Runs (exec k) p w (writeAll d name data) true
      (w.setFile d name (some ⟨f.creator, f.content ++ data⟩)) := by
  have hwrite : Runs (exec k) p w (write d name data) data.length
      (w.setFile d name (some ⟨f.creator, f.content ++ data⟩)) := by
    refine runs_command (c := Command.write d name data) (r := data.length) ?_
    simp [exec, hfile]
  rw [writeAll, dif_neg hdata]
  refine .bind hwrite ?_
  · rw [dif_neg (fun h => hdata (List.length_eq_zero_iff.1 h)), List.drop_length, writeAll,
      dif_pos rfl]
    exact .ret

/-- What is published is there, and is the last of what was. -/
structure Left (p : P) (time : UInt64) (s : State) (w w' : World P) : Prop where
  file : w'.files s.dir (documentName 0) = some ⟨p, (s.document time).render⟩
  renamed : w'.renamed = w.renamed ++ [(s.dir, documentName 0, (s.document time).render)]

theorem runs_publish (h : Lone Old p time s w) :
    ∃ w', Runs (exec k) p w publish true w' ∧ Lone Old p time s w' ∧ Left p time s w w' := by
  let doc := (s.document time).render
  let tmp := temporaryName (documentName 0) (k.pid p)
  have hname : Temporary tmp := temporary_temporaryName 0 _
  let w₀ : World P := { w with clock := time }
  let w₁ := w₀.setFile s.dir tmp (some ⟨p, []⟩)
  let w₂ := w₁.setFile s.dir tmp (some ⟨p, [] ++ doc⟩)
  let w₃ := w₂.move s.dir tmp (documentName 0) ⟨p, doc⟩
  have hclock : Runs (exec k) p w monotonicNs time w₀ :=
    runs_command (c := Command.monotonicNs) ⟨h.clock, rfl⟩
  have hcreate : Runs (exec k) p w₀ (create s.dir tmp) true w₁ := by
    refine runs_command (c := Command.create s.dir tmp) (r := true) ?_
    have hnone : w₀.files s.dir tmp = none := h.temporary hname
    simp only [exec]
    rw [hnone]
    exact .inl ⟨trivial, rfl⟩
  have hdoc : doc ≠ [] := by simp [doc, Document.render, text]
  have hwrite : Runs (exec k) p w₁ (writeAll s.dir tmp doc) true w₂ :=
    runs_writeAll (f := ⟨p, []⟩) (by simp [w₁]) hdoc
  have hrename : Runs (exec k) p w₂ (rename s.dir tmp (documentName 0)) true w₃ := by
    refine runs_command (c := Command.rename s.dir tmp (documentName 0)) (r := true) ?_
    have hfile : w₂.files s.dir tmp = some ⟨p, doc⟩ := by simp [w₂]
    simp only [exec]
    rw [hfile]
    exact .inr ⟨trivial, rfl⟩
  refine ⟨w₃, ?_, ?_, ?_⟩
  · unfold publish
    refine .bind (runs_load w) ?_
    rw [h.memory, h.configured, h.claimed]
    refine .bind hclock ?_
    rw [h.job]
    refine .bind (runs_getpid w₀) (.bind hcreate (.bind hwrite ?_))
    refine .bind (runs_andAlso .fsync w₂) (.bind (runs_ask .close w₂) (.bind hrename ?_))
    refine .bind (runs_ask _ w₃) (.bind (runs_ask .fsync w₃) (.bind (runs_ask .close w₃) .ret))
  · have hother : ∀ d name, (w₃.files d name).isSome = true →
        d = s.dir ∧ name = documentName 0 ∨ (w.files d name).isSome = true := by
      intro d name hsome
      simp only [w₃, w₂, w₁, w₀, World.move, files_setFile] at hsome
      split at hsome
      · cases hsome
      · split at hsome
        · next heq => exact .inl heq
        · exact .inr hsome
    refine ⟨h.memory, h.configured, h.claimed, h.job, UInt64.le_refl time, ?_, h.apart,
      fun d name hsome => ?_⟩
    · simp [w₃, w₂, w₁, w₀, World.move, claimName_ne_documentName, (hname.claim 0).symm, h.claim]
    · rcases hother d name hsome with hd | hd
      · exact .inl hd
      · exact h.only d name hd
  · exact ⟨by simp [w₃, World.move, (hname.document 0).symm, doc], rfl⟩

/-! ## Recording -/

/-- The state with one more call counted. -/
def State.record (s : State) (call : Call) : State :=
  { s with counters := s.counters.record call }

theorem Lone.record (h : Lone Old p time s w) (call : Call) :
    Lone Old p time (s.record call) (w.setMemory p (s.record call)) :=
  ⟨memory_setMemory_self _ _ _, h.configured, h.claimed, h.job, h.clock, h.claim,
    ⟨h.apart.claim, h.apart.temporary⟩, h.only⟩

/-- The call after the claim: it is counted, and what is published is there. -/
theorem runs_call {w' : World P} (hclaim : Runs (exec k) p w claimJob true w')
    (h : Lone Old p time s w') (hkeyed : s.counters.Keyed) (call : Call) :
    ∃ w'', Runs (exec k) p w call.program call.publishes w'' ∧
      Lone Old p time (s.record call) w'' ∧
      (call.publishes = true → Left p time (s.record call) w' w'') := by
  obtain ⟨w'', hpublish, hlone, hleft⟩ := runs_publish (k := k) (h.record call)
  have hfile : Left p time (s.record call) w' w'' := ⟨hleft.file, hleft.renamed⟩
  have hload : Runs (exec k) p w' load s w' := h.memory ▸ runs_load w'
  have hstore := runs_store (k := k) (p := p) (s.record call) w'
  cases call with
  | doorReject =>
    refine ⟨w'', ?_, hlone, fun _ => hfile⟩
    exact .bind hclaim (.bind hload (.bind hstore hpublish))
  | case cellKey wasApplied verdict =>
    have hselected : ∀ cell, cells.contains cell = s.counters.selected.has cell := by
      intro cell
      rw [Bool.eq_iff_iff, List.contains_iff_mem, hkeyed.has_selected]
    have hverdicts : ∀ v, verdicts.contains v = s.counters.verdicts.has v := by
      intro v
      rw [Bool.eq_iff_iff, List.contains_iff_mem, hkeyed.has_verdicts]
    have hpublishes : ∀ cell, (Call.case (some cell) wasApplied verdict).publishes =
        (s.counters.selected.has cell &&
          (!wasApplied || verdict.any (s.counters.verdicts.has ·))) := by
      intro cell
      simp only [Call.publishes, Option.any_some, hselected, hverdicts]
    cases cellKey with
    | none => exact ⟨w', .bind hclaim (.bind hload .ret), h, by simp [Call.publishes]⟩
    | some cell =>
      rw [hpublishes]
      by_cases hhas : s.counters.selected.has cell = true
      · have hskip : ¬ ¬ s.counters.selected.has cell = true := not_not.2 hhas
        cases wasApplied with
        | false =>
          have hrec : s.counters.record (.case (some cell) false verdict) =
              (s.counters.decode cell).skip cell := by simp [Counters.record, hhas]
          refine ⟨w'', .bind hclaim (.bind hload ?_), hlone, fun _ => hfile⟩
          rw [State.record, hrec] at hstore hpublish
          dsimp only
          rw [if_neg hskip, hhas]
          exact .bind hstore hpublish
        | true =>
          cases verdict with
          | none =>
            have hrec : s.counters.record (.case (some cell) true none) = s.counters.decode cell := by
              simp [Counters.record, hhas]
            refine ⟨_, .bind hclaim (.bind hload ?_), h.record _, by simp⟩
            rw [State.record, hrec] at hstore ⊢
            dsimp only
            rw [if_neg hskip, hhas]
            exact .bind hstore .ret
          | some v =>
            by_cases hv : s.counters.verdicts.has v = true
            · have hrec : s.counters.record (.case (some cell) true (some v)) =
                  (s.counters.decode cell).apply cell v := by simp [Counters.record, hhas, hv]
              have hpass : ¬ ¬ (s.counters.decode cell).verdicts.has v = true := not_not.2 hv
              refine ⟨w'', .bind hclaim (.bind hload ?_), hlone, fun _ => hfile⟩
              rw [State.record, hrec] at hstore hpublish
              dsimp only
              rw [if_neg hskip, if_pos rfl, if_neg hpass, hhas, Option.any_some, hv]
              exact .bind hstore hpublish
            · have hrec : s.counters.record (.case (some cell) true (some v)) =
                  s.counters.decode cell := by simp [Counters.record, hhas, hv]
              have hfail : ¬ (s.counters.decode cell).verdicts.has v = true := hv
              refine ⟨_, .bind hclaim (.bind hload ?_), h.record _, by simp [hv]⟩
              rw [State.record, hrec] at hstore ⊢
              dsimp only
              rw [if_neg hskip, if_pos rfl, if_pos hfail, hhas, Option.any_some,
                Bool.eq_false_of_not_eq_true hv]
              exact .bind hstore .ret
      · have hrec : s.record (.case (some cell) wasApplied verdict) = s := by
          simp [State.record, Counters.record, hhas]
        refine ⟨w', .bind hclaim (.bind hload ?_), hrec.symm ▸ h, by simp [hhas]⟩
        dsimp only
        rw [if_pos hhas, Bool.eq_false_of_not_eq_true hhas]
        exact .ret

/-- Calls after the claim. -/
theorem runs_runCalls {w' : World P} (hclaim : Runs (exec k) p w claimJob true w')
    (h : Lone Old p time s w') {calls : List Call} (hne : calls ≠ [])
    (hcounters : ∃ done, s.counters = tally done) :
    ∃ w'', Runs (exec k) p w (runCalls calls) () w'' ∧
      Lone Old p time { s with counters := calls.foldl .record s.counters } w'' := by
  have hkeyed : ∀ s : State, (∃ done, s.counters = tally done) → s.counters.Keyed := by
    intro s hs
    obtain ⟨done, hdone⟩ := hs
    exact hdone ▸ tally_keyed done
  induction calls generalizing w w' s with
  | nil => exact absurd rfl hne
  | cons call calls ih =>
    obtain ⟨w₁, hrun, hlone, -⟩ := runs_call hclaim h (hkeyed s hcounters) call
    cases calls with
    | nil => exact ⟨w₁, .bind hrun .ret, hlone⟩
    | cons next calls =>
      obtain ⟨done, hdone⟩ := hcounters
      have hdone' : (s.record call).counters = tally (done ++ [call]) := by
        rw [tally_concat, ← hdone]
        rfl
      obtain ⟨w'', hrest, hlone'⟩ :=
        ih (runs_claimJob_again hlone) hlone (List.cons_ne_nil _ _) ⟨_, hdone'⟩
      exact ⟨w'', .bind hrun hrest, hlone'⟩

/-! ## From the start -/

/-- What `configure` leaves of an accepted configuration. -/
structure Config.Starts (config : Config) (s : State) : Prop where
  sets : config.Sets s
  configured : s.configured = true
  claimed : s.claimed = false
  jobIndex : s.jobIndex = -1
  counters : s.counters = .zero

theorem runs_configure {config : Config} (h : config.Starts s) (hclock : w.clock ≤ s.startedNs) :
    Runs (exec k) p w (configure config) true
      ({ w with clock := s.startedNs }.setMemory p s) := by
  obtain ⟨hbuild, hcompiler, hsanitizers⟩ := h.sets.vocabulary
  have hrange := h.sets.range
  have hpaths := h.sets.paths
  rw [h.sets.parallelism] at hrange
  have hnow : Runs (exec k) p w monotonicNs s.startedNs { w with clock := s.startedNs } :=
    runs_command (c := Command.monotonicNs) ⟨hclock, rfl⟩
  unfold configure
  rw [h.sets.dir, h.sets.controlDir, h.sets.buildId]
  dsimp only
  rw [if_neg (by simp only [hpaths.1, hpaths.2, false_or]; omega), ← h.sets.compiler,
    ← h.sets.sanitizers, ← h.sets.parallelism, if_neg (by simp [hbuild, hcompiler, hsanitizers])]
  refine .bind hnow (.bind (a := ()) ?_ .ret)
  have hs : s = { configured := true, dir := s.dir, controlDir := s.controlDir, buildId := s.buildId,
                  compiler := s.compiler, sanitizers := s.sanitizers, parallelism := s.parallelism,
                  startedNs := s.startedNs, counters := .zero } := by
    obtain ⟨-, hconf, hfree, hjob, hzero⟩ := h
    cases s
    simp_all
  rw [← hs]
  exact runs_store s _

/-- The state of a process that holds job 0 and has made some calls. -/
def State.done (s : State) (calls : List Call) : State :=
  { s.withJob 0 with counters := tally calls }

/-- A process with an accepted configuration takes job 0 and leaves the tally of its calls. -/
theorem runs_harness {config : Config} (h : config.Starts s) (hclock : w.clock ≤ s.startedNs)
    (htime : s.startedNs ≤ time) (hfiles : ∀ d name, (w.files d name).isSome = true → Old d name)
    (hapart : Apart Old s) {calls : List Call} (hne : calls ≠ []) :
    ∃ w', Runs (exec k) p w (harness config calls) () w' ∧ Lone Old p time (s.done calls) w' ∧
      w'.files s.dir (documentName 0) = some ⟨p, ((s.done calls).document time).render⟩ := by
  have hconfigure := runs_configure (k := k) (p := p) h hclock
  obtain ⟨w₁, hclaim, hlone, -⟩ := runs_claimJob (k := k)
    (memory_setMemory_self { w with clock := s.startedNs } p s) h.configured h.claimed hfiles hapart
    htime
  have hzero : (s.withJob 0).counters = .zero := h.counters
  obtain ⟨w₂, hcalls, hlone₂⟩ := runs_runCalls hclaim hlone hne ⟨[], hzero⟩
  rw [hzero] at hlone₂
  obtain ⟨w₃, hpublish, hlone₃, hleft⟩ := runs_publish (k := k) hlone₂
  exact ⟨w₃, .bind hconfigure (.bind hcalls (.bind hpublish .ret)), hlone₃, hleft.file⟩

/-- Among any processes, where none of the others starts. -/
theorem reach_harness (inputs : P → Config × List Call) {config : Config} {calls : List Call}
    (hinput : inputs p = (config, calls)) (h : config.Starts s) (htime : s.startedNs ≤ time)
    (hne : calls ≠ []) :
    ∃ r : System Command Answer (World P) P, Reach (exec k) (start inputs) r ∧
      Lone (fun _ _ => False) p time (s.done calls) r.world ∧
      r.world.files s.dir (documentName 0) =
        some ⟨p, ((s.done calls).document time).render⟩ := by
  have hzero : (start inputs).world.clock ≤ s.startedNs := UInt64.zero_le
  have hapart : Apart (fun _ _ => False) s := ⟨not_false, fun _ _ => not_false⟩
  obtain ⟨w', hrun, hlone, hfile⟩ :=
    runs_harness (k := k) (p := p) h hzero htime nofun hapart hne
  have hprog : (start inputs).procs p = some (harness config calls) := by simp [start, hinput]
  obtain ⟨procs, hreach, -⟩ := hrun.reach hprog
  exact ⟨⟨w', procs⟩, hreach, hlone, hfile⟩

end

end MpcHunt.Telemetry
