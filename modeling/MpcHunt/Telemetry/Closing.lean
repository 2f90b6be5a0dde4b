/-
One process that configures, records and publishes in any order: every
document it publishes closes, and until it configures anew no counter of a
document is less than in the document before.
-/
import MpcHunt.Telemetry.Collisions
import MpcHunt.Telemetry.Readers

namespace MpcHunt.Telemetry

open Digits Json Processes Encoding

/-- The calls of the interface. -/
inductive Api where
  | configure (config : Config)
  | record (call : Call)
  | publish

def Api.program : Api → Program Bool
  | .configure config => Telemetry.configure config
  | .record call => call.program
  | .publish => Telemetry.publish

def runApi : List Api → Program Unit
  | [] => return ()
  | a :: as => do
    let _ ← a.program
    runApi as

/-- The texts that were put in the place of a document so far. -/
def World.published {P : Type} (w : World P) : List Str := w.renamed.map (·.2.2)

/-! ## What is kept -/

section
variable (base : List Str) (steady : Prop)

/-- The documents published since `base`; `steady` says that nothing is configured anew. -/
structure Since (w : World Unit) (docs : List Document) : Prop where
  published : w.published = base ++ docs.map Document.render
  closes : ∀ d ∈ docs, d.Clean ∧ d.counters.Closes
  grows : steady → docs.Pairwise (fun d d' => d.counters.Le d'.counters) ∧
    ∀ d ∈ docs, d.counters.Le (w.memory ()).counters

/-- Nobody else is there. -/
def closing : Discipline (World Unit) Unit where
  Inv w := ∃ docs, Since base steady w docs
  Rely _ w w' := w' = w
  refl _ _ := rfl
  trans h h' := h'.trans h

/-- A program of the one process. -/
abbrev Closing (kernel : Kernel Unit) {α : Type} (Pre : World Unit → Prop) (x : Program α)
    (Post : α → World Unit → Prop) : Prop :=
  Triple (exec kernel) (closing base steady) () Pre x Post

end

/-- What its memory is. -/
def Holding (s : State) (w : World Unit) : Prop := w.memory () = s

/-- After at most `n` calls that record. -/
structure Counted (n : Nat) (s : State) : Prop where
  vocabulary : vocabulary s.buildId = true ∧ vocabulary s.compiler = true ∧
    vocabulary s.sanitizers = true
  keyed : s.counters.Keyed
  tallied : ∃ m ≤ n, s.counters.Tallied m

theorem Counted.succ {n : Nat} {s : State} (h : Counted n s) : Counted (n + 1) s := by
  obtain ⟨m, hm, htally⟩ := h.tallied
  exact ⟨h.vocabulary, h.keyed, m, Nat.le_succ_of_le hm, htally⟩

theorem Counted.record {n : Nat} {s : State} (h : Counted n s) (hn : n + 1 < 2 ^ 64) {call : Call}
    (hcall : call.Proper) : Counted (n + 1) { s with counters := s.counters.record call } := by
  obtain ⟨m, hm, htally⟩ := h.tallied
  refine ⟨h.vocabulary, record_keyed h.keyed call, ?_⟩
  rcases record_tallied htally h.keyed (by omega) hcall with ht | ht
  · exact ⟨m, by omega, ht⟩
  · exact ⟨m + 1, by omega, ht⟩

section
variable {base : List Str} {steady : Prop} {kernel : Kernel Unit} {s : State}

theorem stable_closing (Pre : World Unit → Prop) : Stable (closing base steady) () Pre := by
  intro w w' hrely _ h
  obtain rfl : w' = w := hrely
  exact h

/-! ## What one step does -/

theorem Since.same {w w' : World Unit} {docs : List Document} (h : Since base steady w docs)
    (hmem : w'.memory = w.memory) (hrenamed : w'.renamed = w.renamed) :
    Since base steady w' docs := by
  refine ⟨?_, h.closes, ?_⟩
  · unfold World.published
    rw [hrenamed]
    exact h.published
  · rw [hmem]
    exact h.grows

theorem Closing.perform {Pre : World Unit → Prop} {c : Command} {Post : Answer c → World Unit → Prop}
    (h : ∀ w, Pre w → ∀ r w', exec kernel () w c r w' →
      w'.memory = w.memory ∧ w'.renamed = w.renamed ∧ Post r w') :
    Closing base steady kernel Pre (Prog.perform c) Post := by
  refine Triple.perform (stable_closing _) (fun _ => stable_closing _) ?_
  intro w hinv hpre r w' hexec
  obtain ⟨docs, hdocs⟩ := hinv
  obtain ⟨hmem, hrenamed, hpost⟩ := h w hpre r w' hexec
  exact ⟨⟨docs, hdocs.same hmem hrenamed⟩, fun q hq => absurd rfl hq, hpost⟩

theorem Closing.pure {α : Type} {a : α} {Pre : World Unit → Prop} {Post : α → World Unit → Prop}
    (h : ∀ w, Pre w → Post a w) : Closing base steady kernel Pre (Pure.pure a) Post :=
  Triple.pure (stable_closing _) fun w _ => h w

theorem Closing.monotonicNs : Closing base steady kernel (Holding s) monotonicNs fun _ => Holding s := by
  refine Closing.perform fun w hpre now w' hexec => ?_
  obtain ⟨-, rfl⟩ := hexec
  exact ⟨rfl, rfl, hpre⟩

/-- What is stored is no less, unless the process is configured anew. -/
theorem Closing.store (s' : State) (h : steady → s.counters.Le s'.counters) :
    Closing base steady kernel (Holding s) (store s') fun _ => Holding s' := by
  refine Triple.perform (stable_closing _) (fun _ => stable_closing _) ?_
  intro w hinv hpre _ w' hexec
  obtain ⟨docs, hdocs⟩ := hinv
  obtain rfl := hexec
  refine ⟨⟨docs, hdocs.published, hdocs.closes, fun hsteady => ?_⟩, fun q hq => absurd rfl hq,
    memory_setMemory_self w () s'⟩
  obtain ⟨hpairs, hbelow⟩ := hdocs.grows hsteady
  refine ⟨hpairs, fun d hd => ?_⟩
  rw [memory_setMemory_self]
  have hmem : w.memory () = s := hpre
  have hle := hbelow d hd
  rw [hmem] at hle
  exact hle.trans (h hsteady)

/-! ## The claim -/

/-- A claim changes the job and nothing else. -/
def Claims (s : State) (w : World Unit) : Prop := Holding s w ∨ ∃ i, Holding (s.withJob i) w

theorem Closing.create (d name : Str) :
    Closing base steady kernel (Holding s) (create d name) fun ok w =>
      Holding s w ∧ (ok = true → w.files d name = some ⟨(), []⟩) := by
  refine Closing.perform fun w hpre ok w' hexec => ?_
  cases hfile : w.files d name with
  | some f =>
    simp only [exec, hfile] at hexec
    obtain ⟨rfl, rfl⟩ := hexec
    exact ⟨rfl, rfl, hpre, by simp⟩
  | none =>
    simp only [exec, hfile] at hexec
    rcases hexec with ⟨rfl, rfl⟩ | ⟨-, rfl, rfl⟩
    · exact ⟨rfl, rfl, hpre, fun _ => by simp⟩
    · exact ⟨rfl, rfl, hpre, by simp⟩

theorem Closing.write (d name data content : Str) :
    Closing base steady kernel (fun w => Holding s w ∧ w.files d name = some ⟨(), content⟩)
      (write d name data) fun n w =>
        Holding s w ∧ w.files d name = some ⟨(), content ++ data.take n⟩ := by
  refine Closing.perform fun w hpre n w' hexec => ?_
  obtain ⟨hmem, hfile⟩ := hpre
  simp only [exec, hfile] at hexec
  obtain ⟨-, rfl⟩ := hexec
  exact ⟨rfl, rfl, hmem, by simp⟩

theorem Closing.claimFrom (controlDir : Str) (left index : Nat) :
    Closing base steady kernel (Holding s) (claimFrom controlDir left index) fun _ => Claims s := by
  induction left generalizing index with
  | zero => exact Closing.pure fun _ h => .inl h
  | succ left ih =>
    unfold Telemetry.claimFrom
    refine .bind (Closing.create _ _) fun ok => .ite (fun _ => ?_) fun hok => ?_
    · exact (ih (index + 1)).mono (fun _ _ h => h.1) fun _ _ _ h => h
    have htrue : ok = true := by simpa using hok
    refine .bind (getpid_holds (stable_closing _)) fun n => ?_
    refine .bind ((Closing.write _ _ _ []).mono (fun _ _ h => ⟨h.1, h.2 htrue⟩)
      fun _ _ _ h => h) fun n => ?_
    refine .bind (andAlso_holds (stable_closing _) _ _) fun ok => .given fun _ => ?_
    refine .bind (ask_holds (stable_closing _) _) fun closed =>
      .ite (fun _ => Closing.pure fun _ h => .inl h.1) fun _ => ?_
    refine .bind (load_holds (stable_closing _) fun _ h => h.1) fun s' => .given fun hs' => ?_
    subst hs'
    have hsame : s'.counters.Le (s'.withJob index).counters := .refl _
    refine .bind ((Closing.store _ fun _ => hsame).mono (fun _ _ h => h.1) fun _ _ _ h => h)
      fun _ => Closing.pure fun _ h => .inr ⟨index, h⟩

theorem Closing.claimJob :
    Closing base steady kernel (Holding s) claimJob fun ok w =>
      Claims s w ∧ (ok = true → s.configured = true) := by
  unfold Telemetry.claimJob
  refine .bind (load_holds (stable_closing _) fun _ h => h) fun s' => .given fun hs' => ?_
  subst hs'
  refine .ite (fun _ => Closing.pure fun _ h => ⟨.inl h, nofun⟩) fun hconf => ?_
  have hconf : s'.configured = true := by simpa using hconf
  refine .ite (fun _ => Closing.pure fun _ h => ⟨.inl h, fun _ => hconf⟩) fun _ => ?_
  refine .bind (mkdirIfNeeded_holds (stable_closing _) _) fun _ =>
    .ite (fun _ => Closing.pure fun _ h => ⟨.inl h, nofun⟩) fun _ => ?_
  refine .bind (mkdirIfNeeded_holds (stable_closing _) _) fun _ =>
    .ite (fun _ => Closing.pure fun _ h => ⟨.inl h, nofun⟩) fun _ => ?_
  exact (Closing.claimFrom _ _ 0).mono (fun _ _ h => h) fun _ _ _ h => ⟨h, fun _ => hconf⟩

/-! ## Publishing -/

theorem Closing.unlink (d name : Str) :
    Closing base steady kernel (Holding s) (unlink d name) fun _ => Holding s := by
  refine Closing.perform fun w hpre r w' hexec => ?_
  rcases hexec with rfl | rfl
  · exact ⟨rfl, rfl, hpre⟩
  · exact ⟨rfl, rfl, hpre⟩

/-- What is published closes, and is the last so far. -/
theorem Closing.rename {d source dest : Str} {doc : Document} (hclean : doc.Clean)
    (hcloses : doc.counters.Closes) (hcounters : doc.counters = s.counters) :
    Closing base steady kernel
      (fun w => Holding s w ∧ w.files d source = some ⟨(), doc.render⟩) (rename d source dest)
      fun _ => Holding s := by
  refine Triple.perform (stable_closing _) (fun _ => stable_closing _) ?_
  intro w hinv hpre ok w' hexec
  obtain ⟨docs, hdocs⟩ := hinv
  obtain ⟨hmem, hfile⟩ := hpre
  simp only [exec, hfile] at hexec
  rcases hexec with ⟨-, rfl⟩ | ⟨-, rfl⟩
  · exact ⟨⟨docs, hdocs⟩, fun q hq => absurd rfl hq, hmem⟩
  · refine ⟨⟨docs ++ [doc], ?_, ?_, fun hsteady => ?_⟩, fun q hq => absurd rfl hq, hmem⟩
    · have hbefore := hdocs.published
      unfold World.published at hbefore ⊢
      simp [World.move, hbefore]
    · intro d' hd'
      rcases List.mem_append.1 hd' with hd' | hd'
      · exact hdocs.closes d' hd'
      · rw [List.mem_singleton.1 hd']
        exact ⟨hclean, hcloses⟩
    · obtain ⟨hpairs, hbelow⟩ := hdocs.grows hsteady
      have hmem' : w.memory () = s := hmem
      rw [hmem', ← hcounters] at hbelow
      have hlast : ∀ d' ∈ docs ++ [doc], d'.counters.Le doc.counters := by
        intro d' hd'
        rcases List.mem_append.1 hd' with hd' | hd'
        · exact hbelow d' hd'
        · rw [List.mem_singleton.1 hd']
          exact .refl _
      refine ⟨List.pairwise_append.2 ⟨hpairs, List.pairwise_singleton _ _, ?_⟩, fun d' hd' => ?_⟩
      · intro d' hd' e he
        rw [List.mem_singleton.1 he]
        exact hbelow d' hd'
      · show d'.counters.Le (w.memory ()).counters
        rw [hmem', ← hcounters]
        exact hlast d' hd'

theorem Closing.atomicPublish (d dest : Str) {doc : Document} (hclean : doc.Clean)
    (hcloses : doc.counters.Closes) (hcounters : doc.counters = s.counters) :
    Closing base steady kernel (Holding s) (atomicPublish d dest doc.render) fun _ => Holding s := by
  unfold Telemetry.atomicPublish
  refine .bind (getpid_holds (stable_closing _)) fun k => ?_
  refine .bind (Closing.create _ _) fun ok => .ite (fun _ => Closing.pure fun _ h => h.1)
    fun hok => ?_
  have htrue : ok = true := by simpa using hok
  refine .bind ((writeAll_holds (fun _ => stable_closing _)
    (fun content data => Closing.write _ _ data content) [] _).mono
    (fun _ _ h => ⟨h.1, h.2 htrue⟩) fun _ _ _ h => h) fun wrote => ?_
  refine .bind (andAlso_holds (stable_closing _) _ _) fun ok => .given fun hwrote => ?_
  refine .bind (ask_holds (stable_closing _) _) fun closed => .ite (fun _ => ?_) fun hall => ?_
  · exact .bind ((Closing.unlink _ _).mono (fun _ _ h => h.1) fun _ _ _ h => h)
      fun _ => Closing.pure fun _ h => h
  have hwhole : wrote = true := hwrote (by simpa using (not_or.1 hall).1)
  refine .bind ((Closing.rename hclean hcloses hcounters).mono (fun _ _ h => ?_)
    fun _ _ _ h => h) fun moved => .ite (fun _ => ?_) fun _ => ?_
  · obtain ⟨hmem, written, hfile, hw⟩ := h
    have hdoc : written = doc.render := hw hwhole
    exact ⟨hmem, hdoc ▸ hfile⟩
  · exact .bind (Closing.unlink _ _) fun _ => Closing.pure fun _ h => h
  refine .bind (ask_holds (stable_closing _) _) fun opened =>
    .ite (fun _ => Closing.pure fun _ h => h) fun _ => ?_
  exact .bind (ask_holds (stable_closing _) _) fun _ =>
    .bind (ask_holds (stable_closing _) _) fun _ => Closing.pure fun _ h => h

theorem Counted.document {n : Nat} (h : Counted n s) (now : UInt64) :
    (s.document now).Clean ∧ (s.document now).counters.Closes := by
  obtain ⟨hbuild, hcompiler, hsanitizers⟩ := h.vocabulary
  obtain ⟨m, -, htally⟩ := h.tallied
  exact ⟨⟨hbuild, hcompiler, hsanitizers, h.keyed⟩, htally.closes⟩

theorem Closing.publish {n : Nat} (h : s.configured = true → Counted n s) :
    Closing base steady kernel (Holding s) publish fun _ => Holding s := by
  unfold Telemetry.publish
  refine .bind (load_holds (stable_closing _) fun _ h => h) fun s' => .given fun hs' => ?_
  subst hs'
  refine .ite (fun _ => Closing.pure fun _ h => h) fun hboth => ?_
  have hconf : s'.configured = true := by simpa using (not_or.1 hboth).1
  refine .bind Closing.monotonicNs fun now => ?_
  obtain ⟨hclean, hcloses⟩ := (h hconf).document now
  exact Closing.atomicPublish _ _ hclean hcloses rfl

/-! ## The calls -/

/-- A process that is counted where it is configured. -/
def Counts (n : Nat) (w : World Unit) : Prop :=
  ∃ s, Holding s w ∧ (s.configured = true → Counted n s)

theorem Counts.mono {n m : Nat} {w : World Unit} (h : Counts n w) (hm : n ≤ m) : Counts m w := by
  obtain ⟨s, hmem, hcounted⟩ := h
  refine ⟨s, hmem, fun hconf => ?_⟩
  obtain ⟨k, hk, htally⟩ := (hcounted hconf).tallied
  exact ⟨(hcounted hconf).vocabulary, (hcounted hconf).keyed, k, hk.trans hm, htally⟩

theorem Closing.claimJob_counts (n : Nat) :
    Closing base steady kernel (Counts n) Telemetry.claimJob fun ok w =>
      ∃ s, Holding s w ∧ (s.configured = true → Counted n s) ∧ (ok = true → s.configured = true) := by
  refine .exists fun s => .given fun hcounted => ?_
  refine Closing.claimJob.mono (fun _ _ h => h) fun ok w _ h => ?_
  obtain ⟨hs | ⟨i, hs⟩, hconf⟩ := h
  · exact ⟨s, hs, hcounted, hconf⟩
  · refine ⟨s.withJob i, hs, fun hc => ?_, hconf⟩
    exact ⟨(hcounted hc).vocabulary, (hcounted hc).keyed, (hcounted hc).tallied⟩

/-- What a call stores and publishes. -/
theorem Closing.store_publish {n : Nat} {s' : State} (hle : s.counters.Le s'.counters)
    (h : Counted n s') :
    Closing base steady kernel (Holding s) (do Telemetry.store s'; Telemetry.publish) fun _ =>
      Counts n :=
  .bind (Closing.store s' fun _ => hle) fun _ => (Closing.publish fun _ => h).mono
    (fun _ _ h => h) fun _ _ _ hs => ⟨s', hs, fun _ => h⟩

theorem Closing.store_fail {n : Nat} {s' : State} (hle : s.counters.Le s'.counters)
    (h : Counted n s') :
    Closing base steady kernel (Holding s) (do Telemetry.store s'; return false) fun _ =>
      Counts n :=
  .bind (Closing.store s' fun _ => hle) fun _ => Closing.pure fun _ hs => ⟨s', hs, fun _ => h⟩

theorem Closing.record {n : Nat} (hn : n + 1 < 2 ^ 64) {call : Call} (hcall : call.Proper) :
    Closing base steady kernel (Counts n) call.program fun _ => Counts (n + 1) := by
  have hfail : ∀ {s w}, Holding s w → (s.configured = true → Counted n s) → Counts (n + 1) w :=
    fun hs hcounted => ⟨_, hs, fun hc => (hcounted hc).succ⟩
  have hstep : ∀ s : State, Counted n s → ∀ call : Call, call.Proper →
      s.counters.Le (s.counters.record call) ∧
        Counted (n + 1) { s with counters := s.counters.record call } := by
    intro s hs call hcall
    obtain ⟨m, hm, htally⟩ := hs.tallied
    exact ⟨htally.record_le hs.keyed (by omega) call, hs.record hn hcall⟩
  cases call with
  | doorReject =>
    refine .bind (Closing.claimJob_counts n) fun ok => .exists fun s => .given fun hs => ?_
    refine .ite (fun _ => Closing.pure fun _ h => hfail h hs.1) fun hok => ?_
    refine .bind (load_holds (stable_closing _) fun _ h => h) fun s' => .given fun hs' => ?_
    subst hs'
    obtain ⟨hle, hnext⟩ := hstep s' (hs.1 (hs.2 (by simpa using hok))) _ hcall
    exact Closing.store_publish hle hnext
  | case cellKey wasApplied verdict =>
    refine .bind (Closing.claimJob_counts n) fun ok => .exists fun s => .given fun hs => ?_
    refine .ite (fun _ => Closing.pure fun _ h => hfail h hs.1) fun hok => ?_
    refine .bind (load_holds (stable_closing _) fun _ h => h) fun s' => .given fun hs' => ?_
    subst hs'
    obtain ⟨hle, hnext⟩ := hstep s' (hs.1 (hs.2 (by simpa using hok))) _ hcall
    cases cellKey with
    | none => exact Closing.pure fun _ h => hfail h hs.1
    | some cell =>
      refine .ite (fun _ => Closing.pure fun _ h => hfail h hs.1) fun hhas => ?_
      dsimp only
      refine .ite (fun happlied => ?_) fun happlied => ?_
      · cases verdict with
        | none =>
          have hrec : s'.counters.record (.case (some cell) wasApplied none) =
              s'.counters.decode cell := by simp [Counters.record, hhas, happlied]
          rw [hrec] at hle hnext
          exact Closing.store_fail hle hnext
        | some v =>
          have hsame : (s'.counters.decode cell).verdicts = s'.counters.verdicts := rfl
          rw [hsame]
          refine .ite (fun hno => ?_) fun hyes => ?_
          · have hrec : s'.counters.record (.case (some cell) wasApplied (some v)) =
                s'.counters.decode cell := by simp [Counters.record, hhas, happlied, hno]
            rw [hrec] at hle hnext
            exact Closing.store_fail hle hnext
          · have hrec : s'.counters.record (.case (some cell) wasApplied (some v)) =
                (s'.counters.decode cell).apply cell v := by
              simp [Counters.record, hhas, happlied, hyes]
            rw [hrec] at hle hnext
            exact Closing.store_publish hle hnext
      · have hrec : s'.counters.record (.case (some cell) wasApplied verdict) =
            (s'.counters.decode cell).skip cell := by simp [Counters.record, hhas, happlied]
        rw [hrec] at hle hnext
        exact Closing.store_publish hle hnext

/-- Configuring anew is the one thing that takes counters back. -/
theorem Closing.configure (n : Nat) (config : Config) (h : steady → ∀ s, ¬ config.Sets s) :
    Closing base steady kernel (Counts n) (configure config) fun _ => Counts n := by
  unfold Telemetry.configure
  split
  · next d c build hd hc hb =>
    refine .ite (fun _ => Closing.pure fun _ hs => hs) fun hrange => ?_
    dsimp only
    refine .ite (fun _ => Closing.pure fun _ hs => hs) fun hvocab => ?_
    refine .exists fun s => .given fun _ => ?_
    refine .bind Closing.monotonicNs fun now => ?_
    let t : State :=
      { configured := true, dir := d, controlDir := c, buildId := build,
        compiler := config.compiler.getD (text "unknown"),
        sanitizers := config.sanitizers.getD (text "unknown"),
        parallelism := config.parallelism, startedNs := now, counters := .zero }
    have hsets : config.Sets t :=
      ⟨hd, hc, by simp only [t]; tauto, hb, rfl, rfl, by simpa [t] using hvocab, rfl,
        by simp only [t]; omega⟩
    have hstore : Closing base steady kernel (Holding s) (Telemetry.store t) fun _ => Holding t :=
      Closing.store t fun hsteady => absurd hsets (h hsteady t)
    refine .bind hstore fun _ => Closing.pure fun w ht => ⟨t, ht, fun _ => ?_⟩
    exact ⟨hsets.vocabulary, Counters.zero_keyed, 0, Nat.zero_le n, Counters.zero_tallied⟩
  · exact Closing.pure fun _ hs => hs

/-- A verdict of the list, where a case of a cell of the list was applied. -/
def Api.Proper : Api → Prop
  | .record call => call.Proper
  | _ => True

/-- None of the calls configures anew. -/
def Steady (calls : List Api) : Prop := ∀ config, .configure config ∈ calls → ∀ s, ¬ config.Sets s

theorem Closing.program {n : Nat} (hn : n + 1 < 2 ^ 64) {a : Api} (ha : a.Proper)
    (h : steady → ∀ config, a = .configure config → ∀ s, ¬ config.Sets s) :
    Closing base steady kernel (Counts n) a.program fun _ => Counts (n + 1) := by
  cases a with
  | configure config =>
    exact (Closing.configure n config fun hsteady => h hsteady config rfl).mono (fun _ _ hs => hs)
      fun _ _ _ hs => hs.mono (Nat.le_succ n)
  | record call => exact Closing.record hn ha
  | publish =>
    refine .exists fun s => .given fun hs => (Closing.publish hs).mono (fun _ _ h => h) ?_
    exact fun _ _ _ h => ⟨s, h, fun hconf => (hs hconf).succ⟩

/-- One call after another. -/
theorem Closing.runApi (calls : List Api) {n : Nat} (hn : n + calls.length < 2 ^ 64)
    (hproper : ∀ a ∈ calls, a.Proper) (hsteady : steady → Steady calls) :
    Closing base steady kernel (Counts n) (runApi calls) fun _ => Counts (n + calls.length) := by
  induction calls generalizing n with
  | nil => exact Closing.pure fun _ h => h
  | cons a calls ih =>
    rw [List.length_cons] at hn
    have hfirst : steady → ∀ config, a = .configure config → ∀ s, ¬ config.Sets s :=
      fun h config ha => hsteady h config (ha ▸ List.mem_cons_self)
    refine .bind (Closing.program (by omega) (hproper a List.mem_cons_self) hfirst) fun _ => ?_
    refine (ih (n := n + 1) (by omega) (fun b hb => hproper b (List.mem_cons_of_mem a hb))
      fun h config hc => hsteady h config (List.mem_cons_of_mem a hc)).mono (fun _ _ h => h) ?_
    refine fun _ _ _ h => h.mono ?_
    rw [List.length_cons]
    omega

end

/-! ## Runs of one process -/

/-- The process with some calls to make. -/
def alone (w : World Unit) (calls : List Api) : System Command Answer (World Unit) Unit :=
  ⟨w, fun _ => some (runApi calls)⟩

/-- Proper calls, fewer than the counters can count. -/
def ProperApi (calls : List Api) : Prop := calls.length < 2 ^ 64 ∧ ∀ a ∈ calls, a.Proper

theorem counts_of_runs {kernel : Kernel Unit} {before : List Api} (hproper : ProperApi before)
    {w₀ w : World Unit} (hfresh : w₀.memory () = {})
    (hbefore : Runs (exec kernel) () w₀ (runApi before) () w) : Counts before.length w := by
  obtain ⟨hlen, hall⟩ := hproper
  have hrun : Closing w₀.published False kernel (Counts 0) (runApi before) fun _ =>
      Counts (0 + before.length) := Closing.runApi before (by omega) hall False.elim
  have hw₀ : Counts 0 w₀ := ⟨{}, hfresh, nofun⟩
  have hinv : (closing w₀.published False).Inv w₀ := ⟨[], by simp, nofun, False.elim⟩
  have hend := (hrun.runs hinv hw₀ hbefore).2
  rwa [Nat.zero_add] at hend

/-- What further calls publish. -/
theorem since_of_reach {kernel : Kernel Unit} {before calls : List Api}
    (hproper : ProperApi (before ++ calls)) {w₀ w : World Unit} (hfresh : w₀.memory () = {})
    (hbefore : Runs (exec kernel) () w₀ (runApi before) () w)
    {s : System Command Answer (World Unit) Unit}
    (hreach : Reach (exec kernel) (alone w calls) s) :
    ∃ docs, Since w.published (Steady calls) s.world docs := by
  obtain ⟨hlen, hall⟩ := hproper
  rw [List.length_append] at hlen
  have hstart : (closing w.published (Steady calls)).Inv w :=
    ⟨[], by simp, nofun, fun _ => ⟨List.Pairwise.nil, nofun⟩⟩
  have hcounts : Counts before.length w :=
    counts_of_runs ⟨by omega, fun a ha => hall a (List.mem_append_left calls ha)⟩ hfresh hbefore
  have hcalls : Closing w.published (Steady calls) kernel (Counts before.length) (runApi calls)
      fun _ => Counts (before.length + calls.length) :=
    Closing.runApi calls (by omega) (fun a ha => hall a (List.mem_append_right before ha)) id
  exact inv_of_reach (D := closing w.published (Steady calls)) hstart
    (fun p x hx => by
      obtain rfl := Option.some.inj hx
      exact (hcalls w hstart hcounts).mono fun _ _ _ _ => trivial) hreach

/-- After any calls, every document that further calls publish closes and is read back by both
readers; and where these calls configure nothing anew, no counter is less than in a document
before. -/
theorem published_counters_close (kernel : Kernel Unit) (before calls : List Api)
    (hproper : ProperApi (before ++ calls)) (w₀ w : World Unit) (hfresh : w₀.memory () = {})
    (hbefore : Runs (exec kernel) () w₀ (runApi before) () w)
    (s : System Command Answer (World Unit) Unit)
    (hreach : Reach (exec kernel) (alone w calls) s) :
    ∃ docs : List Document, s.world.published = w.published ++ docs.map Document.render ∧
      (∀ d ∈ docs, d.Clean ∧ d.counters.Closes ∧ (d.counters.Below (2 ^ 40) →
        ReadsBack (encodeAscii d.render) d.counters.numbers)) ∧
      (Steady calls → docs.Pairwise fun d d' => d.counters.Le d'.counters) := by
  obtain ⟨docs, hdocs⟩ := since_of_reach hproper hfresh hbefore hreach
  refine ⟨docs, hdocs.published, fun d hd => ?_, fun hsteady => (hdocs.grows hsteady).1⟩
  obtain ⟨hclean, hcloses⟩ := hdocs.closes d hd
  exact ⟨hclean, hcloses, Document.readsBack hclean hcloses⟩

/-- A world in which nothing has happened. -/
def freshWorld : World Unit := ⟨fun _ _ => none, fun _ => {}, 0, []⟩

/-- Other directories. -/
def otherConfig : Config :=
  { r4Config with dir := some (text "telemetry2"), controlDir := some (text "control2") }

def otherState : State := { r4State with dir := text "telemetry2", controlDir := text "control2" }

theorem otherConfig_starts : otherConfig.Starts otherState := by
  have h := r4Config_starts
  have hpaths : otherState.dir ≠ [] ∧ otherState.controlDir ≠ [] := by simp [otherState, text]
  exact ⟨⟨rfl, rfl, hpaths, rfl, rfl, rfl, h.sets.vocabulary, rfl, h.sets.range⟩, rfl, rfl, rfl, rfl⟩

/-- Two rejections, another configuration, and a rejection. -/
def startsOver : List Api :=
  [.configure r4Config, .record .doorReject, .record .doorReject, .configure otherConfig,
    .record .doorReject]

/-- What a process publishes of a state at the time zero. -/
def atZero (s : State) (calls : List Call) : Document :=
  (s.done calls).document 0

theorem runs_startsOver :
    ∃ w, Runs (exec ⟨fun _ => 7, false⟩) () freshWorld (runApi startsOver) () w ∧
      w.published = [(atZero r4State [.doorReject]).render,
        (atZero r4State [.doorReject, .doorReject]).render,
        (atZero otherState [.doorReject]).render] := by
  let k : Kernel Unit := ⟨fun _ => 7, false⟩
  let Old : Str → Str → Prop := fun d _ => d = text "telemetry" ∨ d = text "control"
  have hapart : Apart (fun _ _ => False) r4State := ⟨not_false, fun _ _ => not_false⟩
  have hconfigure := runs_configure (k := k) (p := ()) (w := freshWorld) r4Config_starts
    (UInt64.le_refl 0)
  obtain ⟨w₁, hclaim₁, hlone₁, hsame₁⟩ := runs_claimJob (k := k)
    (memory_setMemory_self { freshWorld with clock := 0 } () r4State) rfl rfl nofun hapart
    (UInt64.le_refl 0)
  obtain ⟨w₂, hrun₂, hlone₂, hleft₂⟩ := runs_call hclaim₁ hlone₁ Counters.zero_keyed .doorReject
  obtain ⟨w₃, hrun₃, hlone₃, hleft₃⟩ :=
    runs_call (runs_claimJob_again hlone₂) hlone₂ (tally_keyed [.doorReject]) .doorReject
  have hconfigure' := runs_configure (k := k) (p := ()) (w := w₃) otherConfig_starts hlone₃.clock
  have hfiles : ∀ d name, (w₃.files d name).isSome = true → Old d name := by
    intro d name hsome
    rcases hlone₃.only d name hsome with ⟨hd, -⟩ | ⟨hd, -⟩ | hd
    · exact .inl hd
    · exact .inr hd
    · exact hd.elim
  have hapart' : Apart Old otherState := by
    refine ⟨?_, fun _ _ => ?_⟩ <;> simp [Old, otherState, text]
  obtain ⟨w₄, hclaim₄, hlone₄, hsame₄⟩ := runs_claimJob (k := k)
    (memory_setMemory_self { w₃ with clock := 0 } () otherState) rfl rfl hfiles hapart'
    (UInt64.le_refl 0)
  obtain ⟨w₅, hrun₅, -, hleft₅⟩ := runs_call hclaim₄ hlone₄ Counters.zero_keyed .doorReject
  refine ⟨w₅, .bind hconfigure (.bind hrun₂ (.bind hrun₃ (.bind hconfigure' (.bind hrun₅ .ret)))), ?_⟩
  have hrenamed := (hleft₅ rfl).renamed
  have hsame : w₄.renamed = w₃.renamed := hsame₄
  rw [hsame, (hleft₃ rfl).renamed, (hleft₂ rfl).renamed, hsame₁] at hrenamed
  unfold World.published
  rw [hrenamed]
  rfl

theorem startsOver_proper : ProperApi startsOver := by
  refine ⟨by simp [startsOver], ?_⟩
  simp [startsOver, Api.Proper, Call.Proper]

/-- A case of the same cell that was not applied. -/
def unappliedCase : Call := .case (some (text "r1.mta_proofs[victim]|flip_bit")) false none

def twoCases : List Api := [.record appliedCase, .record unappliedCase]

/-- The world of a process that has configured itself. -/
def configuredWorld : World Unit := { freshWorld with clock := 0 }.setMemory () r4State

theorem runs_twoCases :
    ∃ w, Runs (exec ⟨fun _ => 7, false⟩) () configuredWorld (runApi twoCases) () w ∧
      w.published = [(atZero r4State [appliedCase]).render,
        (atZero r4State [appliedCase, unappliedCase]).render] := by
  let k : Kernel Unit := ⟨fun _ => 7, false⟩
  have hapart : Apart (fun _ _ => False) r4State := ⟨not_false, fun _ _ => not_false⟩
  obtain ⟨w₁, hclaim₁, hlone₁, hsame₁⟩ := runs_claimJob (k := k)
    (memory_setMemory_self { freshWorld with clock := 0 } () r4State) rfl rfl nofun hapart
    (UInt64.le_refl 0)
  obtain ⟨w₂, hrun₂, hlone₂, hleft₂⟩ :=
    runs_call hclaim₁ hlone₁ Counters.zero_keyed appliedCase
  obtain ⟨w₃, hrun₃, -, hleft₃⟩ :=
    runs_call (runs_claimJob_again hlone₂) hlone₂ (tally_keyed [appliedCase]) unappliedCase
  refine ⟨w₃, .bind hrun₂ (.bind hrun₃ .ret), ?_⟩
  have hrenamed := (hleft₃ (by decide +kernel)).renamed
  rw [(hleft₂ (by decide +kernel)).renamed, hsame₁] at hrenamed
  unfold World.published
  rw [hrenamed]
  rfl

theorem twoCases_steady : Steady twoCases := by
  intro config hconfig
  simp [twoCases] at hconfig

theorem twoCases_proper : ProperApi ([.configure r4Config] ++ twoCases) := by
  refine ⟨by simp [twoCases], fun a ha => ?_⟩
  simp only [twoCases, List.singleton_append, List.mem_cons, List.not_mem_nil, or_false] at ha
  rcases ha with rfl | rfl | rfl
  · trivial
  · exact appliedCase_proper
  · exact fun _ _ _ happlied => by cases happlied

/-- A process that has configured itself publishes two cases: both documents close, and no counter
of the second is less than in the first. -/
theorem published_counters_close_twoCases :
    ∃ s, Reach (exec ⟨fun _ => 7, false⟩) (alone configuredWorld twoCases) s ∧
      s.world.published.length = 2 ∧ ∃ docs : List Document,
        s.world.published = configuredWorld.published ++ docs.map Document.render ∧
          (∀ d ∈ docs, d.Clean ∧ d.counters.Closes ∧ (d.counters.Below (2 ^ 40) →
            ReadsBack (encodeAscii d.render) d.counters.numbers)) ∧
          docs.Pairwise fun d d' => d.counters.Le d'.counters := by
  have hconfigure : Runs (exec ⟨fun _ => 7, false⟩) () freshWorld (runApi [.configure r4Config]) ()
      configuredWorld := .bind (runs_configure r4Config_starts (UInt64.le_refl 0)) .ret
  obtain ⟨w, hrun, hpublished⟩ := runs_twoCases
  have hstart : (alone configuredWorld twoCases).procs () = some (runApi twoCases) := rfl
  obtain ⟨procs, hreach, -⟩ := hrun.reach hstart
  obtain ⟨docs, hdocs, hclose, hgrow⟩ := published_counters_close _ [.configure r4Config] twoCases
    twoCases_proper freshWorld configuredWorld rfl hconfigure _ hreach
  exact ⟨⟨w, procs⟩, hreach, by rw [hpublished]; rfl, docs, hdocs, hclose, hgrow twoCases_steady⟩

theorem atZero_clean {config : Config} {s : State} (h : config.Sets s) (calls : List Call) :
    (atZero s calls).Clean := by
  obtain ⟨hbuild, hcompiler, hsanitizers⟩ := h.vocabulary
  exact ⟨hbuild, hcompiler, hsanitizers, tally_keyed calls⟩

/-- Counters start over where a process configures anew. -/
theorem published_counters_start_over :
    ¬ ∀ (kernel : Kernel Unit) (calls : List Api), ProperApi calls → ∀ w₀ w : World Unit,
      w₀.memory () = {} → Runs (exec kernel) () w₀ (runApi calls) () w →
        ∃ docs : List Document, w.published = w₀.published ++ docs.map Document.render ∧
          (∀ d ∈ docs, d.Clean) ∧ docs.Pairwise fun d d' => d.counters.Le d'.counters := by
  intro hall
  obtain ⟨w, hrun, hpublished⟩ := runs_startsOver
  obtain ⟨docs, hdocs, hclean, hpairs⟩ := hall _ _ startsOver_proper _ _ rfl hrun
  rw [hpublished] at hdocs
  obtain ⟨d₁, d₂, d₃, rfl⟩ : ∃ d₁ d₂ d₃, docs = [d₁, d₂, d₃] := by
    have hlen := congrArg List.length hdocs
    simp only [freshWorld, World.published, List.map_nil, List.nil_append, List.length_map,
      List.length_cons, List.length_nil] at hlen
    exact List.length_eq_three.1 hlen.symm
  simp only [freshWorld, World.published, List.map_cons, List.map_nil, List.nil_append,
    List.cons.injEq, and_true] at hdocs
  have h₂ := Document.counters_of_render (atZero_clean r4Config_starts.sets _) (hclean d₂ (by simp))
    hdocs.2.1
  have h₃ := Document.counters_of_render (atZero_clean otherConfig_starts.sets _)
    (hclean d₃ (by simp)) hdocs.2.2
  have hle : d₂.counters.Le d₃.counters := by
    simp only [List.pairwise_cons, List.mem_cons, forall_eq_or_imp] at hpairs
    exact hpairs.2.1.1
  rw [← h₂, ← h₃] at hle
  exact absurd hle.execs (by decide)

end MpcHunt.Telemetry
