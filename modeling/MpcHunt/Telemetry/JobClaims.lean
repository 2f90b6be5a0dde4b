/-
Any number of harness processes on one telemetry and one control directory:
each claims its own job, the claims are the first so many, and what is at a
job's document is whole, from the process that holds the job and a tally of
calls of that process.
-/
import MpcHunt.Telemetry.TelemetryV2

namespace MpcHunt.Telemetry

open Digits Json Processes

/-! ## Names -/

theorem claimName_inj {i j : Nat} (h : claimName i = claimName j) : i = j :=
  decimal_inj (List.append_cancel_left h)

theorem showInt_natCast (n : Nat) : showInt n = decimal n := by
  unfold showInt
  rw [if_neg (by omega), Int.natAbs_natCast]

theorem documentName_inj {m n : Nat} (h : documentName m = documentName n) : m = n := by
  unfold documentName at h
  rw [showInt_natCast, showInt_natCast] at h
  exact decimal_inj (List.append_cancel_left (List.append_cancel_right h))

/-- A temporary name ends in a digit. -/
theorem temporaryName_ne (dest : Str) (n : Nat) (i : Int) :
    temporaryName dest n ≠ documentName i := by
  obtain ⟨hdigits, hne, -⟩ := decimal_canonical n
  intro h
  have hlast := congrArg List.getLast? h
  unfold temporaryName documentName at hlast
  rw [List.getLast?_append_of_ne_nil _ hne, List.getLast?_append_of_ne_nil _ (by decide),
    List.getLast?_eq_getLast_of_ne_nil hne] at hlast
  have hdigit := hdigits _ (List.getLast_mem hne)
  rw [Option.some.inj hlast] at hdigit
  exact absurd hdigit (by decide)

theorem claimName_ne_documentName (i : Nat) (n : Int) : claimName i ≠ documentName n := by
  intro h
  have hhead := congrArg List.head? h
  unfold claimName documentName at hhead
  rw [List.append_assoc, List.head?_append_of_ne_nil _ (by decide),
    List.head?_append_of_ne_nil _ (by decide)] at hhead
  exact absurd hhead (by decide)

theorem claimName_ne_temporaryName (i : Nat) (n : Int) (pid : Nat) :
    claimName i ≠ temporaryName (documentName n) pid := by
  intro h
  have hhead := congrArg List.head? h
  unfold claimName temporaryName documentName at hhead
  rw [List.append_assoc, List.append_assoc, List.append_assoc,
    List.head?_append_of_ne_nil _ (by decide), List.head?_append_of_ne_nil _ (by decide)] at hhead
  exact absurd hhead (by decide)

/-- A name of neither a claim nor a document. -/
structure Temporary (name : Str) : Prop where
  claim : ∀ i, name ≠ claimName i
  document : ∀ i : Int, name ≠ documentName i

theorem temporary_temporaryName (n : Int) (pid : Nat) :
    Temporary (temporaryName (documentName n) pid) :=
  ⟨fun i => (claimName_ne_temporaryName i n pid).symm, temporaryName_ne _ _⟩

/-! ## What is kept -/

/-- What an accepted configuration sets. -/
structure Config.Sets (config : Config) (s : State) : Prop where
  dir : config.dir = some s.dir
  controlDir : config.controlDir = some s.controlDir
  paths : s.dir ≠ [] ∧ s.controlDir ≠ []
  buildId : config.buildId = some s.buildId
  compiler : s.compiler = config.compiler.getD (text "unknown")
  sanitizers : s.sanitizers = config.sanitizers.getD (text "unknown")
  vocabulary : vocabulary s.buildId = true ∧ vocabulary s.compiler = true ∧
    vocabulary s.sanitizers = true
  parallelism : s.parallelism = config.parallelism
  range : 1 ≤ s.parallelism ∧ s.parallelism ≤ 64

/-- The state of a process that has counted some of its calls. -/
structure Ready (config : Config) (done : List Call) (s : State) : Prop where
  sets : config.Sets s
  counters : ∃ calls, calls.Sublist done ∧ s.counters = tally calls

theorem Ready.mono {config : Config} {done done' : List Call} {s : State} (h : Ready config done s)
    (hdone : done.Sublist done') : Ready config done' s := by
  obtain ⟨calls, hcalls, htally⟩ := h.counters
  exact ⟨h.sets, calls, hcalls.trans hdone, htally⟩

/-- One more call counted. -/
theorem Ready.record {config : Config} {done : List Call} {s : State} (h : Ready config done s)
    (call : Call) :
    Ready config (done ++ [call]) { s with counters := s.counters.record call } := by
  obtain ⟨calls, hcalls, htally⟩ := h.counters
  refine ⟨⟨h.sets.dir, h.sets.controlDir, h.sets.paths, h.sets.buildId, h.sets.compiler,
    h.sets.sanitizers, h.sets.vocabulary, h.sets.parallelism, h.sets.range⟩, calls ++ [call],
    hcalls.append (List.Sublist.refl _), ?_⟩
  rw [tally_concat, htally]

variable {P : Type}

section
variable (kernel : Kernel P) (inputs : P → Config × List Call) (dir controlDir : Str)

/-- A document that the process which holds the job had to publish at some time. -/
def Published (w : World P) (n : Nat) (f : File P) : Prop :=
  (w.memory f.creator).claimed = true ∧ (w.memory f.creator).jobIndex = n ∧
    ∃ (s : State) (now : UInt64), f.content = (s.document now).render ∧ s.jobIndex = n ∧
      Ready (inputs f.creator).1 (inputs f.creator).2 s ∧ s.startedNs ≤ now

structure Inv (w : World P) : Prop where
  segment : kernel.createMayFail = false →
    ∃ k, ∀ i, (w.files controlDir (claimName i)).isSome = true ↔ i < k
  held : ∀ p, (w.memory p).claimed = true → ∃ (i : Nat) (content : Str),
    (w.memory p).jobIndex = i ∧ w.files controlDir (claimName i) = some ⟨p, content⟩
  documents : ∀ (n : Nat) f, w.files dir (documentName n) = some f → Published inputs w n f

/-- The claims before `index` are all there, where nothing else makes a create fail. -/
def ClaimedBefore (index : Nat) (w : World P) : Prop :=
  kernel.createMayFail = false → ∀ j < index, (w.files controlDir (claimName j)).isSome = true

/-- What a process relies on: its memory, its files, that claims stay and that time goes on. -/
structure Rely (p : P) (w w' : World P) : Prop where
  memory : w'.memory p = w.memory p
  own : ∀ d name content, w.files d name = some ⟨p, content⟩ →
    w'.files d name = some ⟨p, content⟩
  claims : ∀ i, (w.files controlDir (claimName i)).isSome = true →
    (w'.files controlDir (claimName i)).isSome = true
  clock : w.clock ≤ w'.clock

theorem rely_refl (p : P) (w : World P) : Rely controlDir p w w :=
  ⟨rfl, fun _ _ _ h => h, fun _ h => h, UInt64.le_refl _⟩

def discipline : Discipline (World P) P where
  Inv := Inv kernel inputs dir controlDir
  Rely := Rely controlDir
  refl := rely_refl controlDir
  trans h h' := ⟨h'.memory.trans h.memory, fun d name content hf =>
    h'.own d name content (h.own d name content hf), fun i hi => h'.claims i (h.claims i hi),
    UInt64.le_trans h.clock h'.clock⟩

/-- A program of the process `p` among the others. -/
abbrev Holds [DecidableEq P] (p : P) {α : Type} (Pre : World P → Prop)
    (x : Program α) (Post : α → World P → Prop) : Prop :=
  Triple (exec kernel) (discipline kernel inputs dir controlDir) p Pre x Post

/-- What the other processes leave true. -/
abbrev Kept (p : P) (Pre : World P → Prop) : Prop :=
  Stable (discipline kernel inputs dir controlDir) p Pre

end

section
variable {kernel : Kernel P} {inputs : P → Config × List Call} {dir controlDir : Str} {p : P}
  {w : World P}

theorem one_holder (h : Inv kernel inputs dir controlDir w) {q : P} (hp : (w.memory p).claimed = true)
    (hq : (w.memory q).claimed = true) (heq : (w.memory p).jobIndex = (w.memory q).jobIndex) :
    p = q := by
  obtain ⟨i, c, hi, hfile⟩ := h.held p hp
  obtain ⟨j, c', hj, hfile'⟩ := h.held q hq
  obtain rfl : i = j := by
    rw [hi, hj] at heq
    exact Int.ofNat.inj heq
  rw [hfile] at hfile'
  cases hfile'
  rfl

/-! ## What one step does -/

@[simp] theorem files_setFile (w : World P) (d d' name name' : Str) (f : Option (File P)) :
    (w.setFile d name f).files d' name' = if d' = d ∧ name' = name then f else w.files d' name' :=
  rfl

@[simp] theorem memory_setFile (w : World P) (d name : Str) (f : Option (File P)) :
    (w.setFile d name f).memory = w.memory := rfl

@[simp] theorem files_setMemory [DecidableEq P] (w : World P) (p : P) (s : State) :
    (w.setMemory p s).files = w.files := rfl

@[simp] theorem memory_setMemory [DecidableEq P] (w : World P) (p : P) (s : State) :
    (w.setMemory p s).memory = Function.update w.memory p s := rfl

theorem memory_setMemory_self [DecidableEq P] (w : World P) (p : P) (s : State) :
    (w.setMemory p s).memory p = s := by
  rw [memory_setMemory, Function.update_self]

/-- A change of a file that is not there or one's own is nothing others rely on, unless a claim
goes. -/
theorem rely_setFile {d name : Str} {f : Option (File P)}
    (hown : ∀ g, w.files d name = some g → g.creator = p)
    (hclaim : ∀ i, name = claimName i → f.isSome = true) (q : P) (hq : q ≠ p) :
    Rely controlDir q w (w.setFile d name f) := by
  refine ⟨rfl, fun d' name' content hf => ?_, fun i hi => ?_, UInt64.le_refl _⟩
  · rw [files_setFile, if_neg]
    · exact hf
    · rintro ⟨rfl, rfl⟩
      exact hq (hown _ hf)
  · rw [files_setFile]
    by_cases h : controlDir = d ∧ claimName i = name
    · rw [if_pos h]
      exact hclaim i h.2.symm
    · rw [if_neg h]
      exact hi

/-- A file that is no claim and no document. -/
theorem Inv.setTemporary (h : Inv kernel inputs dir controlDir w) {d name : Str} (hname : Temporary name)
    (f : Option (File P)) : Inv kernel inputs dir controlDir (w.setFile d name f) := by
  have hclaim : ∀ i, (w.setFile d name f).files controlDir (claimName i) =
      w.files controlDir (claimName i) := by
    intro i
    rw [files_setFile, if_neg (fun hc => hname.claim i hc.2.symm)]
  refine ⟨?_, fun p hp => ?_, fun n g hg => ?_⟩
  · intro hcreate
    obtain ⟨k, hk⟩ := h.segment hcreate
    exact ⟨k, fun i => by rw [hclaim, hk i]⟩
  · obtain ⟨i, content, hi, hfile⟩ := h.held p hp
    exact ⟨i, content, hi, (hclaim i).trans hfile⟩
  · rw [files_setFile, if_neg (fun hc => hname.document n hc.2.symm)] at hg
    exact h.documents n g hg

/-- More in one's claim. -/
theorem Inv.setClaim (h : Inv kernel inputs dir controlDir w) {i : Nat} {content content' : Str}
    (hfile : w.files controlDir (claimName i) = some ⟨p, content⟩) :
    Inv kernel inputs dir controlDir (w.setFile controlDir (claimName i) (some ⟨p, content'⟩)) := by
  refine ⟨?_, fun q hq => ?_, fun n g hg => ?_⟩
  · intro hcreate
    obtain ⟨k, hk⟩ := h.segment hcreate
    refine ⟨k, fun j => ?_⟩
    rw [files_setFile]
    by_cases hji : claimName j = claimName i
    · rw [if_pos ⟨rfl, hji⟩, ← hk j, hji, hfile]
      exact Iff.rfl
    · rw [if_neg (fun hc => hji hc.2)]
      exact hk j
  · obtain ⟨j, c, hj, hheld⟩ := h.held q hq
    by_cases hji : j = i
    · obtain rfl := hji
      rw [hfile] at hheld
      cases hheld
      exact ⟨j, content', hj, by simp⟩
    · refine ⟨j, c, hj, ?_⟩
      rw [files_setFile, if_neg (fun hc => hji (claimName_inj hc.2))]
      exact hheld
  · rw [files_setFile, if_neg (fun hc => claimName_ne_documentName i n hc.2.symm)] at hg
    exact h.documents n g hg

/-- A new claim, where all before it are there. -/
theorem Inv.newClaim (h : Inv kernel inputs dir controlDir w) {i : Nat}
    (hbefore : ClaimedBefore kernel controlDir i w)
    (hnone : w.files controlDir (claimName i) = none) (f : File P) :
    Inv kernel inputs dir controlDir (w.setFile controlDir (claimName i) (some f)) := by
  refine ⟨?_, fun q hq => ?_, fun n g hg => ?_⟩
  · intro hcreate
    obtain ⟨k, hk⟩ := h.segment hcreate
    have hki : k = i := by
      have hle : ¬ i < k := by
        intro hlt
        have := (hk i).2 hlt
        rw [hnone] at this
        cases this
      rcases Nat.lt_or_ge k i with hlt | hge
      · exact absurd ((hk k).1 (hbefore hcreate k hlt)) (Nat.lt_irrefl k)
      · omega
    refine ⟨k + 1, fun j => ?_⟩
    rw [files_setFile]
    by_cases hji : claimName j = claimName i
    · rw [if_pos ⟨rfl, hji⟩, claimName_inj hji]
      simp [hki]
    · have hne : j ≠ i := fun hc => hji (by rw [hc])
      rw [if_neg (fun hc => hji hc.2), hk j]
      omega
  · obtain ⟨j, c, hj, hheld⟩ := h.held q hq
    refine ⟨j, c, hj, ?_⟩
    rw [files_setFile, if_neg]
    · exact hheld
    · intro hc
      rw [hc.2, hnone] at hheld
      cases hheld
  · rw [files_setFile, if_neg (fun hc => claimName_ne_documentName i n hc.2.symm)] at hg
    exact h.documents n g hg

/-- A document of the process that holds the job, in the place of the one before. -/
theorem Inv.setDocument (h : Inv kernel inputs dir controlDir w) {n : Nat} {f : File P}
    (hf : Published inputs w n f) :
    Inv kernel inputs dir controlDir (w.setFile dir (documentName n) (some f)) := by
  have hclaim : ∀ i, (w.setFile dir (documentName n) (some f)).files controlDir (claimName i) =
      w.files controlDir (claimName i) := by
    intro i
    rw [files_setFile, if_neg (fun hc => claimName_ne_documentName i n hc.2)]
  refine ⟨?_, fun q hq => ?_, fun m g hg => ?_⟩
  · intro hcreate
    obtain ⟨k, hk⟩ := h.segment hcreate
    exact ⟨k, fun i => by rw [hclaim, hk i]⟩
  · obtain ⟨i, content, hi, hheld⟩ := h.held q hq
    exact ⟨i, content, hi, (hclaim i).trans hheld⟩
  · rw [files_setFile] at hg
    by_cases hm : documentName m = documentName n
    · rw [if_pos ⟨rfl, hm⟩] at hg
      cases hg
      rw [documentName_inj hm]
      exact hf
    · rw [if_neg (fun hc => hm hc.2)] at hg
      exact h.documents m g hg

/-- A change of the memory of a process that keeps its job. -/
theorem Inv.setMemory [DecidableEq P] (h : Inv kernel inputs dir controlDir w) {s : State}
    (hclaimed : s.claimed = (w.memory p).claimed)
    (hjob : s.claimed = true → s.jobIndex = (w.memory p).jobIndex) :
    Inv kernel inputs dir controlDir (w.setMemory p s) := by
  have hsame : ∀ q, (Function.update w.memory p s q).claimed = (w.memory q).claimed ∧
      ((w.memory q).claimed = true →
        (Function.update w.memory p s q).jobIndex = (w.memory q).jobIndex) := by
    intro q
    by_cases hq : q = p
    · rw [hq, Function.update_self, hclaimed]
      exact ⟨rfl, fun hc => hjob (hclaimed.trans hc)⟩
    · rw [Function.update_of_ne hq]
      exact ⟨rfl, fun _ => rfl⟩
  refine ⟨h.segment, fun q hq => ?_, fun n f hf => ?_⟩
  · rw [memory_setMemory] at hq ⊢
    have hclaim := (hsame q).1.symm.trans hq
    obtain ⟨i, content, hi, hfile⟩ := h.held q hclaim
    exact ⟨i, content, ((hsame q).2 hclaim).trans hi, hfile⟩
  · obtain ⟨hclaim, hindex, hdoc⟩ := h.documents n f hf
    refine ⟨?_, ?_, hdoc⟩
    · rw [memory_setMemory, (hsame f.creator).1]
      exact hclaim
    · rw [memory_setMemory, (hsame f.creator).2 hclaim]
      exact hindex

/-- A process takes the job it has claimed. -/
theorem Inv.takeJob [DecidableEq P] (h : Inv kernel inputs dir controlDir w) {i : Nat} {content : Str}
    {s : State} (hfree : (w.memory p).claimed = false) (hi : s.jobIndex = i)
    (hfile : w.files controlDir (claimName i) = some ⟨p, content⟩) :
    Inv kernel inputs dir controlDir (w.setMemory p s) := by
  refine ⟨h.segment, fun q hq => ?_, fun n f hf => ?_⟩
  · rw [memory_setMemory] at hq ⊢
    by_cases hqp : q = p
    · obtain rfl := hqp
      rw [Function.update_self]
      exact ⟨i, content, hi, hfile⟩
    · rw [Function.update_of_ne hqp] at hq ⊢
      exact h.held q hq
  · obtain ⟨hclaim, hindex, hdoc⟩ := h.documents n f hf
    have hne : f.creator ≠ p := by
      intro hc
      rw [hc, hfree] at hclaim
      cases hclaim
    refine ⟨?_, ?_, hdoc⟩
    · rw [memory_setMemory, Function.update_of_ne hne]
      exact hclaim
    · rw [memory_setMemory, Function.update_of_ne hne]
      exact hindex

theorem rely_setMemory [DecidableEq P] {s : State} (q : P) (hq : q ≠ p) :
    Rely controlDir q w (w.setMemory p s) :=
  ⟨Function.update_of_ne hq _ _, fun _ _ _ h => h, fun _ h => h, UInt64.le_refl _⟩

/-! ## What the calls do -/

theorem kept_own (d name content : Str) :
    Kept kernel inputs dir controlDir p fun w => w.files d name = some ⟨p, content⟩ :=
  fun _ _ hrely _ h => hrely.own d name content h

theorem kept_before (index : Nat) :
    Kept kernel inputs dir controlDir p (ClaimedBefore kernel controlDir index) :=
  fun _ _ hrely _ h hcreate j hj => hrely.claims j (h hcreate j hj)

/-- What the memory of a process is, configured before now. -/
structure At (p : P) (s : State) (w : World P) : Prop where
  memory : w.memory p = s
  clock : s.startedNs ≤ w.clock

theorem At.setFile {s : State} (h : At p s w) (d name : Str) (f : Option (File P)) :
    At p s (w.setFile d name f) := ⟨h.memory, h.clock⟩

theorem kept_at (s : State) : Kept kernel inputs dir controlDir p (At p s) :=
  fun _ _ hrely _ h => ⟨hrely.memory.trans h.memory, UInt64.le_trans h.clock hrely.clock⟩

theorem kept_clock (now : UInt64) : Kept kernel inputs dir controlDir p fun w => now ≤ w.clock :=
  fun _ _ hrely _ h => UInt64.le_trans h hrely.clock

/-- What a process has counted, where it is configured. -/
def Counting (config : Config) (done : List Call) (p : P) (w : World P) : Prop :=
  ∃ s, At p s w ∧ (s.configured = true → Ready config done s)

theorem kept_counting (config : Config) (done : List Call) :
    Kept kernel inputs dir controlDir p (Counting config done p) :=
  .exists fun s => (kept_at s).and (.const _)

/-- A state with a job. -/
def State.withJob (s : State) (jobIndex : Int) : State := { s with jobIndex, claimed := true }

/-- A claim that succeeds has a job; else nothing changes. -/
def AfterClaim (p : P) (s : State) (ok : Bool) (w : World P) : Prop :=
  ∃ s', At p s' w ∧ (s' = s ∧ ok = false ∨ ∃ jobIndex, s' = s.withJob jobIndex)

variable [DecidableEq P]

/-! ## Under any discipline -/

section
variable {D : Discipline (World P) P} {Pre : World P → Prop}

section
variable (hpre : Stable D p Pre)
include hpre

theorem ask_holds (q : Query) : Triple (exec kernel) D p Pre (ask q) fun _ => Pre :=
  .silent hpre fun _ _ _ h => h

theorem getpid_holds : Triple (exec kernel) D p Pre getpid fun _ => Pre :=
  .silent hpre fun _ _ _ h => h.2

theorem load_holds {s : State} (hmem : ∀ w, Pre w → w.memory p = s) :
    Triple (exec kernel) D p Pre load fun s' w => Pre w ∧ s' = s := by
  refine .perform hpre (fun s' => hpre.and (.const _)) ?_
  intro w hinv hw s' w' hexec
  obtain ⟨rfl, rfl⟩ := hexec
  exact ⟨hinv, fun q _ => D.refl q _, hw, hmem _ hw⟩

theorem andAlso_holds (a : Bool) (q : Query) :
    Triple (exec kernel) D p Pre (andAlso a (ask q)) fun ok w => Pre w ∧ (ok = true → a = true) := by
  refine .ite (fun ha => ?_) fun _ => ?_
  · exact (ask_holds hpre q).mono (fun _ _ h => h) fun _ _ _ h => ⟨h, fun _ => ha⟩
  · exact .pure hpre fun _ _ h => ⟨h, nofun⟩

theorem mkdirIfNeeded_holds (d : Str) :
    Triple (exec kernel) D p Pre (mkdirIfNeeded d) fun _ => Pre := by
  refine .bind (ask_holds hpre _) fun _ => .ite (fun _ => ?_) fun _ => ask_holds hpre _
  exact .pure hpre fun _ _ h => h

end

/-- A short write is followed by another: in the end all is there, or the call has failed. -/
theorem writeAll_holds {d name : Str}
    (hkept : ∀ content, Stable D p fun w => Pre w ∧ w.files d name = some ⟨p, content⟩)
    (hwrite : ∀ content data, Triple (exec kernel) D p
      (fun w => Pre w ∧ w.files d name = some ⟨p, content⟩) (write d name data) fun n w =>
        Pre w ∧ w.files d name = some ⟨p, content ++ data.take n⟩) (content data : Str) :
    Triple (exec kernel) D p (fun w => Pre w ∧ w.files d name = some ⟨p, content⟩)
      (writeAll d name data) fun ok w => Pre w ∧
        ∃ written, w.files d name = some ⟨p, written⟩ ∧
          (ok = true → written = content ++ data) := by
  induction hlen : data.length using Nat.strong_induction_on generalizing content data with
  | _ len ih =>
    rw [writeAll]
    by_cases hdata : data = []
    · rw [dif_pos hdata]
      refine .pure (hkept content) fun w _ h => ⟨h.1, content, h.2, fun _ => ?_⟩
      rw [hdata, List.append_nil]
    · rw [dif_neg hdata]
      refine .bind (hwrite content data) fun n => ?_
      by_cases hn : n = 0
      · rw [dif_pos hn]
        exact .pure (hkept _) fun w _ h => ⟨h.1, _, h.2, nofun⟩
      · rw [dif_neg hn]
        have hpos := List.length_pos_iff.2 hdata
        have hshorter : (data.drop n).length < len := by
          rw [List.length_drop]
          omega
        refine (ih _ hshorter (content ++ data.take n) (data.drop n) rfl).mono (fun _ _ h => h) ?_
        intro ok w _ h
        obtain ⟨hat, written, hfile, hall⟩ := h
        refine ⟨hat, written, hfile, fun hok => ?_⟩
        rw [hall hok, List.append_assoc, List.take_append_drop]

end

/-! ## The claim -/

theorem monotonicNs_holds (s : State) :
    Holds kernel inputs dir controlDir p (At p s) monotonicNs fun now w =>
      (At p s w ∧ now ≤ w.clock) ∧ s.startedNs ≤ now := by
  refine .perform (kept_at s) (fun _ => ((kept_at s).and (kept_clock _)).and (.const _)) ?_
  intro w hinv hpre now w' hexec
  obtain ⟨hnow, rfl⟩ := hexec
  have hlater : s.startedNs ≤ now := UInt64.le_trans hpre.clock hnow
  exact ⟨⟨hinv.segment, hinv.held, hinv.documents⟩,
    fun q _ => ⟨rfl, fun _ _ _ h => h, fun _ h => h, hnow⟩,
    ⟨⟨hpre.memory, hlater⟩, UInt64.le_refl _⟩, hlater⟩

theorem store_holds {s : State} (s' : State) (hclaimed : s'.claimed = s.claimed)
    (hjob : s'.claimed = true → s'.jobIndex = s.jobIndex) :
    Holds kernel inputs dir controlDir p (fun w => At p s w ∧ s'.startedNs ≤ w.clock) (store s')
      fun _ => At p s' := by
  refine .perform ((kept_at s).and (kept_clock _)) (fun _ => kept_at s') ?_
  intro w hinv hpre _ w' hexec
  obtain rfl := hexec
  have hmem := hpre.1.memory
  refine ⟨hinv.setMemory ?_ ?_, rely_setMemory, memory_setMemory_self w p s', hpre.2⟩
  · rw [hmem, hclaimed]
  · rw [hmem]
    exact hjob

section
variable (s : State) (index : Nat)

theorem create_claim_holds :
    Holds kernel inputs dir controlDir p
      (fun w => At p s w ∧ ClaimedBefore kernel controlDir index w)
      (create controlDir (claimName index)) fun ok w => At p s w ∧
        (ok = true → w.files controlDir (claimName index) = some ⟨p, []⟩) ∧
        (ok = false → ClaimedBefore kernel controlDir (index + 1) w) := by
  refine .perform ((kept_at s).and (kept_before index))
    (fun _ => (kept_at s).and ((kept_own _ _ _).given.and (kept_before _).given)) ?_
  intro w hinv hpre ok w' hexec
  obtain ⟨hat, hbefore⟩ := hpre
  cases hfile : w.files controlDir (claimName index) with
  | some f =>
    simp only [exec, hfile] at hexec
    obtain ⟨rfl, rfl⟩ := hexec
    refine ⟨hinv, fun q _ => rely_refl controlDir q _, hat, nofun, fun _ hcreate j hj => ?_⟩
    rcases Nat.lt_succ_iff_lt_or_eq.1 hj with hj | hj
    · exact hbefore hcreate j hj
    · rw [hj, hfile]
      rfl
  | none =>
    simp only [exec, hfile] at hexec
    rcases hexec with ⟨rfl, rfl⟩ | ⟨hmay, rfl, rfl⟩
    · refine ⟨hinv.newClaim hbefore hfile _, rely_setFile ?_ fun _ _ => rfl, hat.setFile _ _ _,
        fun _ => ?_, nofun⟩
      · intro g hg
        rw [hfile] at hg
        cases hg
      · simp
    · refine ⟨hinv, fun q _ => rely_refl controlDir q _, hat, nofun, fun _ hcreate => ?_⟩
      rw [hcreate] at hmay
      cases hmay

theorem write_claim_holds (content data : Str) :
    Holds kernel inputs dir controlDir p
      (fun w => At p s w ∧ w.files controlDir (claimName index) = some ⟨p, content⟩)
      (write controlDir (claimName index) data) fun _ w => At p s w ∧
        ∃ content, w.files controlDir (claimName index) = some ⟨p, content⟩ := by
  refine .perform ((kept_at s).and (kept_own _ _ _))
    (fun _ => (kept_at s).and (.exists fun _ => kept_own _ _ _)) ?_
  intro w hinv hpre n w' hexec
  obtain ⟨hat, hfile⟩ := hpre
  simp only [exec, hfile] at hexec
  obtain ⟨-, rfl⟩ := hexec
  refine ⟨hinv.setClaim hfile, rely_setFile ?_ fun _ _ => rfl, hat.setFile _ _ _,
    content ++ data.take n, by simp⟩
  intro g hg
  rw [hfile] at hg
  cases hg
  rfl

/-- The job is taken. -/
theorem store_claim_holds (hfree : s.claimed = false) {s' : State} (hjob : s'.jobIndex = index)
    (hstarted : s'.startedNs = s.startedNs) :
    Holds kernel inputs dir controlDir p
      (fun w => At p s w ∧
        ∃ content, w.files controlDir (claimName index) = some ⟨p, content⟩)
      (store s') fun _ => At p s' := by
  refine .perform ((kept_at s).and (.exists fun _ => kept_own _ _ _)) (fun _ => kept_at s') ?_
  intro w hinv hpre _ w' hexec
  obtain ⟨hat, content, hfile⟩ := hpre
  obtain rfl := hexec
  refine ⟨hinv.takeJob ?_ hjob hfile, rely_setMemory, memory_setMemory_self w p s', ?_⟩
  · rw [hat.memory]
    exact hfree
  · rw [hstarted]
    exact hat.clock

end

section
variable (s : State)

theorem claimFrom_holds (hfree : s.claimed = false) (left index : Nat) :
    Holds kernel inputs dir controlDir p
      (fun w => At p s w ∧ ClaimedBefore kernel controlDir index w)
      (claimFrom controlDir left index) (AfterClaim p s) := by
  induction left generalizing index with
  | zero =>
    exact .pure ((kept_at s).and (kept_before index)) fun w _ h => ⟨s, h.1, .inl ⟨rfl, rfl⟩⟩
  | succ left ih =>
    unfold claimFrom
    refine .bind (create_claim_holds s index) fun ok => .ite (fun hok => ?_) fun hok => ?_
    · have hfalse : ok = false := by simpa using hok
      exact (ih (index + 1)).mono (fun w _ h => ⟨h.1, h.2.2 hfalse⟩) fun _ _ _ h => h
    · have htrue : ok = true := by simpa using hok
      have hkept : Kept kernel inputs dir controlDir p fun w => At p s w ∧
          ∃ content, w.files controlDir (claimName index) = some ⟨p, content⟩ :=
        (kept_at s).and (.exists fun _ => kept_own _ _ _)
      refine .bind ((getpid_holds ((kept_at s).and (kept_own _ _ []))).mono
        (fun w _ h => ⟨h.1, h.2.1 htrue⟩) fun _ _ _ h => h) fun n => ?_
      refine .bind (write_claim_holds s index [] _) fun n => ?_
      refine .bind (andAlso_holds hkept _ _) fun ok => .given fun _ => ?_
      refine .bind (ask_holds hkept _) fun closed => .ite (fun _ => ?_) fun _ => ?_
      · exact .pure hkept fun w _ h => ⟨s, h.1, .inl ⟨rfl, rfl⟩⟩
      · refine .bind (load_holds hkept fun _ h => h.1.memory) fun s' => .given fun hs' => ?_
        subst hs'
        refine .bind (store_claim_holds s' index hfree ?_ ?_) fun _ => ?_
        · rfl
        · rfl
        · exact .pure (kept_at _) fun w _ h => ⟨_, h, .inr ⟨index, rfl⟩⟩

theorem claimJob_holds (hdir : s.configured = true → s.controlDir = controlDir) :
    Holds kernel inputs dir controlDir p (At p s) claimJob fun ok w =>
      AfterClaim p s ok w ∧ (ok = true → s.configured = true) := by
  have hsame : ∀ w : World P, At p s w → AfterClaim p s false w ∧
      (false = true → s.configured = true) := fun w hw => ⟨⟨s, hw, .inl ⟨rfl, rfl⟩⟩, nofun⟩
  unfold claimJob
  refine .bind (load_holds (kept_at s) fun _ h => h.memory) fun s' => .given fun hs' => ?_
  subst hs'
  refine .ite (fun _ => .pure (kept_at s') fun w _ h => hsame w h) fun hconf => ?_
  have hconf : s'.configured = true := by simpa using hconf
  refine .ite (fun hclaimed => ?_) fun hfree => ?_
  · refine .pure (kept_at s') fun w _ h => ⟨⟨s', h, .inr ⟨s'.jobIndex, ?_⟩⟩, fun _ => hconf⟩
    unfold State.withJob
    rw [← hclaimed]
  refine .bind (mkdirIfNeeded_holds (kept_at s') _) fun ok => .ite (fun _ => ?_) fun _ => ?_
  · exact .pure (kept_at s') fun w _ h => hsame w h
  refine .bind (mkdirIfNeeded_holds (kept_at s') _) fun ok => .ite (fun _ => ?_) fun _ => ?_
  · exact .pure (kept_at s') fun w _ h => hsame w h
  rw [hdir hconf]
  exact (claimFrom_holds s' (by simpa using hfree) _ 0).mono
    (fun w _ h => ⟨h, fun _ j hj => absurd hj (Nat.not_lt_zero j)⟩) fun ok w _ h => ⟨h, fun _ => hconf⟩

end

/-! ## Publishing -/

section
variable {s : State} {name : Str} (hname : Temporary name)
include hname

theorem create_temporary_holds :
    Holds kernel inputs dir controlDir p (At p s) (create dir name) fun ok w =>
      At p s w ∧ (ok = true → w.files dir name = some ⟨p, []⟩) := by
  refine .perform (kept_at s) (fun _ => (kept_at s).and (kept_own _ _ _).given) ?_
  intro w hinv hat ok w' hexec
  cases hfile : w.files dir name with
  | some f =>
    simp only [exec, hfile] at hexec
    obtain ⟨rfl, rfl⟩ := hexec
    exact ⟨hinv, fun q _ => rely_refl controlDir q _, hat, nofun⟩
  | none =>
    simp only [exec, hfile] at hexec
    rcases hexec with ⟨rfl, rfl⟩ | ⟨-, rfl, rfl⟩
    · refine ⟨hinv.setTemporary hname _, rely_setFile ?_ fun _ _ => rfl, hat.setFile _ _ _,
        fun _ => by simp⟩
      intro g hg
      rw [hfile] at hg
      cases hg
    · exact ⟨hinv, fun q _ => rely_refl controlDir q _, hat, nofun⟩

theorem write_temporary_holds (content data : Str) :
    Holds kernel inputs dir controlDir p
      (fun w => At p s w ∧ w.files dir name = some ⟨p, content⟩)
      (write dir name data) fun n w => At p s w ∧
        w.files dir name = some ⟨p, content ++ data.take n⟩ := by
  refine .perform ((kept_at s).and (kept_own _ _ _)) (fun _ => (kept_at s).and (kept_own _ _ _)) ?_
  intro w hinv hpre n w' hexec
  obtain ⟨hat, hfile⟩ := hpre
  simp only [exec, hfile] at hexec
  obtain ⟨-, rfl⟩ := hexec
  refine ⟨hinv.setTemporary hname _, rely_setFile ?_ fun _ _ => rfl, hat.setFile _ _ _, by simp⟩
  intro g hg
  rw [hfile] at hg
  cases hg
  rfl

theorem unlink_temporary_holds :
    Holds kernel inputs dir controlDir p
      (fun w => At p s w ∧ ∃ content, w.files dir name = some ⟨p, content⟩)
      (unlink dir name) fun _ => At p s := by
  refine .perform ((kept_at s).and (.exists fun _ => kept_own _ _ _)) (fun _ => kept_at s) ?_
  intro w hinv hpre _ w' hexec
  obtain ⟨hat, content, hfile⟩ := hpre
  rcases hexec with rfl | rfl
  · exact ⟨hinv, fun q _ => rely_refl controlDir q _, hat⟩
  · refine ⟨hinv.setTemporary hname _, rely_setFile ?_ ?_, hat.setFile _ _ _⟩
    · intro g hg
      rw [hfile] at hg
      cases hg
      rfl
    · exact fun i hi => absurd hi (hname.claim i)

/-- The rename puts a whole document in the place of the one before. -/
theorem rename_holds {n : Nat} (hclaimed : s.claimed = true) (hjob : s.jobIndex = n)
    (hready : Ready (inputs p).1 (inputs p).2 s) {now : UInt64} (hnow : s.startedNs ≤ now) :
    Holds kernel inputs dir controlDir p
      (fun w => At p s w ∧ w.files dir name = some ⟨p, (s.document now).render⟩)
      (rename dir name (documentName n)) fun ok w => At p s w ∧
        (ok = false → w.files dir name = some ⟨p, (s.document now).render⟩) := by
  refine .perform ((kept_at s).and (kept_own _ _ _))
    (fun _ => (kept_at s).and (kept_own _ _ _).given) ?_
  intro w hinv hpre ok w' hexec
  obtain ⟨hat, hfile⟩ := hpre
  simp only [exec, hfile] at hexec
  rcases hexec with ⟨rfl, rfl⟩ | ⟨rfl, rfl⟩
  · exact ⟨hinv, fun q _ => rely_refl controlDir q _, hat, fun _ => hfile⟩
  · have hmem := hat.memory
    have hmine : ∀ g, w.files dir (documentName n) = some g → g.creator = p := by
      intro g hg
      obtain ⟨hc, hi, -⟩ := hinv.documents n g hg
      exact one_holder hinv hc (by rw [hmem, hclaimed]) (by rw [hi, hmem, hjob])
    have hpublished : Published inputs w n ⟨p, (s.document now).render⟩ :=
      ⟨by rw [hmem, hclaimed], by rw [hmem, hjob], s, now, rfl, hjob, hready, hnow⟩
    have hmoved := (hinv.setDocument hpublished).setTemporary (d := dir) hname none
    refine ⟨⟨hmoved.segment, hmoved.held, hmoved.documents⟩, fun q hq => ?_, ⟨hmem, hat.clock⟩,
      nofun⟩
    have hfirst : Rely controlDir q w (w.setFile dir (documentName n)
        (some ⟨p, (s.document now).render⟩)) := rely_setFile hmine (fun _ _ => rfl) q hq
    have hsecond : Rely controlDir q (w.setFile dir (documentName n)
        (some ⟨p, (s.document now).render⟩)) ((w.setFile dir (documentName n)
          (some ⟨p, (s.document now).render⟩)).setFile dir name none) := by
      refine rely_setFile (fun g hg => ?_) (fun i hi => absurd hi (hname.claim i)) q hq
      rw [files_setFile, if_neg (fun hc => hname.document _ hc.2), hfile] at hg
      cases hg
      rfl
    exact ⟨hsecond.memory.trans hfirst.memory, fun d name content h =>
      hsecond.own d name content (hfirst.own d name content h),
      fun i hi => hsecond.claims i (hfirst.claims i hi), UInt64.le_refl _⟩

end

theorem atomicPublish_holds {s : State} {n : Nat} (hclaimed : s.claimed = true)
    (hjob : s.jobIndex = n) (hready : Ready (inputs p).1 (inputs p).2 s) {now : UInt64}
    (hnow : s.startedNs ≤ now) :
    Holds kernel inputs dir controlDir p (At p s)
      (atomicPublish dir (documentName n) (s.document now).render) fun _ => At p s := by
  unfold atomicPublish
  refine .bind (getpid_holds (kept_at s)) fun k => ?_
  have hname := temporary_temporaryName n k
  refine .bind (create_temporary_holds hname) fun ok => .ite (fun _ => ?_) fun hok => ?_
  · exact .pure ((kept_at s).and (kept_own _ _ _).given) fun w _ h => h.1
  have hok : ok = true := by simpa using hok
  refine .bind ((writeAll_holds (fun _ => (kept_at s).and (kept_own _ _ _))
    (write_temporary_holds hname) [] _).mono (fun w _ h => ⟨h.1, h.2 hok⟩)
    fun _ _ _ h => h) fun wrote => ?_
  have hkept : Kept kernel inputs dir controlDir p fun w => At p s w ∧ ∃ written,
      w.files dir (temporaryName (documentName n) k) = some ⟨p, written⟩ ∧
        (wrote = true → written = [] ++ (s.document now).render) :=
    (kept_at s).and (.exists fun _ => (kept_own _ _ _).and (.const _))
  -- on any failure the temporary file goes, as far as it can
  refine .bind (andAlso_holds hkept _ _) fun ok => .given fun hwrote => ?_
  refine .bind (ask_holds hkept _) fun closed => .ite (fun _ => ?_) fun hall => ?_
  · refine .bind ((unlink_temporary_holds hname).mono (fun w _ h => ?_) fun _ _ _ h => h)
      fun _ => .pure (kept_at s) fun _ _ h => h
    obtain ⟨hat, written, hfile, -⟩ := h
    exact ⟨hat, written, hfile⟩
  have hwhole : wrote = true := hwrote (by simpa using (not_or.1 hall).1)
  refine .bind ((rename_holds hname hclaimed hjob hready hnow).mono (fun w _ h => ?_)
    fun _ _ _ h => h) fun moved => .ite (fun hmoved => ?_) fun _ => ?_
  · obtain ⟨hat, written, hfile, hw⟩ := h
    have hdoc : written = (s.document now).render := hw hwhole
    exact ⟨hat, hdoc ▸ hfile⟩
  · refine .bind ((unlink_temporary_holds hname).mono (fun w _ h => ?_) fun _ _ _ h => h)
      fun _ => .pure (kept_at s) fun _ _ h => h
    exact ⟨h.1, _, h.2 (by simpa using hmoved)⟩
  have hlast : Kept kernel inputs dir controlDir p fun w => At p s w ∧ (moved = false →
      w.files dir (temporaryName (documentName n) k) = some ⟨p, (s.document now).render⟩) :=
    (kept_at s).and (kept_own _ _ _).given
  refine .bind (ask_holds hlast _) fun opened => .ite (fun _ => ?_) fun _ => ?_
  · exact .pure hlast fun _ _ h => h.1
  refine .bind (ask_holds hlast _) fun synced => .bind (ask_holds hlast _) fun closed => ?_
  exact .pure hlast fun _ _ h => h.1

section
variable {s : State} {done : List Call}
  (hdir : (inputs p).1.dir = some dir) (hdone : done.Sublist (inputs p).2)
include hdir hdone

theorem publish_holds (hready : s.configured = true → Ready (inputs p).1 done s) :
    Holds kernel inputs dir controlDir p (At p s) publish fun _ => At p s := by
  unfold publish
  refine .bind (load_holds (kept_at s) fun _ h => h.memory) fun s' => .given fun hs' => ?_
  subst hs'
  refine .ite (fun _ => .pure (kept_at s') fun _ _ h => h) fun hboth => ?_
  have hconf : s'.configured = true := by simpa using (not_or.1 hboth).1
  have hclaimed : s'.claimed = true := by simpa using (not_or.1 hboth).2
  have hmade := hready hconf
  have hsame : s'.dir = dir := Option.some.inj (hmade.sets.dir.symm.trans hdir)
  refine .bind (monotonicNs_holds s') fun now => .given fun hnow => ?_
  intro w hinv hw
  obtain ⟨n, content, hjob, -⟩ := hinv.held p (by rw [hw.1.memory, hclaimed])
  rw [hw.1.memory] at hjob
  rw [hjob, hsame]
  exact atomicPublish_holds hclaimed hjob (hmade.mono hdone) hnow w hinv hw.1

/-- Counters that are stored are published. -/
theorem store_publish_holds {s' : State} (hclaimed : s'.claimed = s.claimed)
    (hjob : s'.jobIndex = s.jobIndex) (hstarted : s'.startedNs = s.startedNs)
    (hready : Ready (inputs p).1 done s') :
    Holds kernel inputs dir controlDir p (At p s) (do store s'; publish) fun _ =>
      Counting (inputs p).1 done p := by
  refine .bind ((store_holds s' hclaimed fun _ => hjob).mono (fun w _ h => ⟨h, ?_⟩)
    fun _ _ _ h => h) fun _ => ?_
  · rw [hstarted]
    exact h.clock
  · exact (publish_holds hdir hdone fun _ => hready).mono (fun _ _ h => h)
      fun _ w _ hw => ⟨s', hw, fun _ => hready⟩

end

/-- Counters that are stored, and the call fails. -/
theorem store_fail_holds {s s' : State} {done : List Call} (hclaimed : s'.claimed = s.claimed)
    (hjob : s'.jobIndex = s.jobIndex) (hstarted : s'.startedNs = s.startedNs)
    (hready : Ready (inputs p).1 done s') :
    Holds kernel inputs dir controlDir p (At p s) (do store s'; return false) fun _ =>
      Counting (inputs p).1 done p := by
  refine .bind ((store_holds s' hclaimed fun _ => hjob).mono (fun w _ h => ⟨h, ?_⟩)
    fun _ _ _ h => h) fun _ => .pure (kept_at s') fun w _ hat => ⟨s', hat, fun _ => hready⟩
  rw [hstarted]
  exact h.clock

/-! ## Recording -/

section
variable (hdir : (inputs p).1.dir = some dir)
  (hcontrol : (inputs p).1.controlDir = some controlDir) {done : List Call}
include hcontrol

theorem claimJob_counting :
    Holds kernel inputs dir controlDir p (Counting (inputs p).1 done p) claimJob fun ok w =>
      ∃ s, At p s w ∧ (s.configured = true → Ready (inputs p).1 done s) ∧
        (ok = true → s.configured = true) := by
  refine .exists fun s => .given fun hready => ?_
  refine (claimJob_holds s fun hconf => ?_).mono (fun _ _ h => h) fun ok w _ h => ?_
  · exact Option.some.inj ((hready hconf).sets.controlDir.symm.trans hcontrol)
  · obtain ⟨⟨s', hat, ⟨rfl, rfl⟩ | ⟨jobIndex, rfl⟩⟩, hconf⟩ := h
    · exact ⟨s', hat, hready, hconf⟩
    · refine ⟨s.withJob jobIndex, hat, fun hc => ?_, hconf⟩
      have hsets := (hready hc).sets
      exact ⟨⟨hsets.dir, hsets.controlDir, hsets.paths, hsets.buildId, hsets.compiler,
        hsets.sanitizers, hsets.vocabulary, hsets.parallelism, hsets.range⟩, (hready hc).counters⟩

include hdir

theorem recordDoorReject_holds (hdone : (done ++ [Call.doorReject]).Sublist (inputs p).2) :
    Holds kernel inputs dir controlDir p (Counting (inputs p).1 done p) recordDoorReject fun _ =>
      Counting (inputs p).1 (done ++ [.doorReject]) p := by
  unfold recordDoorReject
  refine .bind (claimJob_counting hcontrol) fun ok => .exists fun s => .given fun hs => ?_
  obtain ⟨hready, hconf⟩ := hs
  refine .ite (fun _ => .pure (kept_at s) fun w _ hat => ⟨s, hat, fun hc => ?_⟩) fun hok => ?_
  · exact (hready hc).mono (List.sublist_append_left _ _)
  refine .bind (load_holds (kept_at s) fun _ h => h.memory) fun s' => .given fun hs' => ?_
  subst hs'
  have hmade := (hready (hconf (by simpa using hok))).record .doorReject
  exact store_publish_holds hdir hdone rfl rfl rfl hmade

theorem recordCase_holds {cellKey verdict : Option Str} {wasApplied : Bool}
    (hdone : (done ++ [Call.case cellKey wasApplied verdict]).Sublist (inputs p).2) :
    Holds kernel inputs dir controlDir p (Counting (inputs p).1 done p)
      (recordCase cellKey wasApplied verdict) fun _ =>
        Counting (inputs p).1 (done ++ [.case cellKey wasApplied verdict]) p := by
  unfold recordCase
  refine .bind (claimJob_counting hcontrol) fun ok => .exists fun s => .given fun hs => ?_
  obtain ⟨hready, hconf⟩ := hs
  have hfail : ∀ w, At p s w → Counting (inputs p).1 (done ++ [.case cellKey wasApplied verdict]) p w :=
    fun w hat => ⟨s, hat, fun hc => (hready hc).mono (List.sublist_append_left _ _)⟩
  refine .ite (fun _ => .pure (kept_at s) fun w _ hat => hfail w hat) fun hok => ?_
  refine .bind (load_holds (kept_at s) fun _ h => h.memory) fun s' => .given fun hs' => ?_
  subst hs'
  have hmade := (hready (hconf (by simpa using hok))).record (.case cellKey wasApplied verdict)
  cases cellKey with
  | none => exact .pure (kept_at s') fun w _ hat => hfail w hat
  | some cell =>
    refine .ite (fun _ => .pure (kept_at s') fun w _ hat => hfail w hat) fun hhas => ?_
    dsimp only
    refine .ite (fun happlied => ?_) fun happlied => ?_
    · cases verdict with
      | none =>
        refine store_fail_holds rfl rfl rfl ?_
        simpa [Counters.record, hhas, happlied] using hmade
      | some v =>
        have hsame : (s'.counters.decode cell).verdicts = s'.counters.verdicts := rfl
        rw [hsame]
        refine .ite (fun hno => store_fail_holds rfl rfl rfl ?_) fun hyes => ?_
        · simpa [Counters.record, hhas, happlied, hno] using hmade
        · refine store_publish_holds hdir hdone rfl rfl rfl ?_
          simpa [Counters.record, hhas, happlied, hyes] using hmade
    · refine store_publish_holds hdir hdone rfl rfl rfl ?_
      simpa [Counters.record, hhas, happlied] using hmade

theorem program_holds (call : Call) (hdone : (done ++ [call]).Sublist (inputs p).2) :
    Holds kernel inputs dir controlDir p (Counting (inputs p).1 done p) call.program fun _ =>
      Counting (inputs p).1 (done ++ [call]) p := by
  cases call with
  | doorReject => exact recordDoorReject_holds hdir hcontrol hdone
  | case cellKey wasApplied verdict => exact recordCase_holds hdir hcontrol hdone

/-- One call after another. -/
theorem runCalls_holds (calls : List Call) (hdone : done ++ calls = (inputs p).2) :
    Holds kernel inputs dir controlDir p (Counting (inputs p).1 done p) (runCalls calls)
      fun _ => Counting (inputs p).1 (inputs p).2 p := by
  induction calls generalizing done with
  | nil =>
    rw [List.append_nil] at hdone
    exact .pure (kept_counting _ _) fun _ _ h => hdone ▸ h
  | cons call calls ih =>
    have hall : (done ++ [call]) ++ calls = (inputs p).2 := by simpa using hdone
    refine .bind (program_holds hdir hcontrol call ?_) fun _ => ih hall
    rw [← hall]
    exact List.sublist_append_left _ _

end

theorem configure_holds :
    Holds kernel inputs dir controlDir p (At p {}) (configure (inputs p).1) fun _ =>
      Counting (inputs p).1 [] p := by
  have hfail : ∀ w : World P, At p {} w → Counting (inputs p).1 [] p w := fun w hat =>
    ⟨{}, hat, nofun⟩
  unfold configure
  split
  · next d c build hd hc hb =>
    refine .ite (fun _ => .pure (kept_at _) fun w _ hat => hfail w hat) fun hrange => ?_
    dsimp only
    refine .ite (fun _ => .pure (kept_at _) fun w _ hat => hfail w hat) fun hvocab => ?_
    refine .bind (monotonicNs_holds {}) fun now => .given fun _ => ?_
    let t : State :=
      { configured := true, dir := d, controlDir := c, buildId := build,
        compiler := (inputs p).1.compiler.getD (text "unknown"),
        sanitizers := (inputs p).1.sanitizers.getD (text "unknown"),
        parallelism := (inputs p).1.parallelism, startedNs := now, counters := .zero }
    have hsets : (inputs p).1.Sets t :=
      ⟨hd, hc, by simp only [t]; tauto, hb, rfl, rfl, by simpa [t] using hvocab, rfl,
        by simp only [t]; omega⟩
    have hstore : Holds kernel inputs dir controlDir p (fun w => At p {} w ∧ now ≤ w.clock)
        (store t) fun _ => At p t := store_holds t rfl fun hclaimed => nomatch hclaimed
    refine .bind hstore fun _ => .pure (kept_at t) fun w _ hat => ?_
    exact ⟨t, hat, fun _ => ⟨hsets, [], List.Sublist.refl [], rfl⟩⟩
  · exact .pure (kept_at _) fun w _ hat => hfail w hat

/-- A process that starts with fresh memory keeps to the discipline from its start. -/
theorem harness_holds (hdir : (inputs p).1.dir = some dir) (hcontrol : (inputs p).1.controlDir = some controlDir) :
    Holds kernel inputs dir controlDir p (At p {}) (harness (inputs p).1 (inputs p).2)
      fun _ _ => True := by
  refine .bind configure_holds fun _ => ?_
  refine .bind (runCalls_holds hdir hcontrol _ rfl) fun _ => ?_
  refine .exists fun s => .given fun hready => ?_
  refine .bind (publish_holds hdir (List.Sublist.refl _) hready) fun _ => ?_
  exact .pure (kept_at s) fun _ _ _ => trivial

end

/-! ## Runs -/

section
variable {P : Type}

/-- The start: no file, no memory, and every process with what it will do. -/
def start (inputs : P → Config × List Call) : System Command Answer (World P) P where
  world := ⟨fun _ _ => none, fun _ => {}, 0, []⟩
  procs p := some (harness (inputs p).1 (inputs p).2)

/-- Every process is configured with these directories. -/
def Share (inputs : P → Config × List Call) (dir controlDir : Str) : Prop :=
  ∀ p, (inputs p).1.dir = some dir ∧ (inputs p).1.controlDir = some controlDir

theorem inv_start (inputs : P → Config × List Call) (dir controlDir : Str) :
    Inv kernel inputs dir controlDir (start inputs).world :=
  ⟨fun _ => ⟨0, fun _ => ⟨nofun, nofun⟩⟩, nofun, nofun⟩

/-- Every state that a run of the processes leads to. -/
theorem inv_of_run [DecidableEq P] {inputs : P → Config × List Call} {dir controlDir : Str} {kernel : Kernel P}
    (hshare : Share inputs dir controlDir)
    {s : System Command Answer (World P) P} (hreach : Reach (exec kernel) (start inputs) s) :
    Inv kernel inputs dir controlDir s.world := by
  have hstart : Inv kernel inputs dir controlDir (start inputs).world := inv_start inputs dir controlDir
  refine inv_of_reach (D := discipline kernel inputs dir controlDir) hstart (fun p x hx => ?_) hreach
  obtain rfl := Option.some.inj hx
  exact harness_holds (hshare p).1 (hshare p).2 _ hstart ⟨rfl, UInt64.le_refl _⟩

end

end MpcHunt.Telemetry
