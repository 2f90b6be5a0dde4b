/-
The scripts themselves: each command of a publisher or an aggregator keeps
what `PoolHistory` says, whatever the others do between two of them, and so
every run does.
-/
import MpcHunt.Brain.PoolHistory

namespace MpcHunt.Brain

open Checks Digits MaterializeWindow ShellNumber Processes

variable {P : Type} [DecidableEq P] {tools : Tools} {w₀ w w' : Remote P} {cut : Bool}
  {jobs : P → Option Job} {begun : P → Remote P} {p : P} {runId attempt : Str}

/-! ## Questions -/

theorem Lists.refl {α : Type} (full : List α) : Lists cut full full := by
  refine ⟨full, .refl _, ?_⟩
  cases cut with
  | true => exact List.prefix_refl _
  | false => rfl

theorem Lists.subset {α : Type} {full shown : List α} (h : Lists cut full shown) : shown ⊆ full := by
  obtain ⟨all, hperm, h⟩ := h
  cases cut with
  | false => exact h ▸ hperm.subset
  | true => exact fun a ha => hperm.subset (List.IsPrefix.subset h ha)

theorem Lists.whole {α : Type} {full shown : List α} (h : Lists false full shown) :
    full ⊆ shown := by
  obtain ⟨all, hperm, rfl⟩ := h
  exact hperm.symm.subset

section
variable {Pre : Remote P → Prop} (hstable : Stable (discipline tools w₀ cut jobs begun) p Pre)
include hstable

theorem does_fetchPool : Does (exec cut) (discipline tools w₀ cut jobs begun) p Pre fetchPool
    fun r w => Pre w ∧ Fetched w₀ w r.1 r.2 := by
  have hfetched : ∀ r : Option (Nat × Tree), Stable (discipline tools w₀ cut jobs begun) p
      fun w => ∀ v, r = some v → Fetched w₀ w v.1 v.2 := fun r =>
    stable_of_later (fun w w' hlater h v hv => (h v hv).later hlater) p
  refine Does.bind (.query hstable hfetched fun w r w' hinv hexec => ?_) fun r => ?_
  · obtain ⟨rfl, rfl | ⟨v, hv, rfl⟩⟩ := hexec
    · exact ⟨rfl, fun v hv => by cases hv⟩
    · refine ⟨rfl, fun v' hv' => ?_⟩
      obtain rfl := Option.some.inj hv'
      exact ⟨hinv.later.versions.length_le, Nat.le_refl _, v, by rwa [List.take_length], rfl⟩
  · exact Does.except (hstable.and (hfetched r)) fun v w hneed _ hpre =>
      ⟨hpre.1, hpre.2 v (need_eq_ok.1 hneed)⟩

theorem does_fetchBranch (branch : Str) :
    Does (exec cut) (discipline tools w₀ cut jobs begun) p Pre (fetchBranch branch)
      fun tree w => Pre w ∧ w.branches.get? branch = some tree := by
  have hfetched : ∀ r : Option Tree, Stable (discipline tools w₀ cut jobs begun) p
      fun w => ∀ tree, r = some tree → w.branches.get? branch = some tree := fun r =>
    stable_of_later (fun w w' hlater h tree htree => hlater.branches branch tree (h tree htree)) p
  refine Does.bind (.query hstable hfetched fun w r w' _ hexec => ?_) fun r => ?_
  · obtain ⟨rfl, rfl | rfl⟩ := hexec
    · exact ⟨rfl, fun tree htree => by cases htree⟩
    · exact ⟨rfl, fun tree htree => htree⟩
  · exact Does.except (hstable.and (hfetched r)) fun tree w hneed _ hpre =>
      ⟨hpre.1, hpre.2 tree (need_eq_ok.1 hneed)⟩

theorem does_lsTree (tree : Tree) :
    Does (exec cut) (discipline tools w₀ cut jobs begun) p Pre (command (.lsTree tree))
      fun lines w => Pre w ∧ lines ⊆ tree.files ∧ (cut = false → tree.files ⊆ lines) := by
  refine .query hstable (fun _ => .const _) fun w lines w' _ hexec => ?_
  obtain ⟨rfl, hlists⟩ := hexec
  refine ⟨rfl, hlists.subset, fun hcut => ?_⟩
  subst hcut
  exact hlists.whole

theorem does_find (units : Dict String Bytes) :
    Does (exec cut) (discipline tools w₀ cut jobs begun) p Pre (command (.find units))
      fun found w => Pre w ∧ Lists cut units found :=
  .query hstable (fun _ => .const _) fun _ _ _ _ hexec => hexec

theorem does_diffCached (added : List Str) :
    Does (exec cut) (discipline tools w₀ cut jobs begun) p Pre (command (.diffCached added))
      fun listed w => Pre w ∧ Lists cut added listed :=
  .query hstable (fun _ => .const _) fun _ _ _ _ hexec => hexec

theorem does_lsRemote (hbegun : ∀ w, Pre w → (begun p).Later w) :
    Does (exec cut) (discipline tools w₀ cut jobs begun) p Pre (command .lsRemote)
      fun refs w => Pre w ∧ (cut = false → (begun p).branches.keys ⊆ refs) := by
  refine Does.lift (.perform hstable (fun _ => hstable.and (.const _)) ?_)
  intro w hinv hpre refs w' hexec
  obtain ⟨rfl, hlists⟩ := hexec
  refine ⟨hinv, fun _ _ => .refl w', hpre, fun hcut branch hbranch => ?_⟩
  subst hcut
  obtain ⟨tree, htree⟩ := (Dict.mem_keys_iff _ _).1 hbranch
  exact hlists.whole
    ((Dict.mem_keys_iff _ _).2 ⟨tree, (hbegun w' hpre).branches branch tree htree⟩)

end

/-! ## The aggregator -/

/-- The loop over the branches. -/
theorem does_takeBranches {base : Tree} (refs : List Str) (staged : Tree) {F : Remote P → Prop}
    (hF : Stable (discipline tools w₀ cut jobs begun) p F) :
    Does (exec cut) (discipline tools w₀ cut jobs begun) p
      (fun w => StagedFor tools w runId attempt base staged ∧ F w)
      (takeBranches tools runId attempt base refs staged)
      fun staged' w => (StagedFor tools w runId attempt base staged' ∧ F w) ∧
        staged.Extends staged' ∧ (cut = false → Taken tools w runId attempt refs staged') := by
  have hstaged : ∀ tree, Stable (discipline tools w₀ cut jobs begun) p
      fun w => StagedFor tools w runId attempt base tree := fun tree =>
    stable_of_later (fun w w' hlater h => h.later hlater) p
  induction refs generalizing staged F with
  | nil =>
    exact .pure ((hstaged staged).and hF) fun w _ h =>
      ⟨h, .refl staged, fun _ branch hmem => absurd hmem List.not_mem_nil⟩
  | cons branch rest ih =>
    have hpre := (hstaged staged).and hF
    refine Does.check hpre fun t ht => Does.ite (fun hours => ?_) fun hother => ?_
    · obtain ⟨hrun, hattempt⟩ := hours
      have hfetched : ∀ tree, Stable (discipline tools w₀ cut jobs begun) p
          fun w => w.branches.get? branch = some tree := fun tree =>
        stable_of_later (fun w w' hlater h => hlater.branches branch tree h) p
      refine Does.bind (does_fetchBranch hpre branch) fun tree => ?_
      refine Does.bind (does_lsTree (hpre.and (hfetched tree)) base) fun baseOid => Does.given ?_
      refine fun hbase => Does.bind (does_lsTree (hpre.and (hfetched tree)) tree) fun lines => ?_
      refine Does.given fun hlines => Does.check (hpre.and (hfetched tree)) fun staged' hfold => ?_
      -- The branch stays where it is while the rest are taken.
      refine (ih staged' (hF.and ((hfetched tree).and (.const (staged.Extends staged' ∧
        (cut = false → ∀ path e, tree.get? path = some e → staged'.Has path e)))))).mono ?_ ?_
      · rintro w - ⟨⟨hw, hf⟩, hbranch⟩
        obtain ⟨⟨new, hnew, hgenuine⟩, hall⟩ := foldlM_takeLine hbase.1 hw.extends hfold
        refine ⟨hw.trans hnew fun q hq => ?_, hf, hbranch, Tree.extends_of_append hnew,
          fun hcut path e he => hall (path, e) (hlines.2 hcut (Tree.mem_files_iff.2 he))⟩
        obtain ⟨hline, hfile⟩ := hgenuine q hq
        exact ⟨branch, tree, t, hbranch, ht, hrun, hattempt,
          Tree.get?_of_mem (hlines.1 hline), hfile⟩
      · rintro result w - ⟨⟨hw, hf, hbranch, hext, hall⟩, hrest, htaken⟩
        refine ⟨⟨hw, hf⟩, hext.trans hrest, fun hcut branch' hmem t' ht' hrun' hattempt' => ?_⟩
        rcases List.mem_cons.1 hmem with rfl | hmem
        · exact ⟨tree, hbranch, fun path e he => (hall hcut path e he).extends hrest⟩
        · exact htaken hcut branch' hmem t' ht' hrun' hattempt'
    · refine (ih staged hF).mono (fun w _ h => h) ?_
      rintro result w - ⟨h, hext, htaken⟩
      refine ⟨h, hext, fun hcut branch' hmem t' ht' hrun hattempt => ?_⟩
      rcases List.mem_cons.1 hmem with rfl | hmem
      · obtain rfl := Except.ok.inj (ht.symm.trans ht')
        exact absurd ⟨hrun, hattempt⟩ hother
      · exact htaken hcut branch' hmem t' ht' hrun hattempt

/-- A push of what was staged on the version that was fetched. -/
theorem does_pushPool {b : Remote P} {version : Nat} {base staged : Tree} {refs : List Str}
    (hrun : isNumber runId = true) (hattempt : isNumber attempt = true)
    (hnew : staged.files ≠ base.files) (hgate : capacityGate staged.checkout [] = 0) :
    Does (exec cut) (discipline tools w₀ cut jobs begun) p
      (fun w => StagedFor tools w runId attempt base staged ∧
        Fetched w₀ w version base ∧ b.Later w ∧
        (cut = false → Taken tools w runId attempt refs staged))
      (pushPool version staged (aggregateMessage runId attempt))
      fun _ w => Version.mk staged (aggregateMessage runId attempt) ∈
          w.versions.drop w₀.versions.length ∧ b.Later w ∧
        (cut = false → Taken tools w runId attempt refs staged) := by
  have hpushed : ∀ r : Bool, Stable (discipline tools w₀ cut jobs begun) p fun w =>
      (r = true → Version.mk staged (aggregateMessage runId attempt) ∈
        w.versions.drop w₀.versions.length) ∧ b.Later w ∧
      (cut = false → Taken tools w runId attempt refs staged) := by
    intro r
    refine stable_of_later (fun w w' hlater h => ?_) p
    exact ⟨fun hr => hlater.mem_since (h.1 hr), h.2.1.trans hlater,
      fun hcut => (h.2.2 hcut).later hlater⟩
  refine Does.bind (.lift (.perform ?_ hpushed fun w hinv h r w' hexec => ?_)) fun r => ?_
  · refine stable_of_later (fun w w' hlater h => ?_) p
    exact ⟨h.1.later hlater, h.2.1.later hlater, h.2.2.1.trans hlater,
      fun hcut => (h.2.2.2 hcut).later hlater⟩
  · obtain ⟨hstaged, hfetched, hbegun, htaken⟩ := h
    obtain ⟨hkept, hlater, hmem⟩ := Kept.pushPool hinv hfetched hrun hattempt hstaged hnew hgate hexec
    exact ⟨hkept, fun _ _ => hlater, hmem, hbegun.trans hlater,
      fun hcut => (htaken hcut).later hlater⟩
  · refine Does.except (hpushed r) fun _ w hrefuse _ h => ⟨h.1 ?_, h.2⟩
    simpa using refuse_eq_ok.1 hrefuse

/-- An aggregator that goes through has merged what the branches of its run held when it began. -/
theorem does_aggregate (count : Str) :
    Does (exec cut) (discipline tools w₀ cut jobs begun) p (begun p).Later
      (aggregate tools runId attempt count)
      fun _ w => cut = false → Merged tools w₀ (begun p) w runId attempt := by
  have hlater : Stable (discipline tools w₀ cut jobs begun) p (begun p).Later :=
    stable_of_later (fun w w' hlater h => h.trans hlater) p
  refine Does.check hlater fun _ hchecked => ?_
  simp only [checkArguments, bind_eq_ok, refuse_eq_ok, exists_const, not_not] at hchecked
  obtain ⟨hrun, hattempt, -⟩ := hchecked
  refine Does.bind (does_fetchPool hlater) fun r => ?_
  have hfetched : Stable (discipline tools w₀ cut jobs begun) p
      fun w => (begun p).Later w ∧ Fetched w₀ w r.1 r.2 :=
    stable_of_later (fun w w' hlater h => ⟨h.1.trans hlater, h.2.later hlater⟩) p
  refine Does.bind (does_lsRemote hfetched fun _ h => h.1) fun refs => Does.given fun hrefs => ?_
  refine Does.bind ((does_takeBranches refs r.2 hfetched).mono (fun w _ h => ⟨?_, h⟩)
    fun _ _ _ h => h) fun staged => ?_
  · exact ⟨[], (List.append_nil _).symm, fun q hq => absurd hq List.not_mem_nil⟩
  have htaken : Stable (discipline tools w₀ cut jobs begun) p fun w =>
      (StagedFor tools w runId attempt r.2 staged ∧ (begun p).Later w ∧ Fetched w₀ w r.1 r.2) ∧
        r.2.Extends staged ∧ (cut = false → Taken tools w runId attempt refs staged) := by
    refine stable_of_later (fun w w' hlater h => ?_) p
    obtain ⟨⟨hstaged, hbegun, hfetched⟩, hext, htaken⟩ := h
    exact ⟨⟨hstaged.later hlater, hbegun.trans hlater, hfetched.later hlater⟩, hext,
      fun hcut => (htaken hcut).later hlater⟩
  refine Does.check htaken fun _ hgate => Does.check htaken fun _ hnew => ?_
  refine (does_pushPool hrun hattempt (refuse_eq_ok.1 hnew)
    (not_not.1 (refuse_eq_ok.1 hgate))).mono
    (fun w _ h => ⟨h.1.1, h.1.2.2, h.1.2.1, h.2.2⟩) fun _ w _ h hcut => ?_
  refine ⟨_, h.1, fun branch tree t hbranch ht hrun hattempt path e he => ?_⟩
  have hmem := hrefs hcut ((Dict.mem_keys_iff _ _).2 ⟨tree, hbranch⟩)
  obtain ⟨tree', htree', hall⟩ := h.2.2 hcut branch hmem t ht hrun hattempt
  have hsame := h.2.1.branches branch tree hbranch
  obtain rfl := Option.some.inj (hsame.symm.trans htree')
  exact hall path e he

/-! ## The publisher -/

/-- A publisher that goes through has its branch there. -/
theorem does_publish {pub : Publication} (hjob : jobs p = some (.publish pub)) :
    Does (exec cut) (discipline tools w₀ cut jobs begun) p (fun _ => True)
      (publish tools pub)
      fun _ w => ∃ branch tree, w.branches.get? branch = some tree ∧
        Published tools cut w₀ w pub branch tree := by
  refine Does.check (.const True) fun r hcheck => Does.check (.const True) fun units hunits => ?_
  refine Does.check (.const True) fun _ hgpg => ?_
  refine Does.bind (does_fetchPool (.const True)) fun fetched => ?_
  have hfetched : Stable (discipline tools w₀ cut jobs begun) p
      fun w => True ∧ Fetched w₀ w fetched.1 fetched.2 :=
    stable_of_later (fun w w' hlater h => ⟨trivial, h.2.later hlater⟩) p
  refine Does.bind (does_find hfetched units) fun found => Does.given fun hfound => ?_
  refine Does.check hfetched fun staged hstaged => ?_
  refine Does.bind (does_diffCached hfetched _) fun added => Does.given fun _ => ?_
  refine Does.check hfetched fun _ _ => Does.check hfetched fun branch hbranch => ?_
  have hpushed : ∀ r : Bool, Stable (discipline tools w₀ cut jobs begun) p fun w =>
      r = true → w.branches.get? branch = some staged ∧
        Published tools cut w₀ w pub branch staged := fun r =>
    stable_of_later (fun w w' hlater h hr =>
      ⟨hlater.branches branch staged (h hr).1, (h hr).2.later hlater⟩) p
  refine Does.bind (.lift (.perform hfetched hpushed fun w hinv h r w' hexec => ?_)) fun r => ?_
  · obtain ⟨v, hv, hbase⟩ := h.2.mem_since hinv.later
    have hpub : Published tools cut w₀ w pub branch staged :=
      ⟨_, _, units, found, v, hcheck, hunits, hfound, not_not.1 (refuse_eq_ok.1 hgpg), hv,
        hbase ▸ hstaged, hbranch⟩
    obtain ⟨hkept, hlater, hthere⟩ := Kept.pushBranch hinv hjob hpub hexec
    exact ⟨hkept, fun _ _ => hlater, fun hr => ⟨hthere hr, hpub.later hlater⟩⟩
  · refine Does.except (hpushed r) fun _ w hrefuse _ h => ⟨branch, staged, h ?_⟩
    simpa using refuse_eq_ok.1 hrefuse

/-! ## Every run -/

theorem triple_program {job : Job} (hjob : jobs p = some job) :
    Triple (exec cut) (discipline tools w₀ cut jobs begun) p (begun p).Later
      (job.program tools) fun _ _ => True := by
  have hscript : Does (exec cut) (discipline tools w₀ cut jobs begun) p (begun p).Later
      (job.script tools) fun _ w => Succeeded tools w₀ cut (begun p) w job := by
    cases job with
    | publish pub => exact (does_publish hjob).mono (fun _ _ _ => trivial) fun _ _ _ h => h
    | aggregate runId attempt count => exact does_aggregate count
  refine Triple.bind hscript fun r => .perform ?_ (fun _ => .const True) fun w hinv h _ w' hexec => ?_
  · refine stable_of_later (fun w w' hlater h u hu => (h u hu).later hlater) p
  · obtain rfl := hexec
    exact ⟨Kept.exit hinv hjob fun hstatus => h () hstatus,
      fun _ _ => ⟨List.prefix_refl _, fun _ _ h => h⟩, trivial⟩

section
variable (hexits : ∀ p, w₀.exits p = none) {s₁ s : System Command Answer (Remote P) P}
include hexits

/-- Every state of a run, and the scripts that are still to do something in it. -/
theorem safe_of_start (h : Reach (exec cut) (start tools jobs w₀) s) :
    Kept tools w₀ cut jobs (fun _ => w₀) s.world ∧ ∀ p x, s.procs p = some x →
      Safe (exec cut) (discipline tools w₀ cut jobs fun _ => w₀) p x (fun _ _ => True) s.world := by
  have hstart : (discipline tools w₀ cut jobs fun _ => w₀).Inv w₀ := by
    refine ⟨.refl w₀, ?_, fun b t hb => .inl hb, fun p job _ hexit => ?_⟩
    · rw [since, List.drop_length, List.append_nil]
      cases w₀.versions.getLast? with
      | none => exact .nil
      | some v => exact .singleton v
    · rw [hexits p] at hexit
      cases hexit
  refine safe_of_reach (D := discipline tools w₀ cut jobs fun _ => w₀) hstart (fun p x hx => ?_) h
  obtain ⟨job, hjob, rfl⟩ := Option.map_eq_some_iff.1 hx
  exact triple_program hjob w₀ hstart (.refl w₀)

theorem kept_of_reach (h : Reach (exec cut) (start tools jobs w₀) s) :
    Kept tools w₀ cut jobs (fun _ => w₀) s.world := (safe_of_start hexits h).1

/-- A script that has not begun may be taken to begin at any state of the run. -/
theorem kept_of_begun (h₁ : Reach (exec cut) (start tools jobs w₀) s₁) (h : Reach (exec cut) s₁ s)
    {job : Job} (hjob : jobs p = some job) (hprog : s₁.procs p = some (job.program tools))
    (hnone : s₁.world.exits p = none) :
    Kept tools w₀ cut jobs (Function.update (fun _ => w₀) p s₁.world) s.world := by
  obtain ⟨hkept, hsafe⟩ := safe_of_start hexits h₁
  have hown : Kept tools w₀ cut jobs (Function.update (fun _ => w₀) p s₁.world) s₁.world := by
    refine ⟨hkept.later, hkept.chain, hkept.branches, fun q job' hjob' hexit => ?_⟩
    by_cases hqp : q = p
    · rw [hqp, hnone] at hexit
      cases hexit
    · rw [Function.update_of_ne hqp]
      exact hkept.exits q job' hjob' hexit
  show (discipline tools w₀ cut jobs (Function.update (fun _ => w₀) p s₁.world)).Inv s.world
  refine inv_of_reach_own (D := discipline tools w₀ cut jobs fun _ => w₀) (p := p) ?_ hkept hsafe
    hown (fun x hx => ?_) h
  · -- The step of another: what it exits with is its own, and nothing is taken back.
    intro q hqp w c r w' hexec hown hkept hlater
    refine ⟨⟨hkept.later, hkept.chain, hkept.branches, fun q' job' hjob' hexit => ?_⟩, hlater⟩
    by_cases hsame : q' = p
    · subst hsame
      rw [exec_exits hqp hexec] at hexit
      exact (hown.exits q' job' hjob' hexit).later hlater
    · rw [Function.update_of_ne hsame]
      exact hkept.exits q' job' hjob' hexit
  · obtain rfl : job.program tools = x := Option.some.inj (hprog.symm.trans hx)
    refine triple_program hjob s₁.world hown ?_
    rw [Function.update_self]
    exact .refl _

end

end MpcHunt.Brain
