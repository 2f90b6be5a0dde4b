/-
What a publisher stages: over the pool it fetched, at paths that nothing is in
the way of, the units of its corpus by their contents, its incident and its
counters, each where the authority of paths puts it. So a branch reads back to
the tuple it was published for.
-/
import MpcHunt.Brain.PoolSafety

namespace MpcHunt.Brain

open Checks Digits MaterializeWindow ShellNumber Processes

variable {tools : Tools}

/-! ## Free paths -/

/-- Nothing is at the path, and nothing is in its way. -/
def Tree.Free (t : Tree) (path : Str) : Prop :=
  t.occupied path = false ∧ t.makeDirectory (Tree.dirname path) = .ok ()

theorem Tree.free_iff {t : Tree} {path : Str} : t.Free path ↔ ∀ p ∈ t.files,
    p.1 ≠ path ∧ ¬ path ++ text "/" <+: p.1 ∧
      ¬ p.1 ++ text "/" <+: Tree.dirname path ++ text "/" := by
  simp only [Tree.Free, Tree.occupied, Tree.makeDirectory, refuse_eq_ok, Bool.not_eq_true,
    List.any_eq_false, Bool.or_eq_true, decide_eq_true_eq, List.isPrefixOf_iff_prefix, not_or,
    ← forall_and, and_assoc]

theorem Tree.write_of_free {t : Tree} {path : Str} (h : t.Free path) (content : Bytes) :
    t.write path content = .ok (t.put path content) := by
  unfold Tree.write
  rw [h.1, h.2]
  rfl

theorem Tree.free_of_write {t t' : Tree} {path : Str} {content : Bytes}
    (h : t.write path content = .ok t') : t.Free path := by
  unfold Tree.write at h
  obtain ⟨_, hfree, h⟩ := bind_eq_ok.1 h
  obtain ⟨_, hdir, h⟩ := bind_eq_ok.1 h
  exact ⟨by simpa using refuse_eq_ok.1 hfree, hdir⟩

/-- What is free in a tree is free in one it extends. -/
theorem Tree.Free.of_append {t t' : Tree} {new : Dict Str Entry} (hfiles : t'.files = t.files ++ new)
    {path : Str} (h : t'.Free path) : t.Free path := by
  rw [Tree.free_iff] at h ⊢
  exact fun p hp => h p (hfiles ▸ List.mem_append_left new hp)

/-! ## Staging -/

/-- Files of one tuple, at paths that were free. -/
def Contributes (tools : Tools) (t : Tuple) (base : Tree) (new : Dict Str Entry) : Prop :=
  ∀ q ∈ new, Genuine tools t q.1 q.2 ∧ base.Free q.1

/-- One file more. -/
theorem Contributes.write {t : Tuple} {base staged staged' : Tree} {new : Dict Str Entry}
    (h : Contributes tools t base new) (hfiles : staged.files = base.files ++ new) {path : Str}
    {content : Bytes} (hwrite : staged.write path content = .ok staged')
    (hgenuine : Genuine tools t path (.file content)) :
    ∃ new', staged'.files = base.files ++ new' ∧ Contributes tools t base new' ∧
      ∀ q, q ∈ new' ↔ q ∈ new ∨ q = (path, .file content) := by
  have hfree := (Tree.free_of_write hwrite).of_append hfiles
  refine ⟨new ++ [(path, .file content)], ?_, fun q hq => ?_, fun q => ?_⟩
  · rw [Tree.files_write hwrite, hfiles, List.append_assoc]
  · rcases List.mem_append.1 hq with hq | hq
    · exact h q hq
    · rw [List.mem_singleton.1 hq]
      exact ⟨hgenuine, hfree⟩
  · rw [List.mem_append, List.mem_singleton]

theorem Publication.mem_units {p : Publication} {units : Dict String Bytes} {harness : Str}
    {bundle : Bytes} (hcheck : p.check = .ok (harness, bundle)) (h : p.units tools = .ok units) :
    ∀ u ∈ units, tools.sha1 u.2 = u.1 := by
  unfold Publication.units at h
  cases hfiles : materializeCorpus tools.sha1 [p.corpus] with
  | error e =>
    rw [hfiles] at h
    cases h
  | ok files =>
    rw [hfiles] at h
    obtain rfl := Except.ok.inj h
    intro u hu
    have hdir : ∃ entries, p.corpus = .dir entries := by
      simp only [Publication.check, bind_eq_ok, refuse_eq_ok, exists_const, not_not] at hcheck
      obtain ⟨_, -, -, -, -, -, hdir, -⟩ := hcheck
      cases hcorpus : p.corpus with
      | dir entries => exact ⟨entries, rfl⟩
      | missing | invalid =>
        rw [hcorpus] at hdir
        cases hdir
    obtain ⟨entries, hentries⟩ := hdir
    rw [hentries] at hfiles
    obtain ⟨us, hus, hmerged⟩ := materializeCorpus_merged hfiles
    rcases hmerged.origin u hu with hu | ⟨v, hv, hname, hcontent⟩
    · cases hu
    · obtain ⟨f, -, hf, -, -, hsha⟩ := (mem_validatedUnits hus v).1 hv
      rw [← hname, ← hsha, hcontent, hf]

/-- Where the unit of a harness is. -/
def unitPath (harness : Str) (name : String) : Str :=
  text "corpus/" ++ harness ++ text "/" ++ text name

theorem foldlM_stageUnit {t : Tuple} {base staged staged' : Tree} {new : Dict Str Entry}
    (hnew : Contributes tools t base new) (hfiles : staged.files = base.files ++ new)
    {units : Dict String Bytes} (hunits : ∀ u ∈ units, tools.sha1 u.2 = u.1)
    (h : units.foldlM (stageUnit t.harness (text "corpus/" ++ t.harness)) staged = .ok staged') :
    (∃ new', staged'.files = base.files ++ new' ∧ Contributes tools t base new') ∧
      staged.Extends staged' ∧ ∀ u ∈ units, staged'.Has (unitPath t.harness u.1) (.file u.2) := by
  induction units generalizing staged new with
  | nil =>
    obtain rfl : staged = staged' := Except.ok.inj h
    exact ⟨⟨new, hfiles, hnew⟩, .refl staged, fun u hu => absurd hu List.not_mem_nil⟩
  | cons u units ih =>
    obtain ⟨hname, hrest⟩ := List.forall_mem_cons.1 hunits
    rw [List.foldlM_cons] at h
    obtain ⟨mid, hmid, h⟩ := bind_eq_ok.1 h
    unfold stageUnit at hmid
    dsimp only at hmid
    by_cases hoccupied : staged.occupied (text "corpus/" ++ t.harness ++ text "/" ++ text u.1) = true
    · rw [if_pos hoccupied] at hmid
      obtain ⟨_, hholds, hmid⟩ := bind_eq_ok.1 hmid
      obtain rfl := Except.ok.inj hmid
      obtain ⟨hall, hext, hhas⟩ := ih hnew hfiles hrest h
      have hheld := Tree.has_of_holds (not_not.1 (refuse_eq_ok.1 hholds))
      exact ⟨hall, hext, List.forall_mem_cons.2 ⟨hheld.extends hext, hhas⟩⟩
    · rw [if_neg hoccupied] at hmid
      obtain ⟨path, hpath, hmid⟩ := bind_eq_ok.1 hmid
      have hunit := toOption_eq_some.1 (need_eq_ok.1 hpath)
      obtain ⟨-, -, rfl⟩ := corpusUnitFor_eq_ok.1 hunit
      have hgenuine : Genuine tools t (unitPath t.harness u.1) (.file u.2) :=
        ⟨u.2, rfl, .inl (by rw [hname]; exact hunit)⟩
      obtain ⟨new', hfiles', hnew', -⟩ := hnew.write hfiles hmid hgenuine
      obtain ⟨hall, hext, hhas⟩ := ih hnew' hfiles' hrest h
      have happend := Tree.files_write hmid
      have hheld : mid.Has (unitPath t.harness u.1) (.file u.2) :=
        ⟨_, (Tree.get?_of_append happend).2 (.inr (List.mem_singleton.2 rfl)), rfl⟩
      exact ⟨hall, (Tree.extends_of_append happend).trans hext,
        List.forall_mem_cons.2 ⟨hheld.extends hext, hhas⟩⟩

theorem mem_sortUnits {found : Dict String Bytes} {u : String × Bytes} :
    u ∈ sortUnits found ↔ u ∈ found :=
  (List.perm_insertionSort _ found).mem_iff

theorem checkEvidence_nil (t : Tuple) : checkEvidence tools [] t = false := rfl

/-- What a publisher stages over the pool. -/
theorem Publication.stage_eq_ok {p : Publication} {harness : Str} {bundle : Bytes}
    {units found : Dict String Bytes} {base tree : Tree} (hcheck : p.check = .ok (harness, bundle))
    (hunits : p.units tools = .ok units) (hfound : found ⊆ units) (hbundle : bundle ≠ [])
    (h : p.stage tools harness bundle (sortUnits found) base = .ok tree) :
    (∃ new, tree.files = base.files ++ new ∧ Contributes tools (p.tuple harness) base new) ∧
      (∀ u ∈ found, tree.Has (unitPath harness u.1) (.file u.2)) ∧
      ∃ incident, incidentFor (p.tuple harness) = .ok incident ∧
        tree.get? incident = some (.file bundle) := by
  obtain ⟨dir, hdir, h⟩ := bind_eq_ok.1 h
  obtain ⟨_, -, hdir⟩ := bind_eq_ok.1 hdir
  obtain rfl := Except.ok.inj hdir
  obtain ⟨_, -, h⟩ := bind_eq_ok.1 h
  obtain ⟨staged, hstaged, h⟩ := bind_eq_ok.1 h
  obtain ⟨incident, hincident, h⟩ := bind_eq_ok.1 h
  obtain ⟨withBundle, hwrite, h⟩ := bind_eq_ok.1 h
  have hnil : Contributes tools (p.tuple harness) base [] := fun q hq => absurd hq List.not_mem_nil
  obtain ⟨⟨new, hfiles, hnew⟩, -, hhas⟩ := foldlM_stageUnit hnil (List.append_nil _).symm
    (fun u hu => Publication.mem_units hcheck hunits u (hfound (mem_sortUnits.1 hu))) hstaged
  have hhas := fun u hu => hhas u (mem_sortUnits.2 hu)
  obtain ⟨new', hfiles', hnew', -⟩ := hnew.write hfiles hwrite
    ⟨bundle, rfl, .inr ⟨hbundle, .inr hincident⟩⟩
  have happend := Tree.files_write hwrite
  have hthere : withBundle.get? incident = some (.file bundle) :=
    (Tree.get?_of_append happend).2 (.inr (List.mem_singleton.2 rfl))
  have hext := Tree.extends_of_append happend
  cases htelemetry : p.telemetry with
  | none =>
    rw [htelemetry] at h
    obtain rfl := Except.ok.inj h
    exact ⟨⟨new', hfiles', hnew'⟩, fun u hu => (hhas u hu).extends hext, incident, hincident, hthere⟩
  | some telemetry =>
    rw [htelemetry] at h
    obtain ⟨document, -, h⟩ := bind_eq_ok.1 h
    obtain ⟨_, hevidence, h⟩ := bind_eq_ok.1 h
    obtain ⟨path, hpath, h⟩ := bind_eq_ok.1 h
    have hchecked := not_not.1 (refuse_eq_ok.1 hevidence)
    have hne : document ≠ [] := by
      rintro rfl
      rw [checkEvidence_nil] at hchecked
      cases hchecked
    obtain ⟨new'', hfiles'', hnew'', -⟩ := hnew'.write hfiles' h
      ⟨document, rfl, .inr ⟨hne, .inl ⟨hpath, hchecked⟩⟩⟩
    have hlast := Tree.extends_of_append (Tree.files_write h)
    exact ⟨⟨new'', hfiles'', hnew''⟩, fun u hu => (hhas u hu).extends (hext.trans hlast), incident,
      hincident, hlast _ _ hthere⟩

/-! ## A run of one publisher -/

variable {P : Type} [DecidableEq P] {w₀ w : Remote P} {cut : Bool} {jobs : P → Option Job}

/-- A publisher that gets through its checks pushes its branch where there is none of that name. -/
theorem runs_publish {p : P} {pub : Publication} {harness branch : Str} {bundle : Bytes}
    {units found : Dict String Bytes} {added : List Str} {v : Version} {staged : Tree}
    (hcheck : pub.check = .ok (harness, bundle)) (hunits : pub.units tools = .ok units)
    (hgpg : tools.gpg bundle = true) (hlast : w.versions.getLast? = some v)
    (hfound : Lists cut units found)
    (hstage : pub.stage tools harness bundle (sortUnits found) v.tree = .ok staged)
    (hlisted : Lists cut (staged.files.keys.filter fun path => (v.tree.get? path).isNone) added)
    (hadded : added.forM (checkAdded harness) = .ok ())
    (hbranch : branchFor tools.checkRefFormat (pub.tuple harness) = .ok branch)
    (hnone : w.branches.get? branch = none) :
    Runs (exec cut) p w (publish tools pub).run (.ok ())
      { w with branches := w.branches ++ [(branch, staged)] } := by
  refine Runs.script_check hcheck (Runs.script_check hunits ?_)
  refine Runs.script_check (a := ()) (refuse_eq_ok.2 (not_not.2 hgpg)) ?_
  refine Runs.script_bind (runs_fetchPool hlast) ?_
  refine Runs.script_bind (.script_query ⟨rfl, hfound⟩) (Runs.script_check hstage ?_)
  refine Runs.script_bind (.script_query ⟨rfl, hlisted⟩) ?_
  refine Runs.script_check hadded (Runs.script_check hbranch ?_)
  exact Runs.script_bind (a := true) (.script_query (.inl ⟨hnone, rfl⟩)) .ret

/-- A corpus of one unit, and an incident. -/
def onePublication : Publication :=
  ⟨text "100", text "1", text "7", text "cmp_general", .dir [(oneTools.sha1 [0], .file ⟨0, 0, [0]⟩)],
    text "incident-100-1-7.gpg", some [1], none⟩

/-- The tuple of the publication. -/
def onePublished : Tuple := ⟨text "100", text "1", text "cmp_ecdsa_online", text "7"⟩

def publishedTree : Tree :=
  firstTree.put (text "incidents/run-100/cmp_ecdsa_online-attempt-1-shard-7.gpg") [1]

theorem one_checks : onePublication.check = .ok (onePublished.harness, [1]) ∧
    onePublication.units oneTools = .ok [(oneTools.sha1 [0], [0])] ∧
    onePublication.stage oneTools onePublished.harness [1] (sortUnits [(oneTools.sha1 [0], [0])])
      emptyTree = .ok publishedTree := by
  decide

theorem one_pushes : (publishedTree.files.keys.filter fun path => (emptyTree.get? path).isNone).forM
      (checkAdded onePublished.harness) = .ok () ∧
    branchFor oneTools.checkRefFormat onePublished = .ok (branchPath onePublished) ∧
    oneRemote.branches.get? (branchPath onePublished) = none := by
  decide

theorem one_published : ∃ s,
    Reach (exec false) (start oneTools (fun _ => some (.publish onePublication)) oneRemote) s ∧
      s.world.exits () = some (.ok ()) ∧ s.world.versions = oneRemote.versions ∧
      s.world.branches = oneRemote.branches ++ [(branchPath onePublished, publishedTree)] := by
  obtain ⟨hcheck, hunits, hstage⟩ := one_checks
  obtain ⟨hadded, hbranch, hnone⟩ := one_pushes
  have hlast : oneRemote.versions.getLast? = some ⟨emptyTree, []⟩ := rfl
  have hrun : Runs (exec false) () oneRemote (Job.program oneTools (.publish onePublication)) () _ :=
    runs_program
      (runs_publish hcheck hunits rfl hlast (.refl _) hstage (.refl _) hadded hbranch hnone)
  have hstart : (start oneTools (fun _ => some (.publish onePublication)) oneRemote).procs () =
      some (Job.program oneTools (.publish onePublication)) := rfl
  obtain ⟨procs, hreach, -⟩ := hrun.reach hstart
  refine ⟨_, hreach, ?_, rfl, rfl⟩
  dsimp only
  rw [Function.update_self]

/-! ## Branches -/

/-- A branch as its publisher left it: over a version of the pool, files of the tuple it is named
by, at paths that were free. -/
structure Contribution (tools : Tools) (versions : List Version) (branch : Str) (tree : Tree)
    (t : Tuple) (v : Version) (new : Dict Str Entry) : Prop where
  parsed : parseBranch tools.checkRefFormat branch = .ok t
  version : v ∈ versions
  files : tree.files = v.tree.files ++ new
  contributes : Contributes tools t v.tree new

omit [DecidableEq P] in
theorem Published.contribution (hgpg : tools.gpg [] = false) {pub : Publication} {branch : Str}
    {tree : Tree} (h : Published tools cut w₀ w pub branch tree) :
    ∃ t v new, Contribution tools (since w₀ w) branch tree t v new := by
  obtain ⟨harness, bundle, units, found, v, hcheck, hunits, hfound, hbundle, hv, hstage, hbranch⟩ := h
  have hne : bundle ≠ [] := by
    rintro rfl
    rw [hgpg] at hbundle
    cases hbundle
  obtain ⟨⟨new, hfiles, hnew⟩, -⟩ :=
    Publication.stage_eq_ok hcheck hunits hfound.subset hne hstage
  exact ⟨_, v, new, parseBranch_eq_ok.2 (branchFor_eq_ok.1 hbranch), hv, hfiles, hnew⟩

/-- Every branch that comes in reads back to a tuple, and is a version of the pool with files of
that tuple after it, each at a path of its own that was free. -/
theorem published_branch (hexits : ∀ p, w₀.exits p = none) (hgpg : tools.gpg [] = false)
    {s : System Command Answer (Remote P) P} (h : Reach (exec cut) (start tools jobs w₀) s)
    {branch : Str} {tree : Tree} (hbranch : s.world.branches.get? branch = some tree)
    (hnew : w₀.branches.get? branch = none) :
    ∃ t v new, Contribution tools (since w₀ s.world) branch tree t v new := by
  rcases (kept_of_reach hexits h).branches branch tree hbranch with hold | ⟨p, pub, -, hpub⟩
  · rw [hnew] at hold
    cases hold
  · exact hpub.contribution hgpg

/-- The branch of the publisher, over the empty pool. -/
theorem published_branch_one : ∃ s t v new,
    Reach (exec false) (start oneTools (fun _ => some (.publish onePublication)) oneRemote) s ∧
      Contribution oneTools (since oneRemote s.world) (branchPath onePublished) publishedTree t v
        new := by
  obtain ⟨s, hreach, -, -, hbranches⟩ := one_published
  have hthere : s.world.branches.get? (branchPath onePublished) = some publishedTree := by
    rw [hbranches]
    decide
  obtain ⟨t, v, new, hall⟩ := published_branch (fun _ => rfl) rfl hreach hthere one_pushes.2.2
  exact ⟨s, t, v, new, hreach, hall⟩

end MpcHunt.Brain
