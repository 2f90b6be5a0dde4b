/-
What the pool never loses and never takes in, over every run of any number of
publishers and aggregators: no path changes, every unit is named by its
content, an aggregator that exits 0 has merged its run, and a run that is
merged is not merged again.
-/
import MpcHunt.Brain.Concurrent

namespace MpcHunt.Brain

open Checks Digits MaterializeWindow ShellNumber Processes

variable {P : Type} [DecidableEq P] {tools : Tools} {w₀ w : Remote P} {cut : Bool}
  {jobs : P → Option Job} {runId attempt : Str}

/-! ## Append only -/

/-- Whatever publishers and aggregators run, in any order and cut off anywhere, from any time of it
to any later one: no version of the pool is lost and no branch changes, a path of the pool keeps what
it holds, and a file that comes in is one that a branch of some run holds at a path of its own. -/
theorem pool_history (hexits : ∀ p, w₀.exits p = none) {s s' : System Command Answer (Remote P) P}
    (h : Reach (exec cut) (start tools jobs w₀) s) (h' : Reach (exec cut) s s') :
    s.world.versions <+: s'.world.versions ∧
      (∀ b t, s.world.branches.get? b = some t → s'.world.branches.get? b = some t) ∧
      (since w₀ s'.world).Pairwise (Follows tools s'.world) := by
  have hlater : s.world.Later s'.world := world_of_reach (Q := s.world.Later)
    (fun p w c r w' (hexec : exec cut p w c r w') hw => hw.trans (exec_later hexec)) h' (.refl _)
  exact ⟨hlater.versions, hlater.branches, (kept_of_reach hexits (h.trans h')).pairwise⟩

/-! ## Names -/

/-- Every file under `corpus/` is a unit of a harness, named by its content. -/
def CorpusNamed (tools : Tools) (t : Tree) : Prop :=
  ∀ path e, t.get? path = some e → text "corpus/" <+: path → ∃ harness content,
    e = .file content ∧ corpusUnitFor harness (text (tools.sha1 content)) = .ok path

theorem Genuine.corpus {t : Tuple} {path : Str} {e : Entry} (h : Genuine tools t path e)
    (hpath : text "corpus/" <+: path) : ∃ harness content,
      e = .file content ∧ corpusUnitFor harness (text (tools.sha1 content)) = .ok path := by
  obtain ⟨content, rfl, hunit | hown⟩ := h.cases
  · exact ⟨t.harness, content, rfl, hunit⟩
  · exact absurd hpath hown.not_corpus

omit [DecidableEq P] in
theorem CorpusNamed.follows {v v' : Version} (h : CorpusNamed tools v.tree)
    (hfollows : Follows tools w v v') : CorpusNamed tools v'.tree := by
  intro path e he hpath
  rcases hfollows.2 path e he with he | ⟨runId, attempt, branch, tree, t, -, -, -, -, -, hgenuine⟩
  · exact h path e he hpath
  · exact hgenuine.corpus hpath

/-- A pool of which the units are named by their content stays one. -/
theorem pool_named (hexits : ∀ p, w₀.exits p = none) {v₀ : Version}
    (hlast : w₀.versions.getLast? = some v₀) (hnamed : CorpusNamed tools v₀.tree)
    {s : System Command Answer (Remote P) P} (h : Reach (exec cut) (start tools jobs w₀) s) :
    ∀ v ∈ since w₀ s.world, CorpusNamed tools v.tree := by
  have hpairwise := (kept_of_reach hexits h).pairwise
  rw [since, hlast, Option.toList_some, List.singleton_append] at hpairwise ⊢
  intro v hv
  rcases List.mem_cons.1 hv with rfl | hv
  · exact hnamed
  · exact hnamed.follows (List.rel_of_pairwise_cons hpairwise hv)

/-! ## Merging -/

/-- Every aggregator that exits 0 has merged each branch of its run that was there when it began,
whatever else went on before and since. -/
def Merges (cut : Bool) : Prop :=
  ∀ (P : Type) (_ : DecidableEq P) (tools : Tools) (w₀ : Remote P) (jobs : P → Option Job)
    (s₁ s : System Command Answer (Remote P) P), (∀ p, w₀.exits p = none) →
    Reach (exec cut) (start tools jobs w₀) s₁ → Reach (exec cut) s₁ s → ∀ p runId attempt count,
    jobs p = some (.aggregate runId attempt count) →
    s₁.procs p = some (Job.program tools (.aggregate runId attempt count)) →
    s₁.world.exits p = none → s.world.exits p = some (.ok ()) →
    ∀ branch tree t, s₁.world.branches.get? branch = some tree → parseAny tools branch = .ok t →
    t.runId = runId → t.attempt = attempt →
    ∃ v, s.world.versions.getLast? = some v ∧ ∀ path e, tree.get? path = some e → v.tree.Has path e

theorem merges_whole : Merges false := by
  intro P _ tools w₀ jobs s₁ s hexits h₁ h p runId attempt count hjob hprog hnone hexit branch tree t
    hbranch ht hrun hattempt
  have hkept := kept_of_begun hexits h₁ h hjob hprog hnone
  have hdone := hkept.exits p _ hjob hexit
  rw [Function.update_self] at hdone
  obtain ⟨v, hv, hmerged⟩ := hdone rfl
  have hv : v ∈ since w₀ s.world := List.mem_append_right _ hv
  obtain ⟨vs, tip, hvs⟩ : ∃ vs tip, since w₀ s.world = vs ++ [tip] :=
    ⟨_, _, (List.dropLast_concat_getLast (List.ne_nil_of_mem hv)).symm⟩
  refine ⟨tip, ?_, fun path e he => ?_⟩
  · rw [← getLast?_since hkept.later, hvs, List.getLast?_concat]
  · have hhas := hmerged branch tree t hbranch ht hrun hattempt path e he
    rw [hvs] at hv
    rcases List.mem_append.1 hv with hv | hv
    · have hpairwise := hkept.pairwise
      rw [hvs, List.pairwise_append] at hpairwise
      exact hhas.extends (hpairwise.2.2 v hv tip (List.mem_singleton.2 rfl)).1
    · exact List.mem_singleton.1 hv ▸ hhas

/-! ## Merging again -/

def messagePattern : List (Piece Nat) :=
  [.lit (text "aggregate run "), .group isDigit, .lit (text " attempt "), .group isDigit]

theorem aggregateMessage_inj {runId' attempt' : Str} (hrun : isNumber runId = true)
    (hattempt : isNumber attempt = true) (hrun' : isNumber runId' = true)
    (hattempt' : isNumber attempt' = true)
    (h : aggregateMessage runId attempt = aggregateMessage runId' attempt') :
    runId = runId' ∧ attempt = attempt' := by
  have hfill : ∀ r a, aggregateMessage r a = Template.fill messagePattern [r, a] := by
    intro r a
    simp [aggregateMessage, messagePattern, Template.fill]
  have hgroup : ∀ {s}, isNumber s = true → s ≠ [] ∧ ∀ c ∈ s, isDigit c = true := by
    intro s hs
    simpa [isNumber, List.all_eq_true] using hs
  have hsep : Template.Separated messagePattern := ⟨rfl, trivial, trivial⟩
  rw [hfill, hfill] at h
  have hfits : ∀ {r a}, isNumber r = true → isNumber a = true →
      Template.Fits messagePattern [r, a] := fun hr ha => ⟨hgroup hr, hgroup ha, rfl⟩
  have htexts := Template.fill_inj hsep (hfits hrun hattempt) (hfits hrun' hattempt') h
  simpa using htexts

/-- Once a version has what the branches of a run hold, no later one is made for that run. -/
theorem merged_not_again (hexits : ∀ p, w₀.exits p = none)
    {s : System Command Answer (Remote P) P} (h : Reach (exec cut) (start tools jobs w₀) s)
    {before after : List Version} {v : Version} (hsince : since w₀ s.world = before ++ v :: after)
    (hrun : isNumber runId = true) (hattempt : isNumber attempt = true)
    (hmerged : ∀ branch tree t, s.world.branches.get? branch = some tree →
      parseAny tools branch = .ok t → t.runId = runId → t.attempt = attempt →
      ∀ path e, tree.get? path = some e → v.tree.Has path e) :
    ∀ v' ∈ after, v'.message ≠ aggregateMessage runId attempt := by
  intro v' hv' hmessage
  have hkept := kept_of_reach hexits h
  obtain ⟨between, rest, rfl⟩ := List.append_of_mem hv'
  have hsplit : since w₀ s.world = (before ++ v :: between) ++ v' :: rest := by
    rw [hsince, List.append_assoc, List.cons_append]
  -- The version that was fetched: `v`, or one that follows it.
  obtain ⟨u, hu⟩ : ∃ u, (before ++ v :: between).getLast? = some u :=
    ⟨_, List.getLast?_eq_some_getLast (List.append_ne_nil_of_right_ne_nil _ (List.cons_ne_nil _ _))⟩
  have hfollows : v.tree.Extends u.tree := by
    have hpairwise := hkept.pairwise
    rw [hsplit, List.append_assoc] at hpairwise
    have hmem : u ∈ v :: between := by
      rw [List.getLast?_append, List.getLast?_cons, Option.some_or] at hu
      exact List.mem_of_getLast? (by rw [List.getLast?_cons, hu])
    rcases List.mem_cons.1 hmem with rfl | hmem
    · exact .refl _
    · have hafter := (List.pairwise_append.1 hpairwise).2.1
      exact (List.rel_of_pairwise_cons hafter (List.mem_append_left _ hmem)).1
  have hchain := hkept.chain
  rw [hsplit, List.isChain_append] at hchain
  obtain ⟨runId', attempt', hrun', hattempt', hmessage', ⟨new, hfiles, hnew⟩, hne, -⟩ :=
    hchain.2.2 u hu v' rfl
  obtain ⟨rfl, rfl⟩ := aggregateMessage_inj hrun' hattempt' hrun hattempt
    (hmessage'.symm.trans hmessage)
  obtain ⟨q, hq⟩ : ∃ q, q ∈ new := by
    refine List.exists_mem_of_ne_nil new fun hnil => hne ?_
    rw [hfiles, hnil, List.append_nil]
  obtain ⟨branch, tree, t, hbranch, ht, hrunEq, hattemptEq, he, -⟩ := hnew q hq
  obtain ⟨e, hget, -⟩ := hmerged branch tree t hbranch ht hrunEq hattemptEq q.1 q.2 he
  have hfresh := Tree.fresh_of_append hfiles hq
  rw [hfollows q.1 e hget] at hfresh
  cases hfresh

/-! ## A run of one aggregator -/

section
variable {p : P} {base staged staged' : Tree}

theorem runs_fetchPool {v : Version} (h : w.versions.getLast? = some v) :
    Runs (exec cut) p w fetchPool.run (.ok (w.versions.length, v.tree)) w :=
  Runs.script_bind (.script_query ⟨rfl, .inr ⟨v, h, rfl⟩⟩) .ret

theorem runs_fetchBranch {branch : Str} {tree : Tree} (h : w.branches.get? branch = some tree) :
    Runs (exec cut) p w (fetchBranch branch).run (.ok tree) w :=
  Runs.script_bind (a := some tree) (.script_query ⟨rfl, .inr h.symm⟩) .ret

/-- A branch of another run is passed over. -/
theorem runs_take_other {branch : Str} {rest : List Str} {t : Tuple} {r : Except Nat Tree}
    (ht : parseAny tools branch = .ok t) (hother : ¬ (t.runId = runId ∧ t.attempt = attempt))
    (hrest : Runs (exec cut) p w (takeBranches tools runId attempt base rest staged).run r w) :
    Runs (exec cut) p w (takeBranches tools runId attempt base (branch :: rest) staged).run r w := by
  refine Runs.script_check ht ?_
  rw [if_neg hother]
  exact hrest

/-- One of the run is taken, line by line. -/
theorem runs_take_own {branch : Str} {rest : List Str} {t : Tuple} {r : Except Nat Tree}
    {tree : Tree} {baseOid lines : Dict Str Entry} (ht : parseAny tools branch = .ok t)
    (hown : t.runId = runId ∧ t.attempt = attempt) (hbranch : w.branches.get? branch = some tree)
    (hbase : Lists cut base.files baseOid) (hlines : Lists cut tree.files lines)
    (hfold : lines.foldlM (takeLine tools t baseOid) staged = .ok staged')
    (hrest : Runs (exec cut) p w (takeBranches tools runId attempt base rest staged').run r w) :
    Runs (exec cut) p w (takeBranches tools runId attempt base (branch :: rest) staged).run r w := by
  refine Runs.script_check ht ?_
  rw [if_pos hown]
  refine Runs.script_bind (runs_fetchBranch hbranch) ?_
  refine Runs.script_bind (.script_query ⟨rfl, hbase⟩) ?_
  exact Runs.script_bind (.script_query ⟨rfl, hlines⟩) (Runs.script_check hfold hrest)

/-- An aggregator that finds the pool where it fetched it pushes what it has staged. -/
theorem runs_aggregate {v : Version} {refs : List Str} {count : Str}
    (hargs : checkArguments runId attempt count = .ok ())
    (hlast : w.versions.getLast? = some v) (hrefs : Lists cut w.branches.keys refs)
    (htake : Runs (exec cut) p w (takeBranches tools runId attempt v.tree refs v.tree).run
      (.ok staged) w)
    (hgate : capacityGate staged.checkout [] = 0) (hnew : staged.files ≠ v.tree.files) :
    Runs (exec cut) p w (aggregate tools runId attempt count).run (.ok ())
      { w with versions := w.versions ++ [⟨staged, aggregateMessage runId attempt⟩] } := by
  refine Runs.script_check hargs (Runs.script_bind (runs_fetchPool hlast) ?_)
  refine Runs.script_bind (.script_query ⟨rfl, hrefs⟩) (Runs.script_bind htake ?_)
  refine Runs.script_check (a := ()) (refuse_eq_ok.2 (not_not.2 hgate)) ?_
  refine Runs.script_check (a := ()) (refuse_eq_ok.2 hnew) ?_
  exact Runs.script_bind (a := true) (.script_query (.inl ⟨rfl, rfl⟩)) .ret

/-- A script that has run leaves how it ended. -/
theorem runs_program {job : Job} {status : Except Nat Unit}
    (h : Runs (exec cut) p w (job.script tools).run status w') :
    Runs (exec cut) p w (Job.program tools job) ()
      { w' with exits := Function.update w'.exits p (some status) } := by
  have hexit : exec cut p w' (.exit status) ()
      { w' with exits := Function.update w'.exits p (some status) } := rfl
  exact Runs.bind h (.perform hexit)

end

/-! ## One branch -/

/-- Two contents, and a name for each. -/
def oneTools : Tools where
  checkRefFormat _ := true
  sha1 content := .ofList (List.replicate 40 (if content = [0] then 'a' else 'b'))
  floatIs _ _ := false
  gpg bundle := !bundle.isEmpty

def onePath (content : Bytes) : Str :=
  text "corpus/cmp_ecdsa_online/" ++ text (oneTools.sha1 content)

def emptyTree : Tree := ⟨[], List.nodup_nil⟩

def oneTuple : Tuple := ⟨text "100", text "1", text "cmp_ecdsa_online", text "0"⟩

/-- The first unit alone. -/
def firstTree : Tree := emptyTree.put (onePath [0]) [0]

/-- A branch of two units. -/
def oneTree : Tree := firstTree.put (onePath [1]) [1]

def oneRemote : Remote Unit := ⟨[⟨emptyTree, []⟩], [(branchPath oneTuple, oneTree)], fun _ => none⟩

def oneJob : Job := .aggregate (text "100") (text "1") (text "1")

theorem one_reads : parseAny oneTools (branchPath oneTuple) = .ok oneTuple ∧
    oneTree.files.foldlM (takeLine oneTools oneTuple []) emptyTree = .ok oneTree ∧
    (oneTree.files.take 1).foldlM (takeLine oneTools oneTuple []) emptyTree = .ok firstTree ∧
    oneTree.get? (onePath [1]) = some (.file [1]) ∧ firstTree.get? (onePath [1]) = none := by
  decide

/-- A tree that an aggregator pushes where the pool is another. -/
def Pushable (t : Tree) : Prop := capacityGate t.checkout [] = 0 ∧ t.files ≠ []

theorem one_pushable : Pushable oneTree ∧ Pushable firstTree ∧
    oneTree.files ≠ firstTree.files := by
  unfold Pushable
  decide

/-- The aggregator of the run, shown these lines of the branch. -/
theorem one_reach {cut : Bool} {lines : Dict Str Entry} {staged : Tree}
    (hlines : Lists cut oneTree.files lines)
    (hfold : lines.foldlM (takeLine oneTools oneTuple []) emptyTree = .ok staged)
    (hpush : Pushable staged) :
    ∃ s, Reach (exec cut) (start oneTools (fun _ => some oneJob) oneRemote) s ∧
      s.world.exits () = some (.ok ()) ∧ s.world.branches = oneRemote.branches ∧
      s.world.versions =
        [⟨emptyTree, []⟩, ⟨staged, aggregateMessage (text "100") (text "1")⟩] := by
  have hbranch : oneRemote.branches.get? (branchPath oneTuple) = some oneTree := rfl
  have hlast : oneRemote.versions.getLast? = some ⟨emptyTree, []⟩ := rfl
  have htake : Runs (exec cut) () oneRemote (takeBranches oneTools (text "100") (text "1") emptyTree
      oneRemote.branches.keys emptyTree).run (.ok staged) oneRemote :=
    runs_take_own one_reads.1 ⟨rfl, rfl⟩ hbranch (.refl _) hlines hfold .ret
  have hrun : Runs (exec cut) () oneRemote (Job.program oneTools oneJob) () _ :=
    runs_program (runs_aggregate (by decide) hlast (.refl _) htake hpush.1 hpush.2)
  have hstart : (start oneTools (fun _ => some oneJob) oneRemote).procs () =
      some (Job.program oneTools oneJob) := rfl
  obtain ⟨procs, hreach, -⟩ := hrun.reach hstart
  refine ⟨_, hreach, ?_, rfl, rfl⟩
  dsimp only
  rw [Function.update_self]

/-- The guarantee stands just where no listing is cut short: `git ls-tree` is read through a process
substitution, of which the script never sees the status. -/
theorem merges_iff_whole (cut : Bool) : Merges cut ↔ cut = false := by
  refine ⟨fun h => ?_, fun h => h ▸ merges_whole⟩
  by_contra hcut
  obtain rfl : cut = true := by simpa using hcut
  have hlines : Lists true oneTree.files (oneTree.files.take 1) :=
    ⟨oneTree.files, .refl _, List.take_prefix 1 _⟩
  obtain ⟨hparse, -, hfold, hunit, hmissing⟩ := one_reads
  obtain ⟨s, hreach, hexit, -, hversions⟩ := one_reach hlines hfold one_pushable.2.1
  obtain ⟨v, hv, hall⟩ := h Unit inferInstance oneTools oneRemote _ _ s (fun _ => rfl) .refl hreach
    () _ _ _ rfl rfl rfl hexit (branchPath oneTuple) oneTree oneTuple rfl hparse rfl rfl
  rw [hversions] at hv
  obtain rfl : _ = v := Option.some.inj hv
  obtain ⟨e, he, -⟩ := hall (onePath [1]) (.file [1]) hunit
  exact absurd (hmissing.symm.trans he) (Option.some_ne_none e).symm

/-! ## Two runs -/

/-- The second unit alone. -/
def secondTree : Tree := emptyTree.put (onePath [1]) [1]

def otherTuple : Tuple := ⟨text "200", text "1", text "cmp_ecdsa_online", text "0"⟩

/-- A branch of each run, over a pool without a file. -/
def twoRemote : Remote Bool :=
  ⟨[⟨emptyTree, []⟩], [(branchPath oneTuple, firstTree), (branchPath otherTuple, secondTree)],
    fun _ => none⟩

/-- An aggregator for each run. -/
def twoJobs (p : Bool) : Option Job :=
  some (.aggregate (if p then text "200" else text "100") (text "1") (text "1"))

/-- The version of the first run. -/
def firstVersion : Version := ⟨firstTree, aggregateMessage (text "100") (text "1")⟩

/-- The version of the second, on top of it. -/
def secondVersion : Version := ⟨oneTree, aggregateMessage (text "200") (text "1")⟩

theorem two_reads : parseAny oneTools (branchPath otherTuple) = .ok otherTuple ∧
    twoRemote.branches.get? (branchPath otherTuple) = some secondTree ∧
    firstTree.files.foldlM (takeLine oneTools oneTuple []) emptyTree = .ok firstTree ∧
    secondTree.files.foldlM (takeLine oneTools otherTuple firstTree.files) firstTree =
      .ok oneTree := by
  decide

/-- One aggregator after the other. -/
theorem two_reach : ∃ s, Reach (exec false) (start oneTools twoJobs twoRemote) s ∧
    s.world.branches = twoRemote.branches ∧
    s.world.versions = [⟨emptyTree, []⟩, firstVersion, secondVersion] := by
  have hone : twoRemote.branches.get? (branchPath oneTuple) = some firstTree := rfl
  obtain ⟨hparse, htwo, hfirst, hsecond⟩ := two_reads
  have hother : ¬ (otherTuple.runId = text "100" ∧ otherTuple.attempt = text "1") := by decide
  have hothers : ¬ (oneTuple.runId = text "200" ∧ oneTuple.attempt = text "1") := by decide
  have hstart : (start oneTools twoJobs twoRemote).procs false =
      some (Job.program oneTools (.aggregate (text "100") (text "1") (text "1"))) := rfl
  have hrun : Runs (exec false) false twoRemote
      (Job.program oneTools (.aggregate (text "100") (text "1") (text "1"))) () _ :=
    runs_program (runs_aggregate (by decide) rfl (.refl _)
      (runs_take_own one_reads.1 ⟨rfl, rfl⟩ hone (.refl _) (.refl _) hfirst
        (runs_take_other hparse hother .ret)) one_pushable.2.1.1 one_pushable.2.1.2)
  obtain ⟨procs, hreach, hstays⟩ := hrun.reach hstart
  have hnext : Runs (exec false) true { twoRemote with
        versions := [⟨emptyTree, []⟩, firstVersion]
        exits := Function.update (fun _ => none) false (some (.ok ())) }
      (Job.program oneTools (.aggregate (text "200") (text "1") (text "1"))) () _ :=
    runs_program (runs_aggregate (by decide) rfl (.refl _)
      (runs_take_other one_reads.1 hothers
        (runs_take_own hparse ⟨rfl, rfl⟩ htwo (.refl _) (.refl _) hsecond .ret)) one_pushable.1.1
      one_pushable.2.2)
  obtain ⟨procs', hreach', -⟩ := hnext.reach (hstays true (by decide))
  exact ⟨_, hreach.trans hreach', rfl, rfl⟩

/-- Each version follows those before it. -/
theorem pool_history_two : ∃ s, Reach (exec false) (start oneTools twoJobs twoRemote) s ∧
    s.world.versions.length = 3 ∧ (since twoRemote s.world).Pairwise (Follows oneTools s.world) := by
  obtain ⟨s, hreach, -, hversions⟩ := two_reach
  exact ⟨s, hreach, by rw [hversions]; rfl, (pool_history (fun _ => rfl) .refl hreach).2.2⟩

/-- Run 100 is merged first, and the version that comes after is not of it. -/
theorem merged_not_again_two : ∃ s, Reach (exec false) (start oneTools twoJobs twoRemote) s ∧
    since twoRemote s.world = [⟨emptyTree, []⟩] ++ firstVersion :: [secondVersion] ∧
    s.world.branches.get? (branchPath oneTuple) = some firstTree ∧
    secondVersion.message ≠ aggregateMessage (text "100") (text "1") := by
  obtain ⟨s, hreach, hbranches, hversions⟩ := two_reach
  have hsince : since twoRemote s.world = [⟨emptyTree, []⟩] ++ firstVersion :: [secondVersion] := by
    rw [since, hversions]
    rfl
  refine ⟨s, hreach, hsince, by rw [hbranches]; rfl, merged_not_again (fun _ => rfl) hreach hsince
    (by decide) (by decide) (fun branch tree t hbranch ht hrun _ path e he => ?_) _
    (List.mem_singleton.2 rfl)⟩
  rw [hbranches] at hbranch
  rcases List.mem_cons.1 (Dict.mem_of_get? hbranch) with heq | hmem
  · obtain ⟨-, rfl⟩ := Prod.mk.inj heq
    exact ⟨e, he, rfl⟩
  · obtain ⟨rfl, -⟩ := Prod.mk.inj (List.mem_singleton.1 hmem)
    rw [two_reads.1] at ht
    obtain rfl := Except.ok.inj ht
    exact absurd hrun (by decide)

/-! ## A legacy branch -/

def legacyBranch : Str := text "ingest/run-100/attempt-1/shard-0"

/-- The pool has one of the two units of a legacy branch. -/
def legacyRemote : Remote Unit :=
  ⟨[⟨firstTree, []⟩], [(legacyBranch, oneTree)], fun _ => none⟩

theorem legacy_reads : parseAny oneTools legacyBranch = .ok oneTuple ∧
    corpusUnitFor oneTuple.harness (text (oneTools.sha1 [0])) = .ok (onePath [0]) ∧
    corpusUnitFor oneTuple.harness (text (oneTools.sha1 [1])) = .ok (onePath [1]) ∧
    firstTree.files = [(onePath [0], .file [0])] ∧
    oneTree.files.foldlM (takeLine oneTools oneTuple firstTree.files) firstTree = .ok oneTree := by
  decide

/-- Its aggregator adds the unit that the pool lacks. -/
theorem legacy_runs : Runs (exec false) () legacyRemote (oneJob.script oneTools).run (.ok ())
    { legacyRemote with versions :=
        legacyRemote.versions ++ [⟨oneTree, aggregateMessage (text "100") (text "1")⟩] } :=
  runs_aggregate (by decide) rfl (.refl _)
    (runs_take_own legacy_reads.1 ⟨rfl, rfl⟩ rfl (.refl _) (.refl _) legacy_reads.2.2.2.2 .ret)
    one_pushable.1.1 one_pushable.2.2

/-- The unit of the pool is named by its content, and so is the one that comes in. -/
theorem pool_named_legacy :
    ∃ s, Reach (exec false) (start oneTools (fun _ => some oneJob) legacyRemote) s ∧
      s.world.versions = [⟨firstTree, []⟩, ⟨oneTree, aggregateMessage (text "100") (text "1")⟩] ∧
      ∀ v ∈ since legacyRemote s.world, CorpusNamed oneTools v.tree := by
  have hnamed : CorpusNamed oneTools firstTree := by
    intro path e he _
    have hq := Tree.mem_files_iff.2 he
    rw [legacy_reads.2.2.2.1] at hq
    obtain ⟨rfl, rfl⟩ := Prod.mk.inj (List.mem_singleton.1 hq)
    exact ⟨oneTuple.harness, [0], rfl, legacy_reads.2.1⟩
  have hstart : (start oneTools (fun _ => some oneJob) legacyRemote).procs () =
      some (Job.program oneTools oneJob) := rfl
  have hrun : Runs (exec false) () legacyRemote (Job.program oneTools oneJob) () _ :=
    runs_program legacy_runs
  obtain ⟨procs, hreach, -⟩ := hrun.reach hstart
  have hreach : Reach (exec false) (start oneTools (fun _ => some oneJob) legacyRemote) _ := hreach
  exact ⟨_, hreach, rfl, pool_named (fun _ => rfl) rfl hnamed hreach⟩

end MpcHunt.Brain
