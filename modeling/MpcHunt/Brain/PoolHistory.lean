/-
What publishers and aggregators keep, in any number and in any order, cut off
at any step: no version of the pool is lost and no branch changes; each new
version holds the one before it and, after that, files that a branch of its
run holds at their own paths; each new branch is what a publisher staged.
-/
import MpcHunt.Brain.Staging

namespace MpcHunt.Brain

open Checks Digits MaterializeWindow ShellNumber Processes

section
variable {P : Type}

/-- The remote goes on: no version is lost, no branch changes. -/
structure Remote.Later (w w' : Remote P) : Prop where
  versions : w.versions <+: w'.versions
  branches : ∀ b t, w.branches.get? b = some t → w'.branches.get? b = some t

theorem Remote.Later.refl (w : Remote P) : w.Later w := ⟨List.prefix_refl _, fun _ _ h => h⟩

theorem Remote.Later.trans {w w' w'' : Remote P} (h : w.Later w') (h' : w'.Later w'') :
    w.Later w'' :=
  ⟨h.versions.trans h'.versions, fun b t hb => h'.branches b t (h.branches b t hb)⟩

/-- The versions from the last one of the start on. -/
def since (w₀ w : Remote P) : List Version :=
  w₀.versions.getLast?.toList ++ w.versions.drop w₀.versions.length

section
variable (tools : Tools)

/-- A branch of the run holds the file, at a path that is its own. -/
def Offered (w : Remote P) (runId attempt : Str) (path : Str) (e : Entry) : Prop :=
  ∃ branch tree t, w.branches.get? branch = some tree ∧ parseAny tools branch = .ok t ∧
    t.runId = runId ∧ t.attempt = attempt ∧ tree.get? path = some e ∧
    Genuine tools t path e

/-- After the files of the pool, files that branches of the run hold. -/
def StagedFor (w : Remote P) (runId attempt : Str) (base staged : Tree) : Prop :=
  ∃ new, staged.files = base.files ++ new ∧
    ∀ p ∈ new, Offered tools w runId attempt p.1 p.2

/-- A version that an aggregator pushed, after the one it was staged on. -/
def Aggregated (w : Remote P) (v v' : Version) : Prop :=
  ∃ runId attempt, isNumber runId = true ∧ isNumber attempt = true ∧
    v'.message = aggregateMessage runId attempt ∧
    StagedFor tools w runId attempt v.tree v'.tree ∧ v'.tree.files ≠ v.tree.files ∧
    capacityGate v'.tree.checkout [] = 0

/-- A branch that a publisher pushed: the units that were listed to it, staged on a version of the
pool. -/
def Published (cut : Bool) (w₀ w : Remote P) (p : Publication) (branch : Str) (tree : Tree) : Prop :=
  ∃ harness bundle units found v, p.check = .ok (harness, bundle) ∧ p.units tools = .ok units ∧
    Lists cut units found ∧ tools.gpg bundle = true ∧ v ∈ since w₀ w ∧
    p.stage tools harness bundle (sortUnits found) v.tree = .ok tree ∧
    branchFor tools.checkRefFormat (p.tuple harness) = .ok branch

variable (w₀ : Remote P) (cut : Bool) (jobs : P → Option Job) (begun : P → Remote P)

/-- A version after those of the start holds whatever the branches of the run did at `b`. -/
def Merged (b w : Remote P) (runId attempt : Str) : Prop :=
  ∃ v ∈ w.versions.drop w₀.versions.length, ∀ branch tree t,
    b.branches.get? branch = some tree → parseAny tools branch = .ok t → t.runId = runId →
    t.attempt = attempt → ∀ path e, tree.get? path = some e → v.tree.Has path e

/-- What a script that began at `b` and exits 0 has done. -/
def Succeeded (b w : Remote P) : Job → Prop
  | .publish p => ∃ branch tree, w.branches.get? branch = some tree ∧
      Published tools cut w₀ w p branch tree
  | .aggregate runId attempt _ => cut = false → Merged tools w₀ b w runId attempt

/-- What every run keeps, where each script began at its own time. -/
structure Kept (w : Remote P) : Prop where
  later : w₀.Later w
  chain : (since w₀ w).IsChain (Aggregated tools w)
  branches : ∀ b t, w.branches.get? b = some t → w₀.branches.get? b = some t ∨
    ∃ p pub, jobs p = some (.publish pub) ∧ Published tools cut w₀ w pub b t
  exits : ∀ p job, jobs p = some job → w.exits p = some (.ok ()) →
    Succeeded tools w₀ cut (begun p) w job

def discipline : Discipline (Remote P) P where
  Inv := Kept tools w₀ cut jobs begun
  Rely _ w w' := w.Later w'
  refl _ w := .refl w
  trans h h' := h.trans h'

end

/-! ## The remote -/

section
variable {w w' : Remote P}

/-- A branch more, where there is none of its name. -/
theorem get?_added {branch : Str} (hfree : w.branches.get? branch = none) (tree : Tree) (b : Str) :
    Dict.get? (w.branches ++ [(branch, tree)]) b =
      if b = branch then some tree else w.branches.get? b := by
  have hnot : branch ∉ Dict.keys w.branches := by
    rw [Dict.mem_keys_iff, hfree]
    rintro ⟨t, ht⟩
    cases ht
  rw [← Dict.set_of_not_mem hnot, Dict.get?_set]

/-- No command takes anything back. -/
theorem exec_later [DecidableEq P] {cut : Bool} {p : P} {c : Command} {r : Answer c}
    (h : exec cut p w c r w') : w.Later w' := by
  cases c with
  | fetchPool | lsRemote | fetchBranch | lsTree | find | diffCached =>
    obtain ⟨rfl, -⟩ := h
    exact .refl w'
  | pushPool base tree message =>
    rcases h with ⟨-, rfl⟩ | ⟨rfl, -⟩
    · exact ⟨List.prefix_append _ _, fun _ _ h => h⟩
    · exact .refl w'
  | pushBranch branch tree =>
    rcases h with ⟨hfree, rfl⟩ | ⟨rfl, -⟩
    · refine ⟨List.prefix_refl _, fun b t hb => (get?_added hfree tree b).trans ?_⟩
      rw [if_neg, hb]
      rintro rfl
      rw [hfree] at hb
      cases hb
    · exact .refl w'
  | exit status =>
    obtain rfl := h
    exact ⟨List.prefix_refl _, fun _ _ h => h⟩

end

/-- What a process has exited with no other changes. -/
theorem exec_exits [DecidableEq P] {cut : Bool} {p q : P} (hqp : q ≠ p) {w w' : Remote P} {c : Command}
    {r : Answer c} (h : exec cut q w c r w') : w'.exits p = w.exits p := by
  cases c with
  | fetchPool | lsRemote | fetchBranch | lsTree | find | diffCached =>
    obtain ⟨rfl, -⟩ := h
    rfl
  | pushPool | pushBranch =>
    rcases h with ⟨-, rfl⟩ | ⟨rfl, -⟩
    · rfl
    · rfl
  | exit status =>
    obtain rfl := h
    exact Function.update_of_ne (Ne.symm hqp) _ _

/-! ## What stays so -/

variable {tools : Tools}
  {w₀ b w w' : Remote P} {cut : Bool} {jobs : P → Option Job} {begun : P → Remote P}
  {runId attempt : Str}

theorem Offered.later {path : Str} {e : Entry} (hlater : w.Later w')
    (h : Offered tools w runId attempt path e) :
    Offered tools w' runId attempt path e := by
  obtain ⟨branch, tree, t, hbranch, h⟩ := h
  exact ⟨branch, tree, t, hlater.branches branch tree hbranch, h⟩

theorem StagedFor.later {base staged : Tree} (hlater : w.Later w')
    (h : StagedFor tools w runId attempt base staged) :
    StagedFor tools w' runId attempt base staged := by
  obtain ⟨new, hfiles, hnew⟩ := h
  exact ⟨new, hfiles, fun p hp => (hnew p hp).later hlater⟩

theorem Aggregated.later {v v' : Version} (hlater : w.Later w')
    (h : Aggregated tools w v v') : Aggregated tools w' v v' := by
  obtain ⟨runId, attempt, hrun, hattempt, hmessage, hstaged, h⟩ := h
  exact ⟨runId, attempt, hrun, hattempt, hmessage, hstaged.later hlater, h⟩

theorem Remote.Later.mem_since {v : Version} (hlater : w.Later w')
    (h : v ∈ w.versions.drop w₀.versions.length) : v ∈ w'.versions.drop w₀.versions.length := by
  obtain ⟨more, hmore⟩ := hlater.versions
  rw [← hmore, List.drop_append]
  exact List.mem_append_left _ h

theorem Remote.Later.since_subset (hlater : w.Later w') : since w₀ w ⊆ since w₀ w' := by
  intro v hv
  rcases List.mem_append.1 hv with hv | hv
  · exact List.mem_append_left _ hv
  · exact List.mem_append_right _ (hlater.mem_since hv)

theorem Published.later {p : Publication} {branch : Str} {tree : Tree} (hlater : w.Later w')
    (h : Published tools cut w₀ w p branch tree) :
    Published tools cut w₀ w' p branch tree := by
  obtain ⟨harness, bundle, units, found, v, hcheck, hunits, hfound, hgpg, hv, h⟩ := h
  exact ⟨harness, bundle, units, found, v, hcheck, hunits, hfound, hgpg, hlater.since_subset hv, h⟩

theorem Merged.later (hlater : w.Later w') (h : Merged tools w₀ b w runId attempt) :
    Merged tools w₀ b w' runId attempt := by
  obtain ⟨v, hv, h⟩ := h
  exact ⟨v, hlater.mem_since hv, h⟩

theorem Succeeded.later {job : Job} (hlater : w.Later w')
    (h : Succeeded tools w₀ cut b w job) : Succeeded tools w₀ cut b w' job := by
  cases job with
  | publish pub =>
    obtain ⟨branch, tree, hbranch, hpublished⟩ := h
    exact ⟨branch, tree, hlater.branches branch tree hbranch, hpublished.later hlater⟩
  | aggregate runId attempt count => exact fun hcut => (h hcut).later hlater

theorem stable_of_later {Q : Remote P → Prop} (h : ∀ w w', w.Later w' → Q w → Q w') (p : P) :
    Stable (discipline tools w₀ cut jobs begun) p Q :=
  fun w w' hrely _ hw => h w w' hrely hw

theorem StagedFor.trans {base staged staged' : Tree} {new : Dict Str Entry}
    (h : StagedFor tools w runId attempt base staged)
    (hfiles : staged'.files = staged.files ++ new)
    (hnew : ∀ p ∈ new, Offered tools w runId attempt p.1 p.2) :
    StagedFor tools w runId attempt base staged' := by
  obtain ⟨first, hfirst, hoffered⟩ := h
  refine ⟨first ++ new, by rw [hfiles, hfirst, List.append_assoc], fun p hp => ?_⟩
  rcases List.mem_append.1 hp with hp | hp
  · exact hoffered p hp
  · exact hnew p hp

theorem StagedFor.extends {base staged : Tree}
    (h : StagedFor tools w runId attempt base staged) : base.Extends staged := by
  obtain ⟨new, hfiles, -⟩ := h
  exact Tree.extends_of_append hfiles

/-- The branches that were taken: each of the run is there, and what is staged has its files. -/
def Taken (tools : Tools) (w : Remote P) (runId attempt : Str) (refs : List Str)
    (staged : Tree) : Prop :=
  ∀ branch ∈ refs, ∀ t, parseAny tools branch = .ok t → t.runId = runId → t.attempt = attempt →
    ∃ tree, w.branches.get? branch = some tree ∧
      ∀ path e, tree.get? path = some e → staged.Has path e

theorem Taken.later {refs : List Str} {staged : Tree} (hlater : w.Later w')
    (h : Taken tools w runId attempt refs staged) : Taken tools w' runId attempt refs staged := by
  intro branch hmem t ht hrun hattempt
  obtain ⟨tree, htree, hall⟩ := h branch hmem t ht hrun hattempt
  exact ⟨tree, hlater.branches branch tree htree, hall⟩

/-! ## Commands -/

/-- A version that a script fetched, and that was not there before the start. -/
def Fetched (w₀ w : Remote P) (version : Nat) (base : Tree) : Prop :=
  w₀.versions.length ≤ version ∧ version ≤ w.versions.length ∧
    ∃ v, (w.versions.take version).getLast? = some v ∧ v.tree = base

theorem Fetched.later {version : Nat} {base : Tree} (hlater : w.Later w')
    (h : Fetched w₀ w version base) : Fetched w₀ w' version base := by
  obtain ⟨hstart, hle, v, hv, htree⟩ := h
  obtain ⟨more, hmore⟩ := hlater.versions
  refine ⟨hstart, hle.trans hlater.versions.length_le, v, ?_, htree⟩
  rw [← hmore, List.take_append_of_le_length hle]
  exact hv

/-- The last version of the start and those after it end where all versions do. -/
theorem getLast?_since (h : w₀.Later w) : (since w₀ w).getLast? = w.versions.getLast? := by
  obtain ⟨added, hadded⟩ := h.versions
  rw [since, ← hadded, List.drop_left, List.getLast?_append, List.getLast?_append]
  cases w₀.versions.getLast? <;> rfl

theorem Fetched.mem_since {version : Nat} {base : Tree} (hlater : w₀.Later w)
    (h : Fetched w₀ w version base) : ∃ v ∈ since w₀ w, v.tree = base := by
  obtain ⟨hstart, hle, v, hv, htree⟩ := h
  have hthen : w₀.Later ⟨w.versions.take version, w.branches, w.exits⟩ :=
    ⟨List.prefix_take_iff.2 ⟨hlater.versions, hstart⟩, hlater.branches⟩
  rw [← getLast?_since hthen] at hv
  have hsub : (⟨w.versions.take version, w.branches, w.exits⟩ : Remote P).Later w :=
    ⟨List.take_prefix _ _, fun _ _ h => h⟩
  exact ⟨v, hsub.since_subset (List.mem_of_getLast? hv), htree⟩

section
variable (hkept : Kept tools w₀ cut jobs begun w)
include hkept

/-- Where the remote goes on and nobody exits, only what is new is to be shown. -/
theorem Kept.later_of (hlater : w.Later w') (hexits : w'.exits = w.exits)
    (hchain : (since w₀ w').IsChain (Aggregated tools w'))
    (hbranches : ∀ b t, w'.branches.get? b = some t → w.branches.get? b = some t ∨
      ∃ p pub, jobs p = some (.publish pub) ∧ Published tools cut w₀ w' pub b t) :
    Kept tools w₀ cut jobs begun w' := by
  refine ⟨hkept.later.trans hlater, hchain, fun b t hb => ?_, fun p job hjob hexit => ?_⟩
  · rcases hbranches b t hb with hb | hb
    · rcases hkept.branches b t hb with hb | ⟨p, pub, hjob, hpub⟩
      · exact .inl hb
      · exact .inr ⟨p, pub, hjob, hpub.later hlater⟩
    · exact .inr hb
  · rw [hexits] at hexit
    exact (hkept.exits p job hjob hexit).later hlater

/-- An aggregator's push: another version, or none. -/
theorem Kept.pushPool {version : Nat} {base staged : Tree} (hbase : Fetched w₀ w version base)
    (hrun : isNumber runId = true) (hattempt : isNumber attempt = true)
    (hstaged : StagedFor tools w runId attempt base staged)
    (hnew : staged.files ≠ base.files) (hgate : capacityGate staged.checkout [] = 0)
    [DecidableEq P] {p : P} {r : Bool}
    (hexec : exec cut p w (.pushPool version staged (aggregateMessage runId attempt)) r w') :
    Kept tools w₀ cut jobs begun w' ∧ w.Later w' ∧
      (r = true →
        Version.mk staged (aggregateMessage runId attempt) ∈ w'.versions.drop w₀.versions.length) := by
  obtain ⟨hstart, hle, v, hv, rfl⟩ := hbase
  have hlater := exec_later hexec
  rcases hexec with ⟨hlength, rfl⟩ | ⟨rfl, hthere⟩
  · rw [← hlength, List.take_length] at hv
    have hdrop : (w.versions ++ [Version.mk staged (aggregateMessage runId attempt)]).drop
          w₀.versions.length = w.versions.drop w₀.versions.length ++
        [Version.mk staged (aggregateMessage runId attempt)] :=
      List.drop_append_of_le_length (hlength.symm ▸ hstart)
    refine ⟨hkept.later_of hlater rfl ?_ fun b t hb => .inl hb, hlater, fun _ => ?_⟩
    · show List.IsChain _ (_ ++ List.drop _ (w.versions ++ _))
      rw [hdrop, ← List.append_assoc, List.isChain_append]
      refine ⟨hkept.chain.imp fun a b h => h.later hlater, .singleton _, fun a ha b hb => ?_⟩
      obtain rfl : v = a := Option.some.inj (hv.symm.trans
        ((getLast?_since hkept.later).symm.trans ha))
      obtain rfl := Option.some.inj hb
      exact ⟨runId, attempt, hrun, hattempt, rfl, hstaged.later hlater, hnew, hgate⟩
    · show _ ∈ List.drop _ (w.versions ++ _)
      rw [hdrop]
      exact List.mem_append_right _ (List.mem_singleton.2 rfl)
  · refine ⟨hkept, .refl w', fun hr => ?_⟩
    obtain ⟨hlength, hlast⟩ := hthere hr
    refine List.mem_of_getLast? (?_ : (w'.versions.drop w₀.versions.length).getLast? = some _)
    rw [List.getLast?_drop, if_neg (by omega), hlast]

/-- A publisher's push: another branch, or none. -/
theorem Kept.pushBranch {pub : Publication} {branch : Str} {tree : Tree} {p : P}
    (hjob : jobs p = some (.publish pub)) (hpub : Published tools cut w₀ w pub branch tree)
    [DecidableEq P] {r : Bool} (hexec : exec cut p w (.pushBranch branch tree) r w') :
    Kept tools w₀ cut jobs begun w' ∧ w.Later w' ∧
      (r = true → w'.branches.get? branch = some tree) := by
  have hlater := exec_later hexec
  rcases hexec with ⟨hfree, rfl⟩ | ⟨rfl, hthere⟩
  · refine ⟨hkept.later_of hlater rfl (hkept.chain.imp fun a b h => h.later hlater)
      fun b t hb => ?_, hlater, fun _ => ?_⟩
    · rw [get?_added hfree] at hb
      by_cases hsame : b = branch
      · rw [if_pos hsame] at hb
        obtain rfl := Option.some.inj hb
        exact .inr ⟨p, pub, hjob, (hsame ▸ hpub).later hlater⟩
      · rw [if_neg hsame] at hb
        exact .inl hb
    · show Dict.get? (w.branches ++ _) _ = _
      rw [get?_added hfree, if_pos rfl]
  · exact ⟨hkept, .refl w', hthere⟩

/-- The end of a script that has done what it is for, or says that it has not. -/
theorem Kept.exit [DecidableEq P] {p : P} {job : Job} (hjob : jobs p = some job)
    {status : Except Nat Unit}
    (hdone : status = .ok () → Succeeded tools w₀ cut (begun p) w job) :
    Kept tools w₀ cut jobs begun { w with exits := Function.update w.exits p (some status) } := by
  have hlater : w.Later { w with exits := Function.update w.exits p (some status) } :=
    ⟨List.prefix_refl _, fun _ _ h => h⟩
  refine ⟨hkept.later.trans hlater, hkept.chain.imp fun a b h => h.later hlater, fun b t hb => ?_,
    fun q job' hjob' hexit => ?_⟩
  · rcases hkept.branches b t hb with hb | ⟨q, pub, hq, hpub⟩
    · exact .inl hb
    · exact .inr ⟨q, pub, hq, hpub.later hlater⟩
  · dsimp only at hexit
    by_cases hqp : q = p
    · subst hqp
      obtain rfl := Option.some.inj (hjob.symm.trans hjob')
      rw [Function.update_self] at hexit
      exact (hdone (Option.some.inj hexit)).later hlater
    · rw [Function.update_of_ne hqp] at hexit
      exact (hkept.exits q job' hjob' hexit).later hlater

end

/-! ## Versions -/

/-- The later version holds the earlier one, and beyond it only files that branches hold at paths
of their own. -/
def Follows (tools : Tools) (w : Remote P)
    (v v' : Version) : Prop :=
  v.tree.Extends v'.tree ∧ ∀ path e, v'.tree.get? path = some e → v.tree.get? path = some e ∨
    ∃ runId attempt, Offered tools w runId attempt path e

theorem Aggregated.follows {v v' : Version} (h : Aggregated tools w v v') :
    Follows tools w v v' := by
  obtain ⟨runId, attempt, -, -, -, hstaged, -⟩ := h
  refine ⟨hstaged.extends, fun path e he => ?_⟩
  obtain ⟨new, hfiles, hnew⟩ := hstaged
  rcases (Tree.get?_of_append hfiles).1 he with he | he
  · exact .inl he
  · exact .inr ⟨runId, attempt, hnew _ he⟩

theorem Follows.trans {v v' v'' : Version} (h : Follows tools w v v')
    (h' : Follows tools w v' v'') : Follows tools w v v'' := by
  refine ⟨h.1.trans h'.1, fun path e he => ?_⟩
  rcases h'.2 path e he with he | hoffered
  · exact h.2 path e he
  · exact .inr hoffered

theorem Kept.pairwise (h : Kept tools w₀ cut jobs begun w) :
    (since w₀ w).Pairwise (Follows tools w) := by
  have htrans : IsTrans Version (Follows tools w) := ⟨fun _ _ _ h h' => h.trans h'⟩
  exact List.isChain_iff_pairwise.1 (h.chain.imp fun v v' h => h.follows)

end

end MpcHunt.Brain
