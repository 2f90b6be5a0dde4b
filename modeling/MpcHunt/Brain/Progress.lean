/-
What can stand in the way of an aggregator that runs alone: a fetch, the
capacity gate, nothing new, or a push that is refused. Whatever publishers
have pushed, no branch of its run is refused, and all of them are staged: no
two branches mean different files by one path, and none is in the way of
another.
-/
import MpcHunt.Brain.Publishing

namespace MpcHunt.Brain

open Checks Digits MaterializeWindow ShellNumber Processes

variable {tools : Tools}

/-! ## Paths -/

theorem count_harness {harness : Str} (h : brainIsHarness harness = true) : harness.count 47 = 0 := by
  obtain ⟨known, hmem, rfl⟩ := brainIsHarness_iff.1 h
  exact count_slash (show isWord 47 = false from rfl) (isWord_harness known hmem).2

theorem count_unit {name : Str} (h : unitRe.fullmatch name = true) : name.count 47 = 0 := by
  have hwithin : Re.Within (fun c => isWord c = true) unitRe := by
    intro c hc
    simp only [isWord, Bool.or_eq_true, Bool.and_eq_true, decide_eq_true_eq] at hc ⊢
    rcases hc with hdigit | hletter
    · exact .inl (.inr hdigit)
    · exact .inl (.inl (by omega))
  exact count_slash (show isWord 47 = false from rfl)
    (Re.forall_of_within hwithin ((Re.fullmatch_iff _ _).1 h))

theorem Own.count {t : Tuple} {path : Str} (h : Own t path) : path.count 47 = 2 := by
  have hlits : (text "telemetry/run-").count 47 = 1 ∧ (text "incidents/run-").count 47 = 1 ∧
      (text "/").count 47 = 1 ∧ (text "-attempt-").count 47 = 0 ∧ (text "-shard-").count 47 = 0 ∧
      (text ".json").count 47 = 0 ∧ (text ".gpg").count 47 = 0 := by decide
  obtain ⟨htel, hinc, hslash, hattempt, hshard, hjson, hgpg⟩ := hlits
  have hfill : t.Valid ∧ (path = Template.fill telemetryPattern (fileTexts t) ∨
      path = Template.fill incidentPattern (fileTexts t)) := by
    rcases h with h | h
    · exact ⟨(telemetryFor_eq_ok.1 h).1, .inl (telemetryFor_eq_ok.1 h).2⟩
    · exact ⟨(incidentFor_eq_ok.1 h).1, .inr (incidentFor_eq_ok.1 h).2⟩
  obtain ⟨hvalid, hpath⟩ := hfill
  obtain ⟨⟨-, hr⟩, ⟨-, ha⟩, -, hs⟩ := hvalid.digits
  have hr := count_slash (show isDigit 47 = false from rfl) hr
  have ha := count_slash (show isDigit 47 = false from rfl) ha
  have hs := count_slash (show isDigit 47 = false from rfl) hs
  have hw := count_slash (show isWord 47 = false from rfl) hvalid.word.2
  rcases hpath with rfl | rfl
  · simp [telemetryPattern, fileTexts, Template.fill, List.count_append, htel, hslash, hattempt,
      hshard, hjson, hr, ha, hs, hw]
  · simp [incidentPattern, fileTexts, Template.fill, List.count_append, hinc, hslash, hattempt,
      hshard, hgpg, hr, ha, hs, hw]

/-- All files that publishers add are equally deep, so none is in the way of another. -/
theorem Genuine.count {t : Tuple} {path : Str} {e : Entry} (h : Genuine tools t path e) :
    path.count 47 = 2 := by
  obtain ⟨content, -, hunit | hown⟩ := h.cases
  · obtain ⟨hharness, hname, rfl⟩ := corpusUnitFor_eq_ok.1 hunit
    have hlits : (text "corpus/").count 47 = 1 ∧ (text "/").count 47 = 1 := by decide
    simp only [List.count_append, hlits, count_harness hharness, count_unit hname]
  · exact hown.count

theorem not_under {path path' : Str} (h : path.count 47 = 2) (h' : path'.count 47 = 2) :
    ¬ path ++ text "/" <+: path' ∧ ¬ path ++ text "/" <+: Tree.dirname path' ++ text "/" := by
  have hunder : ¬ path ++ text "/" <+: path' := by
    intro hprefix
    have hle := hprefix.sublist.count_le 47
    rw [List.count_append, h, h'] at hle
    exact absurd hle (by decide)
  have hslash : 47 ∈ path' := List.count_pos_iff.1 (by omega)
  exact ⟨hunder, fun hpath => hunder (hpath.trans (Tree.dirname_prefix hslash))⟩

/-! ## Room for a file -/

/-- Nothing but the file itself is at the path, and nothing is in its way. -/
def Tree.Room (t : Tree) (path : Str) (e : Entry) : Prop :=
  ∀ path' e', t.get? path' = some e' → (path' = path → e' = e) ∧ ¬ path ++ text "/" <+: path' ∧
    ¬ path' ++ text "/" <+: Tree.dirname path ++ text "/"

theorem Tree.Room.free {t : Tree} {path : Str} {e : Entry} (h : t.Room path e)
    (hnone : t.get? path = none) : t.Free path := by
  refine Tree.free_iff.2 fun q hq => ?_
  obtain ⟨-, hunder, hover⟩ := h q.1 q.2 (Tree.mem_files_iff.1 hq)
  refine ⟨fun heq => ?_, hunder, hover⟩
  rw [← heq, Tree.mem_files_iff.1 hq] at hnone
  cases hnone

theorem Tree.Room.holds {t : Tree} {path : Str} {content : Bytes} (h : t.Room path (.file content))
    (hoccupied : t.occupied path = true) : t.holds path content = true := by
  obtain ⟨q, hq, hthere⟩ := List.any_eq_true.1 hoccupied
  have hget := Tree.mem_files_iff.1 hq
  obtain ⟨hsame, hunder, -⟩ := h q.1 q.2 hget
  simp only [Bool.or_eq_true, decide_eq_true_eq, List.isPrefixOf_iff_prefix] at hthere
  rcases hthere with heq | hprefix
  · rw [heq, hsame heq] at hget
    exact Tree.holds_iff.2 (.inl hget)
  · exact absurd hprefix hunder

/-- A line is taken where the pool has the file, or where it is genuine and there is room for it. -/
theorem takeLine_of_room {t : Tuple} {baseOid : Dict Str Entry} {staged : Tree} {path : Str}
    {content : Bytes} (hbase : ∀ e, baseOid.get? path = some e → e.oid = .blob content)
    (hnew : baseOid.get? path = none → Genuine tools t path (.file content) ∧
      staged.Room path (.file content) ∧ (Own t path → staged.get? path = none)) :
    ∃ staged', takeLine tools t baseOid staged (path, .file content) = .ok staged' := by
  have hwrites : staged.Room path (.file content) → staged.occupied path = false →
      staged.write path content = .ok (staged.put path content) := by
    intro hroom hfree
    exact Tree.write_of_free (hroom.free (Tree.get?_of_occupied hfree)) content
  unfold takeLine
  dsimp only
  cases hget : baseOid.get? path with
  | some e => exact ⟨staged, refuse_bind (not_not.2 (hbase e hget))⟩
  | none =>
    obtain ⟨⟨c, hc, hkind⟩, hroom, hown⟩ := hnew hget
    obtain rfl : content = c := by injection hc
    dsimp only
    rcases hkind with hunit | ⟨hne, hkind⟩
    · obtain ⟨-, hname, hpath⟩ := corpusUnitFor_eq_ok.1 hunit
      have hslash : 47 ∉ text (tools.sha1 content) := List.count_eq_zero.1 (count_unit hname)
      have hbasename : Tree.basename path = text (tools.sha1 content) := by
        rw [hpath, Tree.basename_append _ hslash]
      have hcorpus := List.isPrefixOf_iff_prefix.2 (corpusUnitFor_under hunit)
      rw [if_pos hcorpus, hbasename, refuse_bind (not_not.2 (toOption_eq_some.2 hunit)),
        refuse_bind (not_not.2 rfl)]
      by_cases hoccupied : staged.occupied path = true
      · rw [if_pos hoccupied, refuse_bind (not_not.2 (hroom.holds hoccupied))]
        exact ⟨staged, rfl⟩
      · rw [if_neg hoccupied]
        exact ⟨_, hwrites hroom (Bool.eq_false_iff.2 hoccupied)⟩
    · have howned : Own t path := hkind.imp (fun h => h.1) id
      have hwrite := Tree.write_of_free (hroom.free (hown howned)) content
      rw [if_neg (fun hcorpus => howned.not_corpus (List.isPrefixOf_iff_prefix.1 hcorpus)), hwrite]
      by_cases htelemetry : (telemetryFor t).toOption = some path
      · have hchecked : checkEvidence tools content t = true := by
          rcases hkind with ⟨-, hchecked⟩ | hincident
          · exact hchecked
          · have hfront := (telemetries_front path ⟨t, toOption_eq_some.1 htelemetry⟩).symm.trans
              (incidents_front path ⟨t, hincident⟩)
            exact absurd hfront (by decide)
        rw [if_pos htelemetry]
        refine ⟨staged.put path content, ?_⟩
        show (refuse (content = []) 1 >>= fun _ => _) = _
        rw [refuse_bind hne, refuse_bind (not_not.2 hchecked)]
        rfl
      · have hincident : incidentFor t = .ok path :=
          hkind.resolve_left fun h => htelemetry (toOption_eq_some.2 h.1)
        rw [if_neg htelemetry, if_pos (toOption_eq_some.2 hincident)]
        refine ⟨staged.put path content, ?_⟩
        show (refuse (content = []) 1 >>= fun _ => _) = _
        rw [refuse_bind hne]
        rfl

/-! ## Files of branches -/

section
variable {P : Type} {w : Remote P}

/-- The branch of the tuple holds the file, at a path of its own. -/
def Held (tools : Tools) (w : Remote P) (t : Tuple) (path : Str) (e : Entry) : Prop :=
  ∃ branch tree, w.branches.get? branch = some tree ∧ parseAny tools branch = .ok t ∧
    tree.get? path = some e ∧ Genuine tools t path e

/-- No two files of branches have one SHA-1, and no two branches, of which one may be a legacy one,
are of one tuple. -/
structure Distinct (tools : Tools) (w : Remote P) : Prop where
  contents : Set.InjOn tools.sha1 {content | ∃ branch tree path,
    w.branches.get? branch = some tree ∧ tree.get? path = some (.file content)}
  tuples : ∀ branch ∈ w.branches.keys, ∀ branch' ∈ w.branches.keys, ∀ t,
    parseAny tools branch = .ok t → parseAny tools branch' = .ok t → branch = branch'

/-- No two branches mean different files by one path. -/
theorem Held.agree (hdistinct : Distinct tools w) {t t' : Tuple} {path : Str} {e e' : Entry}
    (h : Held tools w t path e) (h' : Held tools w t' path e') : e = e' := by
  obtain ⟨branch, tree, hbranch, hparse, he, hgenuine⟩ := h
  obtain ⟨branch', tree', hbranch', hparse', he', hgenuine'⟩ := h'
  obtain ⟨content, rfl, hkind⟩ := hgenuine.cases
  obtain ⟨content', rfl, hkind'⟩ := hgenuine'.cases
  rcases hkind with hunit | hown
  · rcases hkind' with hunit' | hown'
    · obtain ⟨-, hname, hpath⟩ := corpusUnitFor_eq_ok.1 hunit
      obtain ⟨-, hname', hpath'⟩ := corpusUnitFor_eq_ok.1 hunit'
      have hbase := Tree.basename_append (text "corpus/" ++ t.harness)
        (List.count_eq_zero.1 (count_unit hname))
      have hbase' := Tree.basename_append (text "corpus/" ++ t'.harness)
        (List.count_eq_zero.1 (count_unit hname'))
      rw [← hpath] at hbase
      rw [← hpath', hbase] at hbase'
      rw [hdistinct.contents ⟨branch, tree, path, hbranch, he⟩ ⟨branch', tree', path, hbranch', he'⟩
        (text_injective hbase')]
    · exact absurd (corpusUnitFor_under hunit) hown'.not_corpus
  · rcases hkind' with hunit' | hown'
    · exact absurd (corpusUnitFor_under hunit') hown.not_corpus
    · -- One tuple, so one branch.
      obtain rfl := hown.unique hown'
      obtain rfl := hdistinct.tuples branch ((Dict.mem_keys_iff _ _).2 ⟨tree, hbranch⟩) branch'
        ((Dict.mem_keys_iff _ _).2 ⟨tree', hbranch'⟩) t hparse hparse'
      obtain rfl := Option.some.inj (hbranch.symm.trans hbranch')
      exact Option.some.inj (he.symm.trans he')

/-- What a tree holds was in the pool at the start, or is held by a branch. -/
def Pooled (tools : Tools) (w : Remote P) (start tree : Tree) : Prop :=
  ∀ path e, tree.get? path = some e → start.get? path = some e ∨ ∃ t, Held tools w t path e

theorem Tree.Free.not_there {t : Tree} {path : Str} {e : Entry} (h : t.Free path) :
    t.get? path ≠ some e := by
  rw [Tree.get?_of_occupied h.1]
  exact Option.some_ne_none e |>.symm

/-- There is room for a file of a branch in whatever is pooled. -/
theorem Pooled.room {start tree : Tree} (h : Pooled tools w start tree) (hdistinct : Distinct tools w)
    {t : Tuple} {path : Str} {e : Entry} (hheld : Held tools w t path e) (hfree : start.Free path) :
    tree.Room path e := by
  intro path' e' he'
  rcases h path' e' he' with hstart | ⟨t', hheld'⟩
  · obtain ⟨hne, hunder, hover⟩ := Tree.free_iff.1 hfree (path', e') (Tree.mem_files_iff.2 hstart)
    exact ⟨fun heq => absurd heq hne, hunder, hover⟩
  · refine ⟨fun heq => ?_, ?_⟩
    · subst heq
      exact hheld'.agree hdistinct hheld
    · obtain ⟨-, -, -, -, -, hgenuine⟩ := hheld
      obtain ⟨-, -, -, -, -, hgenuine'⟩ := hheld'
      exact ⟨(not_under hgenuine.count hgenuine'.count).1,
        (not_under hgenuine'.count hgenuine.count).2⟩

/-! ## The lines of a branch -/

/-- A line of a branch: a file of the pool, or one of the branch that was free at the start. -/
def Offers (tools : Tools) (w : Remote P) (start base : Tree) (t : Tuple) (q : Str × Entry) : Prop :=
  (∃ content, q.2 = .file content) ∧
    (base.get? q.1 = some q.2 ∨ Held tools w t q.1 q.2 ∧ start.Free q.1)

theorem takeLine_of_offers (hdistinct : Distinct tools w) {start base staged : Tree} {t : Tuple}
    {baseOid : Dict Str Entry} (hoid : ∀ path, baseOid.get? path = base.get? path)
    (hbase : Pooled tools w start base) (hstaged : Pooled tools w start staged)
    {q : Str × Entry} (hq : Offers tools w start base t q)
    (hown : Own t q.1 → base.get? q.1 = none → staged.get? q.1 = none) :
    ∃ staged', takeLine tools t baseOid staged q = .ok staged' := by
  obtain ⟨path, e⟩ := q
  obtain ⟨⟨content, rfl⟩, hline⟩ := hq
  refine takeLine_of_room (fun e he => ?_) fun hnone => ?_
  · rw [hoid] at he
    rcases hline with hthere | ⟨hheld, hfree⟩
    · obtain rfl := Option.some.inj (he.symm.trans hthere)
      rfl
    · rcases hbase path e he with hstart | ⟨t', hheld'⟩
      · exact absurd hstart hfree.not_there
      · rw [hheld'.agree hdistinct hheld]
        rfl
  · rw [hoid] at hnone
    rcases hline with hthere | ⟨hheld, hfree⟩
    · rw [hnone] at hthere
      cases hthere
    · refine ⟨?_, hstaged.room hdistinct hheld hfree, fun howned => hown howned hnone⟩
      obtain ⟨-, -, -, -, -, hgenuine⟩ := hheld
      exact hgenuine

/-- Files of a branch on top of what is pooled. -/
theorem Pooled.append {start staged staged' : Tree} (h : Pooled tools w start staged)
    {new : Dict Str Entry} (hfiles : staged'.files = staged.files ++ new)
    (hnew : ∀ q ∈ new, ∃ t, Held tools w t q.1 q.2) : Pooled tools w start staged' := by
  intro path e he
  rcases (Tree.get?_of_append hfiles).1 he with he | hmem
  · exact h path e he
  · exact .inr (hnew (path, e) hmem)

/-- All lines of a branch are taken. -/
theorem foldlM_takeLine_ok (hdistinct : Distinct tools w) {start base : Tree} {t : Tuple}
    {baseOid : Dict Str Entry} (hoid : ∀ path, baseOid.get? path = base.get? path)
    (hbase : Pooled tools w start base) {branch : Str} {tree : Tree}
    (hbranch : w.branches.get? branch = some tree)
    (hparse : parseAny tools branch = .ok t) {lines : Dict Str Entry}
    (hlines : lines ⊆ tree.files) (hnodup : lines.keys.Nodup)
    (hoffers : ∀ q ∈ lines, Offers tools w start base t q) {staged : Tree}
    (hstaged : Pooled tools w start staged)
    (hown : ∀ q ∈ lines, Own t q.1 → base.get? q.1 = none → staged.get? q.1 = none) :
    ∃ staged', lines.foldlM (takeLine tools t baseOid) staged = .ok staged' ∧
      Pooled tools w start staged' := by
  induction lines generalizing staged with
  | nil => exact ⟨staged, rfl, hstaged⟩
  | cons q lines ih =>
    obtain ⟨hq, hrest⟩ := List.forall_mem_cons.1 hoffers
    obtain ⟨hownq, hownrest⟩ := List.forall_mem_cons.1 hown
    obtain ⟨hfresh, hnodup⟩ := List.nodup_cons.1 hnodup
    obtain ⟨staged', htaken⟩ := takeLine_of_offers hdistinct hoid hbase hstaged hq hownq
    obtain ⟨⟨new, hfiles, hnew⟩, -⟩ := takeLine_eq_ok htaken
    have hheld : ∀ p ∈ new, ∃ t, Held tools w t p.1 p.2 := by
      intro p hp
      obtain ⟨rfl, hgenuine⟩ := hnew p hp
      exact ⟨t, branch, tree, hbranch, hparse,
        Tree.get?_of_mem (hlines List.mem_cons_self), hgenuine⟩
    have hstill : ∀ p ∈ lines, Own t p.1 → base.get? p.1 = none → staged'.get? p.1 = none := by
      intro p hp howned hnone
      cases hget : staged'.get? p.1 with
      | none => rfl
      | some e =>
        rcases (Tree.get?_of_append hfiles).1 hget with hget | hmem
        · rw [hownrest p hp howned hnone] at hget
          cases hget
        · have hsame : p.1 = q.1 := (Prod.mk.inj (hnew _ hmem).1).1
          have hthere : p.1 ∈ Dict.keys lines := List.mem_map_of_mem hp
          rw [hsame] at hthere
          exact absurd hthere hfresh
    obtain ⟨result, hresult, hpooled⟩ := ih (fun p hp => hlines (List.mem_cons_of_mem q hp)) hnodup
      hrest (hstaged.append hfiles hheld) hstill
    refine ⟨result, ?_, hpooled⟩
    rw [List.foldlM_cons, htaken]
    exact hresult

/-! ## The branches -/

theorem fetchBranch_runs [DecidableEq P] {cut : Bool} {p : P} {branch : Str} {r : Except Nat Tree}
    {w' : Remote P} (h : Runs (exec cut) p w (fetchBranch branch).run r w') :
    w' = w ∧ (r = .error 128 ∨ ∃ tree, w.branches.get? branch = some tree ∧ r = .ok tree) := by
  obtain ⟨answer, w₁, ⟨rfl, hanswer⟩, hneed⟩ := Runs.of_script_query h
  obtain ⟨rfl, rfl⟩ := Runs.of_pure hneed
  refine ⟨rfl, ?_⟩
  rcases hanswer with rfl | hthere
  · exact .inl rfl
  · cases answer with
    | none => exact .inl rfl
    | some tree => exact .inr ⟨tree, hthere.symm, rfl⟩

theorem fetchPool_runs [DecidableEq P] {cut : Bool} {p : P} {r : Except Nat (Nat × Tree)}
    {w' : Remote P} (h : Runs (exec cut) p w fetchPool.run r w') :
    w' = w ∧ (r = .error 128 ∨ ∃ v, w.versions.getLast? = some v ∧
      r = .ok (w.versions.length, v.tree)) := by
  obtain ⟨answer, w₁, ⟨rfl, hanswer⟩, hneed⟩ := Runs.of_script_query h
  obtain ⟨rfl, rfl⟩ := Runs.of_pure hneed
  refine ⟨rfl, ?_⟩
  rcases hanswer with rfl | ⟨v, hv, rfl⟩
  · exact .inl rfl
  · exact .inr ⟨v, hv, rfl⟩

/-- A branch that reads back to the tuple, by its present or its legacy name: each of its files is
in the pool, or is of the tuple and was free at the start. -/
structure Takeable (tools : Tools) (start base : Tree) (branch : Str) (tree : Tree) (t : Tuple) :
    Prop where
  parsed : parseAny tools branch = .ok t
  files : ∀ q ∈ tree.files, base.get? q.1 = some q.2 ∨ Genuine tools t q.1 q.2 ∧ start.Free q.1

/-- The remote as an aggregator finds it that runs alone: the pool it fetches has beyond the start
files of branches, and each branch can be taken. -/
structure Settled (tools : Tools) (w : Remote P) (start base : Tree) : Prop where
  distinct : Distinct tools w
  regular : ∀ path e, start.get? path = some e → ∃ content, e = .file content
  pooled : Pooled tools w start base
  branches : ∀ branch tree, w.branches.get? branch = some tree →
    ∃ t, Takeable tools start base branch tree t

theorem Lists.get?_eq {tree : Tree} {lines : Dict Str Entry} (h : Lists false tree.files lines)
    (path : Str) : Dict.get? lines path = tree.get? path := by
  obtain ⟨all, hperm, rfl⟩ := h
  have hnodup : Dict.keys lines |>.Nodup := (hperm.map Prod.fst).nodup_iff.2 tree.nodup
  cases hget : tree.get? path with
  | some e => exact Dict.get?_of_mem hnodup (hperm.mem_iff.2 (Tree.mem_files_iff.2 hget))
  | none =>
    cases hline : Dict.get? lines path with
    | none => rfl
    | some e =>
      have hthere := Tree.mem_files_iff.1 (hperm.mem_iff.1 (Dict.mem_of_get? hline))
      rw [hget] at hthere
      cases hthere

theorem Tree.Free.of_extends {t t' : Tree} (h : t.Extends t') {path : Str} (hfree : t'.Free path) :
    t.Free path := by
  rw [Tree.free_iff] at hfree ⊢
  exact fun q hq => hfree q (Tree.mem_files_iff.2 (h q.1 q.2 (Tree.mem_files_iff.1 hq)))

section
variable {start base : Tree} (h : Settled tools w start base)
include h

/-- Every line of a branch is one that can be taken. -/
theorem Settled.offers {branch : Str} {tree : Tree} {t : Tuple}
    (hbranch : w.branches.get? branch = some tree) (htakeable : Takeable tools start base branch tree t) :
    ∀ q ∈ tree.files, Offers tools w start base t q := by
  intro q hq
  have hget := Tree.mem_files_iff.1 hq
  rcases htakeable.files q hq with hold | ⟨hgenuine, hfree⟩
  · refine ⟨?_, .inl hold⟩
    rcases h.pooled q.1 q.2 hold with hthere | ⟨t', -, -, -, -, -, hgenuine⟩
    · exact h.regular q.1 q.2 hthere
    · obtain ⟨content, heq, -⟩ := hgenuine.cases
      exact ⟨content, heq⟩
  · obtain ⟨content, heq, -⟩ := hgenuine.cases
    exact ⟨⟨content, heq⟩, .inr ⟨⟨branch, tree, hbranch, htakeable.parsed, hget, hgenuine⟩, hfree⟩⟩

/-- No branch is refused. -/
theorem Settled.takeBranches_runs [DecidableEq P] {p : P} {runId attempt : Str} {refs : List Str}
    (hrefs : refs ⊆ w.branches.keys) (hnodup : refs.Nodup) {staged : Tree}
    (hext : base.Extends staged) (hstaged : Pooled tools w start staged)
    (hown : ∀ branch ∈ refs, ∀ t path, parseAny tools branch = .ok t →
      Own t path → base.get? path = none → staged.get? path = none)
    {r : Except Nat Tree} {w' : Remote P}
    (hrun : Runs (exec false) p w (takeBranches tools runId attempt base refs staged).run r w') :
    w' = w ∧ (r = .error 128 ∨ ∃ staged', r = .ok staged') := by
  induction refs generalizing staged with
  | nil =>
    obtain ⟨rfl, rfl⟩ := Runs.of_pure hrun
    exact ⟨rfl, .inr ⟨staged, rfl⟩⟩
  | cons branch rest ih =>
    obtain ⟨hfresh, hnodup⟩ := List.nodup_cons.1 hnodup
    obtain ⟨hownbranch, hownrest⟩ := List.forall_mem_cons.1 hown
    have hrest : rest ⊆ w.branches.keys := fun b hb => hrefs (List.mem_cons_of_mem branch hb)
    obtain ⟨tree, hbranch⟩ := (Dict.mem_keys_iff _ _).1 (hrefs List.mem_cons_self)
    obtain ⟨t, htakeable⟩ := h.branches branch tree hbranch
    have hparsed := htakeable.parsed
    rcases Runs.of_script_check hrun with ⟨e, herror, -, -⟩ | ⟨t', ht', hrun⟩
    · rw [hparsed] at herror
      cases herror
    obtain rfl := Except.ok.inj (hparsed.symm.trans ht')
    by_cases hours : t.runId = runId ∧ t.attempt = attempt
    · rw [if_pos hours] at hrun
      rcases Runs.of_script_bind hrun with ⟨e, rfl, hfetch⟩ | ⟨tree', w₁, hfetch, hrun⟩
      · obtain ⟨rfl, hfetched⟩ := fetchBranch_runs hfetch
        exact ⟨rfl, .inl (hfetched.resolve_right fun ⟨_, _, h⟩ => by cases h)⟩
      obtain ⟨rfl, hfetched⟩ := fetchBranch_runs hfetch
      obtain ⟨tree'', htree, heq⟩ := hfetched.resolve_left fun h => by cases h
      obtain rfl := Except.ok.inj heq
      obtain rfl := Option.some.inj (hbranch.symm.trans htree)
      obtain ⟨baseOid, w₁, ⟨rfl, hbaseOid⟩, hlisted⟩ := Runs.of_script_query hrun
      obtain ⟨lines, w₁, ⟨rfl, hlines⟩, htaken⟩ := Runs.of_script_query hlisted
      have hperm : lines.Perm tree.files := by
        obtain ⟨all, hperm, rfl⟩ := hlines
        exact hperm
      obtain ⟨staged', hfold, hpooled⟩ := foldlM_takeLine_ok h.distinct hbaseOid.get?_eq h.pooled
        hbranch hparsed hperm.subset ((hperm.map Prod.fst).nodup_iff.2 tree.nodup)
        (fun q hq => h.offers hbranch htakeable q (hperm.subset hq)) hstaged
        fun q _ howned hnone => hownbranch t q.1 hparsed howned hnone
      rcases Runs.of_script_check htaken with ⟨e, herror, -, -⟩ | ⟨staged'', hsame, hgoes⟩
      · rw [hfold] at herror
        cases herror
      obtain rfl := Except.ok.inj (hfold.symm.trans hsame)
      obtain ⟨⟨added, hfiles, hadded⟩, -⟩ :=
        foldlM_takeLine (fun q hq => hbaseOid.subset hq) hext hfold
      refine ih hrest hnodup (hext.trans (Tree.extends_of_append hfiles)) hpooled
        (fun b hb t' path hparse howned hnone => ?_) hgoes
      cases hget : staged'.get? path with
      | none => rfl
      | some e =>
        rcases (Tree.get?_of_append hfiles).1 hget with hget | hmem
        · rw [hownrest b hb t' path hparse howned hnone] at hget
          cases hget
        · -- What was taken is of this branch, and `b` is another.
          obtain ⟨content, -, hunit | howned'⟩ := (hadded _ hmem).2.cases
          · exact absurd (corpusUnitFor_under hunit) howned.not_corpus
          · obtain rfl := howned.unique howned'
            have hsame := h.distinct.tuples b (hrest hb) branch (hrefs List.mem_cons_self) t' hparse
              hparsed
            exact absurd (hsame ▸ hb) hfresh
    · rw [if_neg hours] at hrun
      exact ih hrest hnodup hext hstaged hownrest hrun

end

end

/-! ## An aggregator that runs alone -/

section
variable {P : Type} [DecidableEq P] {w₀ w w' : Remote P} {cut : Bool} {jobs : P → Option Job}
  {runId attempt count : Str} {v₀ tip : Version}

theorem Contribution.parseAny {versions : List Version} {branch : Str} {tree : Tree} {t : Tuple}
    {v : Version} {new : Dict Str Entry} (h : Contribution tools versions branch tree t v new) :
    Brain.parseAny tools branch = .ok t := by
  unfold Brain.parseAny
  rw [h.parsed]

/-- What publishers have pushed by any time. -/
theorem settled_of_reach (hexits : ∀ p, w₀.exits p = none) (hgpg : tools.gpg [] = false)
    (hlast : w₀.versions.getLast? = some v₀)
    (hregular : ∀ path e, v₀.tree.get? path = some e → ∃ content, e = .file content)
    (hstart : ∀ branch tree, w₀.branches.get? branch = some tree →
      ∃ t, Takeable tools v₀.tree v₀.tree branch tree t)
    {s : System Command Answer (Remote P) P} (h : Reach (exec cut) (start tools jobs w₀) s)
    (hdistinct : Distinct tools s.world) (htip : s.world.versions.getLast? = some tip) :
    Settled tools s.world v₀.tree tip.tree := by
  have hkept := kept_of_reach hexits h
  have hsince : since w₀ s.world = v₀ :: s.world.versions.drop w₀.versions.length := by
    rw [since, hlast]
    rfl
  have hfirst : ∀ v ∈ since w₀ s.world, v₀ = v ∨ Follows tools s.world v₀ v := by
    intro v hv
    have hpairwise := hkept.pairwise
    rw [hsince] at hv hpairwise
    exact (List.mem_cons.1 hv).imp Eq.symm (List.rel_of_pairwise_cons hpairwise)
  have hends : ∀ v ∈ since w₀ s.world, v.tree.Extends tip.tree := by
    intro v hv
    have hpairwise := hkept.pairwise
    rw [← getLast?_since hkept.later] at htip
    obtain ⟨vs, hvs⟩ := List.getLast?_eq_some_iff.1 htip
    rw [hvs] at hv hpairwise
    rcases List.mem_append.1 hv with hv | hv
    · exact ((List.pairwise_append.1 hpairwise).2.2 v hv tip (List.mem_singleton.2 rfl)).1
    · exact List.mem_singleton.1 hv ▸ .refl _
  have hmem : tip ∈ since w₀ s.world :=
    List.mem_of_getLast? ((getLast?_since hkept.later).trans htip)
  refine ⟨hdistinct, hregular, fun path e he => ?_, fun branch tree hbranch => ?_⟩
  · rcases hfirst tip hmem with rfl | hfollows
    · exact .inl he
    · refine (hfollows.2 path e he).imp id fun hoffered => ?_
      obtain ⟨runId, attempt, branch, tree, t, hbranch, hparse, -, -, hget, hgenuine⟩ := hoffered
      exact ⟨t, branch, tree, hbranch, hparse, hget, hgenuine⟩
  · rcases hkept.branches branch tree hbranch with hold | ⟨p, pub, -, hpub⟩
    · obtain ⟨t, hparsed, hfiles⟩ := hstart branch tree hold
      have hext := hends v₀ (hsince ▸ List.mem_cons_self)
      exact ⟨t, hparsed, fun q hq => (hfiles q hq).imp (fun hold => hext q.1 q.2 hold) id⟩
    · obtain ⟨t, v, new, hall⟩ := hpub.contribution hgpg
      refine ⟨t, hall.parseAny, fun q hq => ?_⟩
      have hext : v₀.tree.Extends v.tree := by
        rcases hfirst v hall.version with rfl | hfollows
        · exact .refl _
        · exact hfollows.1
      rcases (Tree.get?_of_append hall.files).1 (Tree.mem_files_iff.1 hq) with hold | hnew
      · exact .inl (hends v hall.version q.1 q.2 hold)
      · obtain ⟨hgenuine, hfree⟩ := hall.contributes q hnew
        exact .inr ⟨hgenuine, hfree.of_extends hext⟩

theorem exec_nodup {p : P} {c : Command} {r : Answer c} (h : exec cut p w c r w')
    (hnodup : w.branches.keys.Nodup) : w'.branches.keys.Nodup := by
  cases c with
  | fetchPool | lsRemote | fetchBranch | lsTree | find | diffCached =>
    obtain ⟨rfl, -⟩ := h
    exact hnodup
  | pushPool =>
    rcases h with ⟨-, rfl⟩ | ⟨rfl, -⟩
    · exact hnodup
    · exact hnodup
  | pushBranch branch tree =>
    rcases h with ⟨hfree, rfl⟩ | ⟨rfl, -⟩
    · have hfresh : branch ∉ Dict.keys w.branches := by
        rw [Dict.mem_keys_iff, hfree]
        rintro ⟨t, ht⟩
        cases ht
      show (Dict.keys (w.branches ++ _)).Nodup
      rw [← Dict.set_of_not_mem hfresh]
      exact Dict.nodup_keys_set hnodup branch tree
    · exact hnodup
  | exit =>
    obtain rfl := h
    exact hnodup

/-- How an aggregator ends that has staged its run on the last version of the pool. -/
inductive Ends (w : Remote P) (tip : Version) (staged : Tree) (message : Str) :
    Except Nat Unit → Remote P → Prop
  | full (h : capacityGate staged.checkout [] ≠ 0) : Ends w tip staged message (.error 2) w
  | nothing (hgate : capacityGate staged.checkout [] = 0) (h : staged.files = tip.tree.files) :
      Ends w tip staged message (.error 1) w
  | refused (hgate : capacityGate staged.checkout [] = 0) (h : staged.files ≠ tip.tree.files) :
      Ends w tip staged message (.error 1) w
  | pushed {r : Except Nat Unit} (hgate : capacityGate staged.checkout [] = 0)
      (h : staged.files ≠ tip.tree.files) (hr : r = .ok () ∨ r = .error 1) :
      Ends w tip staged message r { w with versions := w.versions ++ [⟨staged, message⟩] }

theorem pushPool_runs {p : P} {staged : Tree} {message : Str} {r : Except Nat Unit}
    (hgate : capacityGate staged.checkout [] = 0) (hnew : staged.files ≠ tip.tree.files)
    (h : Runs (exec cut) p w (pushPool w.versions.length staged message).run r w') :
    Ends w tip staged message r w' := by
  obtain ⟨answer, w₁, hexec, hrefuse⟩ := Runs.of_script_query h
  obtain ⟨rfl, rfl⟩ := Runs.of_pure hrefuse
  rcases hexec with ⟨-, rfl⟩ | ⟨rfl, hthere⟩
  · refine .pushed hgate hnew ?_
    cases answer with
    | true => exact .inl rfl
    | false => exact .inr rfl
  · cases answer with
    | true => exact absurd (hthere rfl).1 (Nat.succ_ne_self _).symm
    | false => exact .refused hgate hnew

omit [DecidableEq P] in
/-- A remote is one that was kept since just now. -/
theorem Kept.start (w : Remote P) (htip : w.versions.getLast? = some tip) :
    Kept tools w cut (fun _ => none) (fun _ => w) w := by
  have hsince : since w w = [tip] := by
    rw [since, htip, List.drop_length]
    rfl
  refine ⟨.refl w, ?_, fun b t hb => .inl hb, fun p job hjob => by cases hjob⟩
  rw [hsince]
  exact .singleton tip

/-- What an aggregator has staged that has gone over all branches. -/
theorem takeBranches_staged {p : P} {refs : List Str} {staged : Tree}
    (htip : w.versions.getLast? = some tip) (hrefs : w.branches.keys ⊆ refs)
    (hrun : Runs (exec false) p w
      (takeBranches tools runId attempt tip.tree refs tip.tree).run (.ok staged) w) :
    Taken tools w runId attempt w.branches.keys staged ∧
      StagedFor tools w runId attempt tip.tree staged := by
  have hnone : StagedFor tools w runId attempt tip.tree tip.tree :=
    ⟨[], (List.append_nil _).symm, fun q hq => absurd hq List.not_mem_nil⟩
  have hdoes : Does (exec false) (discipline tools w false (fun _ => none) fun _ => w) p
      (fun w => StagedFor tools w runId attempt tip.tree tip.tree ∧ True)
      (takeBranches tools runId attempt tip.tree refs tip.tree) _ :=
    does_takeBranches refs tip.tree (.const True)
  obtain ⟨-, hdone⟩ := Triple.runs hdoes (Kept.start w htip) ⟨hnone, trivial⟩ hrun
  obtain ⟨⟨hstaged, -⟩, -, htaken⟩ := hdone staged rfl
  exact ⟨fun branch hmem => htaken rfl branch (hrefs hmem), hstaged⟩

/-- Whatever was pushed before, by whom and in what order, an aggregator that then runs alone
refuses no branch: where its fetches go through, it has staged all that the branches of its run
hold, and ends by the capacity gate, for want of anything new, or with its push. -/
theorem aggregate_alone (hexits : ∀ p, w₀.exits p = none) (hgpg : tools.gpg [] = false)
    (hlast : w₀.versions.getLast? = some v₀)
    (hregular : ∀ path e, v₀.tree.get? path = some e → ∃ content, e = .file content)
    (hnodup : w₀.branches.keys.Nodup)
    (hstart : ∀ branch tree, w₀.branches.get? branch = some tree →
      ∃ t, Takeable tools v₀.tree v₀.tree branch tree t)
    {s : System Command Answer (Remote P) P} (h : Reach (exec cut) (start tools jobs w₀) s)
    (hdistinct : Distinct tools s.world)
    (hargs : checkArguments runId attempt count = .ok ()) {p : P} {r : Except Nat Unit}
    (hrun : Runs (exec false) p s.world (aggregate tools runId attempt count).run r w') :
    r = .error 128 ∧ w' = s.world ∨
      ∃ tip staged, s.world.versions.getLast? = some tip ∧
        Taken tools s.world runId attempt s.world.branches.keys staged ∧
        StagedFor tools s.world runId attempt tip.tree staged ∧
        Ends s.world tip staged (aggregateMessage runId attempt) r w' := by
  rcases Runs.of_script_check hrun with ⟨e, herror, -, -⟩ | ⟨_, -, hfetches⟩
  · rw [hargs] at herror
    cases herror
  rcases Runs.of_script_bind hfetches with ⟨e, rfl, hfetch⟩ | ⟨fetched, w₁, hfetch, hlists⟩
  · obtain ⟨rfl, hfetched⟩ := fetchPool_runs hfetch
    obtain heq := hfetched.resolve_right fun ⟨_, _, h⟩ => by cases h
    cases heq
    exact .inl ⟨rfl, rfl⟩
  obtain ⟨rfl, hfetched⟩ := fetchPool_runs hfetch
  obtain ⟨tip, htip, heq⟩ := hfetched.resolve_left fun h => by cases h
  obtain rfl := Except.ok.inj heq
  obtain ⟨refs, w₁, ⟨rfl, hrefs⟩, htakes⟩ := Runs.of_script_query hlists
  have hsettled := settled_of_reach hexits hgpg hlast hregular hstart h hdistinct htip
  have hkeys : refs.Nodup := by
    obtain ⟨all, hperm, rfl⟩ := hrefs
    have hkeeps := world_of_reach (Q := fun w => w.branches.keys.Nodup)
      (fun p w c r w' (hexec : exec cut p w c r w') => exec_nodup hexec) h hnodup
    exact hperm.nodup_iff.2 hkeeps
  have hruns : ∀ {r : Except Nat Tree} {w' : Remote P}, Runs (exec false) p s.world
      (takeBranches tools runId attempt tip.tree refs tip.tree).run r w' →
      w' = s.world ∧ (r = .error 128 ∨ ∃ staged, r = .ok staged) :=
    hsettled.takeBranches_runs hrefs.subset hkeys (.refl _) hsettled.pooled
      fun _ _ _ _ _ _ hnone => hnone
  rcases Runs.of_script_bind htakes with ⟨e, rfl, htaken⟩ | ⟨staged, w₁, htaken, hgates⟩
  · obtain ⟨rfl, hrefused⟩ := hruns htaken
    cases hrefused.resolve_right fun ⟨_, h⟩ => by cases h
    exact .inl ⟨rfl, rfl⟩
  obtain ⟨rfl, -⟩ := hruns htaken
  obtain ⟨hall, hstaged⟩ := takeBranches_staged htip hrefs.whole htaken
  refine .inr ⟨tip, staged, htip, hall, hstaged, ?_⟩
  rcases Runs.of_script_check hgates with ⟨e, herror, rfl, rfl⟩ | ⟨_, hgate, hnews⟩
  · obtain ⟨hgate, rfl⟩ := refuse_eq_error.1 herror
    exact .full hgate
  have hgate := not_not.1 (refuse_eq_ok.1 hgate)
  rcases Runs.of_script_check hnews with ⟨e, herror, rfl, rfl⟩ | ⟨_, hnew, hpush⟩
  · obtain ⟨hnothing, rfl⟩ := refuse_eq_error.1 herror
    exact .nothing hgate hnothing
  exact pushPool_runs hgate (refuse_eq_ok.1 hnew) hpush

end

/-! ## A legacy branch -/

theorem legacy_files : oneTree.files = [(onePath [0], .file [0]), (onePath [1], .file [1])] := by
  decide

theorem legacy_takeable : Takeable oneTools firstTree firstTree legacyBranch oneTree oneTuple := by
  obtain ⟨hparse, -, hunit, hfirst, -⟩ := legacy_reads
  refine ⟨hparse, fun q hq => ?_⟩
  rw [legacy_files] at hq
  rcases List.mem_cons.1 hq with rfl | hq
  · refine .inl (Tree.mem_files_iff.1 ?_)
    rw [hfirst]
    exact List.mem_singleton.2 rfl
  · obtain rfl := List.mem_singleton.1 hq
    refine .inr ⟨⟨[1], rfl, .inl hunit⟩, ?_⟩
    unfold Tree.Free
    decide

theorem legacy_distinct : Distinct oneTools legacyRemote := by
  have hcontent : ∀ content, (∃ branch tree path, legacyRemote.branches.get? branch = some tree ∧
      tree.get? path = some (.file content)) → content = [0] ∨ content = [1] := by
    rintro content ⟨branch, tree, path, hbranch, he⟩
    obtain ⟨-, rfl⟩ := Prod.mk.inj (List.mem_singleton.1 (Dict.mem_of_get? hbranch))
    have hq := Tree.mem_files_iff.2 he
    rw [legacy_files] at hq
    rcases List.mem_cons.1 hq with heq | hq
    · injection (Prod.mk.inj heq).2 with hfirst
      exact .inl hfirst
    · injection (Prod.mk.inj (List.mem_singleton.1 hq)).2 with hsecond
      exact .inr hsecond
  refine ⟨fun content hc content' hc' hsha => ?_, fun branch hbranch branch' hbranch' _ _ _ => ?_⟩
  · rcases hcontent content hc with rfl | rfl <;> rcases hcontent content' hc' with rfl | rfl
    · rfl
    · exact absurd hsha (by decide)
    · exact absurd hsha (by decide)
    · rfl
  · exact (List.mem_singleton.1 hbranch).trans (List.mem_singleton.1 hbranch').symm

/-- The aggregator of the run alone, from the start on: it adds the unit that the pool lacks. -/
theorem aggregate_alone_legacy : ∃ tip staged, legacyRemote.versions.getLast? = some tip ∧
    Taken oneTools legacyRemote (text "100") (text "1") legacyRemote.branches.keys staged ∧
    Ends legacyRemote tip staged (aggregateMessage (text "100") (text "1")) (.ok ())
      { legacyRemote with versions :=
          legacyRemote.versions ++ [⟨oneTree, aggregateMessage (text "100") (text "1")⟩] } := by
  have hlast : legacyRemote.versions.getLast? = some ⟨firstTree, []⟩ := rfl
  have hargs : checkArguments (text "100") (text "1") (text "1") = .ok () := by decide
  have hregular : ∀ path e, firstTree.get? path = some e → ∃ content, e = .file content := by
    intro path e he
    have hq := Tree.mem_files_iff.2 he
    rw [legacy_reads.2.2.2.1] at hq
    exact ⟨[0], (Prod.mk.inj (List.mem_singleton.1 hq)).2⟩
  have hstart : ∀ branch tree, legacyRemote.branches.get? branch = some tree →
      ∃ t, Takeable oneTools firstTree firstTree branch tree t := by
    intro branch tree h
    obtain ⟨rfl, rfl⟩ := Prod.mk.inj (List.mem_singleton.1 (Dict.mem_of_get? h))
    exact ⟨_, legacy_takeable⟩
  have hreach : Reach (exec false) (start oneTools (fun _ => none) legacyRemote)
      (start oneTools (fun _ => none) legacyRemote) := .refl
  have hends := aggregate_alone (fun _ => rfl) rfl hlast hregular (List.nodup_singleton _) hstart
    hreach legacy_distinct hargs legacy_runs
  rcases hends with ⟨herror, -⟩ | ⟨tip, staged, htip, htaken, -, hends⟩
  · cases herror
  · exact ⟨tip, staged, htip, htaken, hends⟩

end MpcHunt.Brain
