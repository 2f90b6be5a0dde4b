/-
Calls of `record_case` that are refused because of their arguments: what they
leave of the counters, in whatever state the process is. A refusal because of
the cell leaves them alone; a refusal because of the verdict comes after the
case was counted.
-/
import MpcHunt.Telemetry.Closing

namespace MpcHunt.Telemetry

open Digits Json Processes

section
variable {kernel : Kernel Unit}

/-! ## What leaves the memory alone -/

variable (kernel) in
/-- Every run of the program leaves the memory as it was. -/
def Remembers {α : Type} (x : Program α) : Prop :=
  ∀ w a w', Runs (exec kernel) () w x a w' → w'.memory = w.memory

theorem Remembers.pure {α : Type} (a : α) : Remembers kernel (Pure.pure a : Program α) := by
  intro w b w' hrun
  rw [hrun.of_pure.2]

theorem Remembers.bind {α β : Type} {x : Program α} {f : α → Program β} (hx : Remembers kernel x)
    (hf : ∀ a, Remembers kernel (f a)) : Remembers kernel (x >>= f) := by
  intro w b w'' hrun
  obtain ⟨a, w', hrun, hrun'⟩ := hrun.of_bind
  exact (hf a _ _ _ hrun').trans (hx _ _ _ hrun)

theorem Remembers.ite {α : Type} {c : Prop} [Decidable c] {x y : Program α}
    (hx : Remembers kernel x) (hy : Remembers kernel y) :
    Remembers kernel (if c then x else y) := by
  split
  · exact hx
  · exact hy

theorem remembers_perform {c : Command} (hc : ∀ s, c ≠ .store s) :
    Remembers kernel (Prog.perform c) := by
  intro w r w' hrun
  have hexec := hrun.of_perform
  cases c with
  | load => rw [hexec.2]
  | store s => exact absurd rfl (hc s)
  | monotonicNs => rw [hexec.2]
  | getpid => rw [hexec.2]
  | ask q => rw [show w' = w from hexec]
  | create d name =>
    cases hfile : w.files d name with
    | some f =>
      simp only [exec, hfile] at hexec
      rw [hexec.2]
    | none =>
      simp only [exec, hfile] at hexec
      rcases hexec with ⟨-, rfl⟩ | ⟨-, -, rfl⟩
      · rfl
      · rfl
  | write d name data =>
    cases hfile : w.files d name with
    | some f =>
      simp only [exec, hfile] at hexec
      rw [hexec.2]
      rfl
    | none =>
      simp only [exec, hfile] at hexec
      rw [hexec.2]
  | unlink d name =>
    rcases hexec with rfl | rfl
    · rfl
    · rfl
  | rename d source dest =>
    cases hfile : w.files d source with
    | some f =>
      simp only [exec, hfile] at hexec
      rcases hexec with ⟨-, rfl⟩ | ⟨-, rfl⟩
      · rfl
      · rfl
    | none =>
      simp only [exec, hfile] at hexec
      rw [hexec.2]

theorem remembers_ask (q : Query) : Remembers kernel (ask q) := remembers_perform nofun

theorem remembers_getpid : Remembers kernel getpid := remembers_perform nofun

theorem remembers_create (d name : Str) : Remembers kernel (create d name) := remembers_perform nofun

theorem remembers_write (d name data : Str) : Remembers kernel (write d name data) :=
  remembers_perform nofun

theorem remembers_andAlso (a : Bool) (q : Query) : Remembers kernel (andAlso a (ask q)) :=
  .ite (remembers_ask q) (.pure false)

theorem remembers_mkdirIfNeeded (d : Str) : Remembers kernel (mkdirIfNeeded d) :=
  .bind (remembers_ask _) fun _ => .ite (.pure true) (remembers_ask _)

theorem remembers_writeAll (d name data : Str) : Remembers kernel (writeAll d name data) := by
  induction hlen : data.length using Nat.strong_induction_on generalizing data with
  | _ len ih =>
    rw [writeAll]
    by_cases hdata : data = []
    · rw [dif_pos hdata]
      exact .pure true
    rw [dif_neg hdata]
    refine .bind (remembers_write _ _ _) fun n => ?_
    by_cases hn : n = 0
    · rw [dif_pos hn]
      exact .pure false
    · rw [dif_neg hn]
      have hpos := List.length_pos_iff.2 hdata
      have hshorter : (data.drop n).length < len := by
        rw [List.length_drop]
        omega
      exact ih _ hshorter _ rfl

theorem remembers_atomicPublish (d dest doc : Str) : Remembers kernel (atomicPublish d dest doc) := by
  unfold atomicPublish
  refine .bind remembers_getpid fun pid => .bind (remembers_create _ _) fun created => ?_
  refine .ite (.pure false) (.bind (remembers_writeAll _ _ _) fun wrote => ?_)
  refine .bind (remembers_andAlso _ _) fun ok => .bind (remembers_ask _) fun closed => ?_
  refine .ite (.bind (remembers_perform nofun) fun _ => .pure false) ?_
  refine .bind (remembers_perform nofun) fun moved => ?_
  refine .ite (.bind (remembers_perform nofun) fun _ => .pure false) ?_
  refine .bind (remembers_ask _) fun opened => .ite (.pure false) ?_
  exact .bind (remembers_ask _) fun _ => .bind (remembers_ask _) fun _ => .pure _

theorem remembers_publish : Remembers kernel publish := by
  refine .bind (remembers_perform nofun) fun s => .ite (.pure true) ?_
  exact .bind (remembers_perform nofun) fun now => remembers_atomicPublish _ _ _

/-! ## The claim -/

theorem load_eq {w w' : World Unit} {s : State} (h : Runs (exec kernel) () w load s w') :
    s = w.memory () ∧ w' = w := h.of_perform

theorem memory_store {w w' : World Unit} {s : State} {a : Unit}
    (h : Runs (exec kernel) () w (store s) a w') : w'.memory () = s := by
  have hexec : w' = w.setMemory () s := h.of_perform
  rw [hexec]
  exact memory_setMemory_self w () s

/-- How a claim ends: refused, with the job it had, or with one it took. -/
inductive ClaimEnds (s : State) : Bool → State → Prop
  | refused (h : ¬ (s.configured = true ∧ s.claimed = true)) : ClaimEnds s false s
  | held (h : s.configured = true) (h' : s.claimed = true) : ClaimEnds s true s
  | taken (h : s.configured = true) (i : Int) : ClaimEnds s true (s.withJob i)

theorem claimFrom_ends (d : Str) (left index : Nat) {w w' : World Unit} {ok : Bool}
    (hrun : Runs (exec kernel) () w (claimFrom d left index) ok w') :
    ok = false ∧ w'.memory = w.memory ∨
      ok = true ∧ ∃ i, w'.memory () = (w.memory ()).withJob i := by
  induction left generalizing index w with
  | zero =>
    obtain ⟨rfl, rfl⟩ := hrun.of_pure
    exact .inl ⟨rfl, rfl⟩
  | succ left ih =>
    unfold claimFrom at hrun
    obtain ⟨created, w₁, hcreate, hrun⟩ := hrun.of_bind
    have h₁ : w₁.memory = w.memory := remembers_create _ _ _ _ _ hcreate
    split at hrun
    · rw [← h₁]
      exact ih _ hrun
    obtain ⟨pid, w₂, hpid, hrun⟩ := hrun.of_bind
    obtain ⟨n, w₃, hwrite, hrun⟩ := hrun.of_bind
    obtain ⟨synced, w₄, hsync, hrun⟩ := hrun.of_bind
    obtain ⟨closed, w₅, hclose, hrun⟩ := hrun.of_bind
    have h₂ : w₂.memory = w₁.memory := remembers_getpid _ _ _ hpid
    have h₃ : w₃.memory = w₂.memory := remembers_write _ _ _ _ _ _ hwrite
    have h₄ : w₄.memory = w₃.memory := remembers_andAlso _ _ _ _ _ hsync
    have h₅ : w₅.memory = w₄.memory := remembers_ask _ _ _ _ hclose
    have hsame : w₅.memory = w.memory := by rw [h₅, h₄, h₃, h₂, h₁]
    split at hrun
    · obtain ⟨rfl, rfl⟩ := hrun.of_pure
      exact .inl ⟨rfl, hsame⟩
    obtain ⟨s, w₆, hload, hrun⟩ := hrun.of_bind
    obtain ⟨rfl, rfl⟩ := load_eq hload
    obtain ⟨_, w₇, hstore, hrun⟩ := hrun.of_bind
    obtain ⟨rfl, rfl⟩ := hrun.of_pure
    refine .inr ⟨rfl, index, ?_⟩
    rw [memory_store hstore, hsame]
    rfl

theorem claimJob_ends {w w' : World Unit} {ok : Bool}
    (hrun : Runs (exec kernel) () w claimJob ok w') :
    ClaimEnds (w.memory ()) ok (w'.memory ()) := by
  unfold claimJob at hrun
  obtain ⟨s, w₁, hload, hrun⟩ := hrun.of_bind
  obtain ⟨rfl, rfl⟩ := load_eq hload
  split at hrun
  · next hconf =>
    obtain ⟨rfl, rfl⟩ := hrun.of_pure
    exact .refused fun h => hconf h.1
  next hconf =>
  split at hrun
  · next hclaimed =>
    obtain ⟨rfl, rfl⟩ := hrun.of_pure
    exact .held (by simpa using hconf) hclaimed
  next hclaimed =>
  have hrefused : ∀ {v : World Unit}, v.memory = w₁.memory →
      ClaimEnds (w₁.memory ()) false (v.memory ()) := by
    intro v hv
    rw [hv]
    exact .refused fun h => hclaimed h.2
  obtain ⟨made, w₂, hmade, hrun⟩ := hrun.of_bind
  have h₂ : w₂.memory = w₁.memory := remembers_mkdirIfNeeded _ _ _ _ hmade
  split at hrun
  · obtain ⟨rfl, rfl⟩ := hrun.of_pure
    exact hrefused h₂
  obtain ⟨made', w₃, hmade', hrun⟩ := hrun.of_bind
  have h₃ : w₃.memory = w₁.memory := (remembers_mkdirIfNeeded _ _ _ _ hmade').trans h₂
  split at hrun
  · obtain ⟨rfl, rfl⟩ := hrun.of_pure
    exact hrefused h₃
  rcases claimFrom_ends _ _ _ hrun with ⟨rfl, hsame⟩ | ⟨rfl, i, hjob⟩
  · exact hrefused (hsame.trans h₃)
  · rw [hjob, h₃]
    exact .taken (by simpa using hconf) i

/-! ## The calls -/

/-- How a call ends that claims with this result and this state. -/
def CallEnds (call : Call) (ok : Bool) (s : State) (r : Bool) (w : World Unit) : Prop :=
  if ok then w.memory () = s.record call ∧ (s.counters.Keyed → call.publishes = false → r = false)
  else r = false ∧ w.memory () = s

theorem stored_ends {s : State} {w w' : World Unit} {r : Bool}
    (hrun : Runs (exec kernel) () w (do store s; publish) r w') : w'.memory () = s := by
  obtain ⟨_, w₁, hstore, hrun⟩ := hrun.of_bind
  rw [remembers_publish _ _ _ hrun]
  exact memory_store hstore

theorem failed_ends {s : State} {w w' : World Unit} {r : Bool}
    (hrun : Runs (exec kernel) () w (do store s; return false) r w') :
    r = false ∧ w'.memory () = s := by
  obtain ⟨_, w₁, hstore, hrun⟩ := hrun.of_bind
  obtain ⟨rfl, rfl⟩ := hrun.of_pure
  exact ⟨rfl, memory_store hstore⟩

theorem call_ends (call : Call) {w w' : World Unit} {r : Bool}
    (hrun : Runs (exec kernel) () w call.program r w') :
    ∃ ok s, ClaimEnds (w.memory ()) ok s ∧ CallEnds call ok s r w' := by
  cases call with
  | doorReject =>
    obtain ⟨ok, w₁, hclaim, hrun⟩ := hrun.of_bind
    refine ⟨ok, w₁.memory (), claimJob_ends hclaim, ?_⟩
    cases ok with
    | false =>
      obtain ⟨rfl, rfl⟩ := hrun.of_pure
      exact ⟨rfl, rfl⟩
    | true =>
      obtain ⟨s, w₂, hload, hrun⟩ := hrun.of_bind
      obtain ⟨rfl, rfl⟩ := load_eq hload
      exact ⟨stored_ends hrun, nofun⟩
  | case cellKey wasApplied verdict =>
    obtain ⟨ok, w₁, hclaim, hrun⟩ := hrun.of_bind
    refine ⟨ok, w₁.memory (), claimJob_ends hclaim, ?_⟩
    cases ok with
    | false =>
      obtain ⟨rfl, rfl⟩ := hrun.of_pure
      exact ⟨rfl, rfl⟩
    | true =>
      obtain ⟨s, w₂, hload, hrun⟩ := hrun.of_bind
      obtain ⟨rfl, rfl⟩ := load_eq hload
      unfold CallEnds State.record
      rw [if_pos rfl]
      cases cellKey with
      | none =>
        obtain ⟨rfl, rfl⟩ := hrun.of_pure
        exact ⟨rfl, fun _ _ => rfl⟩
      | some cell =>
        dsimp only at hrun
        split at hrun
        · next hhas =>
          obtain ⟨rfl, rfl⟩ := hrun.of_pure
          exact ⟨by simp [Counters.record, hhas], fun _ _ => rfl⟩
        next hhas =>
        have hhas : (w₂.memory ()).counters.selected.has cell = true := by simpa using hhas
        split at hrun
        · next happlied =>
          cases verdict with
          | none =>
            obtain ⟨rfl, hmem⟩ := failed_ends hrun
            exact ⟨by simp [hmem, Counters.record, hhas, happlied], fun _ _ => rfl⟩
          | some v =>
            dsimp only at hrun
            split at hrun
            · next hno =>
              have hno : ¬ (w₂.memory ()).counters.verdicts.has v = true := hno
              obtain ⟨rfl, hmem⟩ := failed_ends hrun
              exact ⟨by simp [hmem, Counters.record, hhas, happlied, hno], fun _ _ => rfl⟩
            · next hyes =>
              have hyes : (w₂.memory ()).counters.verdicts.has v = true := not_not.1 hyes
              refine ⟨by simp [stored_ends hrun, Counters.record, hhas, happlied, hyes], ?_⟩
              intro hkeyed hno
              have hcell := hkeyed.has_selected.1 hhas
              have hv := hkeyed.has_verdicts.1 hyes
              simp [Call.publishes, hcell, hv] at hno
        · next happlied =>
          have happlied : wasApplied = false := by simpa using happlied
          refine ⟨by simp [stored_ends hrun, Counters.record, hhas, happlied], ?_⟩
          intro hkeyed hno
          have hcell := hkeyed.has_selected.1 hhas
          simp [Call.publishes, hcell, happlied] at hno

/-! ## Reachable states -/

/-- What every state of a process is like. -/
structure Fit (s : State) : Prop where
  configured : s.claimed = true → s.configured = true
  keyed : s.configured = true → s.counters.Keyed

theorem Fit.claim {s s' : State} {ok : Bool} (h : Fit s) (hclaim : ClaimEnds s ok s') : Fit s' := by
  cases hclaim with
  | refused => exact h
  | held => exact h
  | taken hconf => exact ⟨fun _ => hconf, h.keyed⟩

theorem Fit.call {s s' : State} {ok r : Bool} {call : Call} {w : World Unit} (h : Fit s)
    (hclaim : ClaimEnds s ok s') (hends : CallEnds call ok s' r w) : Fit (w.memory ()) := by
  have hs' := h.claim hclaim
  unfold CallEnds at hends
  split at hends
  · rw [hends.1]
    exact ⟨hs'.configured, fun hconf => record_keyed (hs'.keyed hconf) call⟩
  · rw [hends.2]
    exact hs'

theorem Fit.configure {config : Config} {w w' : World Unit} {r : Bool} (h : Fit (w.memory ()))
    (hrun : Runs (exec kernel) () w (configure config) r w') : Fit (w'.memory ()) := by
  unfold Telemetry.configure at hrun
  split at hrun
  · split at hrun
    · obtain ⟨rfl, rfl⟩ := hrun.of_pure
      exact h
    dsimp only at hrun
    split at hrun
    · obtain ⟨rfl, rfl⟩ := hrun.of_pure
      exact h
    obtain ⟨now, w₁, -, hrun⟩ := hrun.of_bind
    obtain ⟨_, w₂, hstore, hrun⟩ := hrun.of_bind
    obtain ⟨rfl, rfl⟩ := hrun.of_pure
    rw [memory_store hstore]
    exact ⟨fun _ => rfl, fun _ => Counters.zero_keyed⟩
  · obtain ⟨rfl, rfl⟩ := hrun.of_pure
    exact h

theorem Fit.program {a : Api} {w w' : World Unit} {r : Bool} (h : Fit (w.memory ()))
    (hrun : Runs (exec kernel) () w a.program r w') : Fit (w'.memory ()) := by
  cases a with
  | configure config => exact h.configure hrun
  | record call =>
    obtain ⟨ok, s, hclaim, hends⟩ := call_ends call hrun
    exact h.call hclaim hends
  | publish =>
    rw [remembers_publish _ _ _ hrun]
    exact h

theorem fit_of_runs {calls : List Api} {w w' : World Unit} (h : Fit (w.memory ()))
    (hrun : Runs (exec kernel) () w (runApi calls) () w') : Fit (w'.memory ()) := by
  induction calls generalizing w with
  | nil =>
    obtain ⟨-, rfl⟩ := hrun.of_pure
    exact h
  | cons a calls ih =>
    obtain ⟨_, w₁, hfirst, hrun⟩ := hrun.of_bind
    exact ih (h.program hfirst) hrun

theorem runs_runApi_concat {calls : List Api} {a : Api} {w w' w'' : World Unit} {r : Bool}
    (hrun : Runs (exec kernel) () w (runApi calls) () w')
    (hlast : Runs (exec kernel) () w' a.program r w'') :
    Runs (exec kernel) () w (runApi (calls ++ [a])) () w'' := by
  induction calls generalizing w with
  | nil =>
    obtain ⟨-, rfl⟩ := hrun.of_pure
    exact .bind hlast .ret
  | cons b calls ih =>
    obtain ⟨_, w₁, hfirst, hrun⟩ := hrun.of_bind
    exact .bind hfirst (ih hrun)

end

/-! ## Refused calls -/

/-- A null key, or one that is not in the list. -/
def Unlisted (names : List Str) (key : Option Str) : Prop := ∀ name ∈ names, key ≠ some name

/-- Arguments of `record_case` that are refused. -/
def Refused (cellKey : Option Str) (wasApplied : Bool) (verdict : Option Str) : Prop :=
  Unlisted cells cellKey ∨ wasApplied = true ∧ Unlisted verdicts verdict

theorem Refused.not_publishes {cellKey verdict : Option Str} {wasApplied : Bool}
    (h : Refused cellKey wasApplied verdict) :
    (Call.case cellKey wasApplied verdict).publishes = false := by
  have hno : ∀ {names key}, Unlisted names key → key.any (names.contains ·) = false := by
    intro names key hkey
    cases key with
    | none => rfl
    | some k => simpa using fun hk => hkey k hk rfl
  rcases h with h | ⟨rfl, h⟩
  · simp only [Call.publishes, hno h, Bool.false_and]
  · simp only [Call.publishes, hno h, Bool.not_true, Bool.or_self, Bool.and_false]

/-- What is counted of refused arguments: nothing, or a case of the cell. -/
theorem Refused.record {cellKey verdict : Option Str} {wasApplied : Bool}
    (h : Refused cellKey wasApplied verdict) {c : Counters} (hkeyed : c.Keyed) :
    Unlisted cells cellKey ∧ c.record (.case cellKey wasApplied verdict) = c ∨
      ∃ cell ∈ cells, cellKey = some cell ∧
        c.record (.case cellKey wasApplied verdict) = c.decode cell := by
  cases cellKey with
  | none => exact .inl ⟨fun _ _ => nofun, rfl⟩
  | some cell =>
    by_cases hcell : cell ∈ cells
    · refine .inr ⟨cell, hcell, rfl, ?_⟩
      have hhas := hkeyed.has_selected.2 hcell
      have hlisted : ¬ Unlisted cells (some cell) := fun h => h cell hcell rfl
      obtain ⟨rfl, hverdict⟩ := h.resolve_left hlisted
      cases verdict with
      | none => simp [Counters.record, hhas]
      | some v =>
        have hno : ¬ c.verdicts.has v = true := fun hv =>
          hverdict v (hkeyed.has_verdicts.1 hv) rfl
        simp [Counters.record, hhas, hno]
    · refine .inl ⟨fun name hname heq => ?_, ?_⟩
      · obtain rfl := Option.some.inj heq
        exact hcell hname
      · have hno : ¬ c.selected.has cell = true := fun hhas => hcell (hkeyed.has_selected.1 hhas)
        simp [Counters.record, hno]

theorem Counters.decode_ne (c : Counters) (cell : Str) : c.decode cell ≠ c := by
  intro h
  have hexecs : c.execs + 1 = c.execs := congrArg Counters.execs h
  simp at hexecs

/-- A case that is counted as neither applied nor not applied. -/
theorem Counters.Tallied.not_closes_decode {c : Counters} {n : Nat} (h : c.Tallied n)
    (hn : n + 1 < 2 ^ 64) {cell : Str} (hcell : cell ∈ cells) : ¬ (c.decode cell).Closes := by
  intro hcloses
  have hbefore := h.closes.applied cell hcell
  have hafter := hcloses.applied cell hcell
  simp only [Counters.decode] at hafter
  rw [CounterMap.at_bump_self (h.selected_room hn cell)] at hafter
  omega

/-- The counters after a refused call of a process that has its job. -/
theorem refused_record {kernel : Kernel Unit} {w w' : World Unit} (hfit : Fit (w.memory ()))
    {cellKey verdict : Option Str} {wasApplied r : Bool} (hrefused : Refused cellKey wasApplied verdict)
    (hrun : Runs (exec kernel) () w (recordCase cellKey wasApplied verdict) r w')
    (hclaimed : (w'.memory ()).claimed = true) :
    r = false ∧ (w.memory ()).configured = true ∧ (w'.memory ()).counters =
      (w.memory ()).counters.record (.case cellKey wasApplied verdict) := by
  obtain ⟨ok, s, hclaim, hends⟩ := call_ends (.case cellKey wasApplied verdict) hrun
  unfold CallEnds at hends
  cases hclaim with
  | refused hno =>
    have hmem := hends.2
    rw [hmem] at hclaimed
    exact absurd ⟨hfit.configured hclaimed, hclaimed⟩ hno
  | held hconf =>
    obtain ⟨hmem, hresult⟩ := hends
    rw [hmem]
    exact ⟨hresult (hfit.keyed hconf) hrefused.not_publishes, hconf, rfl⟩
  | taken hconf i =>
    obtain ⟨hmem, hresult⟩ := hends
    rw [hmem]
    exact ⟨hresult (hfit.keyed hconf) hrefused.not_publishes, hconf, rfl⟩

/-- In any state, a refused call of a process that has its job leaves the counters alone just
where it is the cell that is refused; and while every call before it is proper, just there the
counters close. What proper calls publish after it closes. -/
theorem refused_call_counters (kernel : Kernel Unit) (before : List Api) (w₀ w w' : World Unit)
    (hfresh : w₀.memory () = {}) (hbefore : Runs (exec kernel) () w₀ (runApi before) () w)
    (cellKey : Option Str) (wasApplied : Bool) (verdict : Option Str)
    (hrefused : Refused cellKey wasApplied verdict) (r : Bool)
    (hrun : Runs (exec kernel) () w (recordCase cellKey wasApplied verdict) r w')
    (hclaimed : (w'.memory ()).claimed = true) :
    r = false ∧
    ((w'.memory ()).counters = (w.memory ()).counters ↔ Unlisted cells cellKey) ∧
    (ProperApi before → before.length + 1 < 2 ^ 64 →
      ((w'.memory ()).counters.Closes ↔ Unlisted cells cellKey)) ∧
    ∀ calls s, ProperApi (before ++ [.record (.case cellKey wasApplied verdict)] ++ calls) →
      Reach (exec kernel) (alone w' calls) s →
      ∃ docs : List Document, s.world.published = w'.published ++ docs.map Document.render ∧
        ∀ d ∈ docs, d.Clean ∧ d.counters.Closes := by
  have hfit : Fit (w.memory ()) := fit_of_runs (by rw [hfresh]; exact ⟨nofun, nofun⟩) hbefore
  obtain ⟨hr, hconf, hcounters⟩ := refused_record hfit hrefused hrun hclaimed
  have hlisted : ∀ cell ∈ cells, cellKey = some cell → ¬ Unlisted cells cellKey :=
    fun cell hcell heq h => h cell hcell heq
  refine ⟨hr, ?_, fun hproper hlen => ?_, fun calls s hproper hreach => ?_⟩
  · rw [hcounters]
    rcases hrefused.record (hfit.keyed hconf) with ⟨hno, heq⟩ | ⟨cell, hcell, hkey, heq⟩
    · exact iff_of_true heq hno
    · rw [heq]
      exact iff_of_false (Counters.decode_ne _ _) (hlisted cell hcell hkey)
  · obtain ⟨s, hs, hcounted⟩ := counts_of_runs hproper hfresh hbefore
    obtain rfl : w.memory () = s := hs
    obtain ⟨m, hm, htally⟩ := (hcounted hconf).tallied
    rw [hcounters]
    rcases hrefused.record (hfit.keyed hconf) with ⟨hno, heq⟩ | ⟨cell, hcell, hkey, heq⟩
    · rw [heq]
      exact iff_of_true htally.closes hno
    · rw [heq]
      exact iff_of_false (htally.not_closes_decode (by omega) hcell) (hlisted cell hcell hkey)
  · have hboth : Runs (exec kernel) () w₀
        (runApi (before ++ [.record (.case cellKey wasApplied verdict)])) () w' :=
      runs_runApi_concat hbefore hrun
    obtain ⟨docs, hdocs⟩ := since_of_reach hproper hfresh hboth hreach
    exact ⟨docs, hdocs.published, hdocs.closes⟩

/-- The first call of a process in a fresh world. -/
theorem runs_first (call : Call) :
    ∃ w w' : World Unit,
      Runs (exec ⟨fun _ => 7, false⟩) () freshWorld (runApi [.configure r4Config]) () w ∧
        Runs (exec ⟨fun _ => 7, false⟩) () w call.program call.publishes w' ∧
        w.memory () = r4State ∧ w'.memory () = (r4State.withJob 0).record call := by
  have hapart : Apart (fun _ _ => False) r4State := ⟨not_false, fun _ _ => not_false⟩
  have hconfigure := runs_configure (k := ⟨fun _ => 7, false⟩) (p := ()) (w := freshWorld)
    r4Config_starts (UInt64.le_refl 0)
  have hmem := memory_setMemory_self { freshWorld with clock := 0 } () r4State
  obtain ⟨w₁, hclaim, hlone, -⟩ := runs_claimJob (k := ⟨fun _ => 7, false⟩) hmem rfl rfl nofun hapart
    (UInt64.le_refl 0)
  obtain ⟨w₂, hrun, hlone₂, -⟩ := runs_call hclaim hlone Counters.zero_keyed call
  exact ⟨_, w₂, .bind hconfigure .ret, hrun, hmem, hlone₂.memory⟩

theorem refused_call_counters_unknown_cell :
    ∃ w w' : World Unit, (w'.memory ()).counters = (w.memory ()).counters ∧
      (w'.memory ()).counters.Closes := by
  obtain ⟨w, w', hbefore, hrun, hmem, hmem'⟩ := runs_first (.case (some (text "r1")) true none)
  have hunlisted : Unlisted cells (some (text "r1")) := by
    intro name hname heq
    obtain rfl := Option.some.inj heq
    simp [cells, text] at hname
  have hclaimed : (w'.memory ()).claimed = true := by
    rw [hmem']
    rfl
  obtain ⟨-, hsame, hcloses, -⟩ := refused_call_counters _ [.configure r4Config] freshWorld w w' rfl
    hbefore (some (text "r1")) true none (.inl hunlisted) _ hrun hclaimed
  refine ⟨w, w', hsame.2 hunlisted, (hcloses ⟨by simp, ?_⟩ (by simp)).2 hunlisted⟩
  simp [Api.Proper]

/-- A case that was applied, without a verdict, is refused and counted. -/
theorem refused_call_counts :
    ¬ ∀ (kernel : Kernel Unit) (before : List Api) (w₀ w w' : World Unit), w₀.memory () = {} →
      Runs (exec kernel) () w₀ (runApi before) () w →
      ∀ (cellKey : Option Str) (wasApplied : Bool) (verdict : Option Str),
        Refused cellKey wasApplied verdict →
        ∀ r, Runs (exec kernel) () w (recordCase cellKey wasApplied verdict) r w' →
          (w'.memory ()).claimed = true → (w'.memory ()).counters = (w.memory ()).counters := by
  intro hall
  obtain ⟨w, w', hbefore, hrun, hmem, hmem'⟩ := runs_first withoutVerdict
  have hclaimed : (w'.memory ()).claimed = true := by
    rw [hmem']
    rfl
  have hcell : text "r1.mta_proofs[victim]|flip_bit" ∈ cells := by simp [cells]
  have hrefused : Refused (some (text "r1.mta_proofs[victim]|flip_bit")) true none :=
    .inr ⟨rfl, fun _ _ h => by cases h⟩
  have hsame := hall _ _ freshWorld w w' rfl hbefore _ _ _ hrefused _ hrun hclaimed
  rcases hrefused.record Counters.zero_keyed with ⟨hno, -⟩ | ⟨cell, -, -, heq⟩
  · exact hno _ hcell rfl
  · rw [hmem', hmem] at hsame
    exact Counters.decode_ne _ cell (heq.symm.trans hsame)

end MpcHunt.Telemetry
