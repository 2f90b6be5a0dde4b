/-
Two tasks that share a state and take turns as a schedule says: a finished
task's turn goes to the other, and a schedule that has run out lets task `a`
finish, then task `b`.

`interleaves_iff` says from the schedule and the tasks alone when the turns
granted really interleave, and `advances_iff` when a step after the first
change of turn succeeds.
-/
import Mathlib

namespace MpcHunt.Turns

inductive Side where
  | a | b
deriving DecidableEq, Repr

def Side.other : Side → Side
  | .a => .b
  | .b => .a

@[simp] theorem Side.other_other (x : Side) : x.other.other = x := by cases x <;> rfl

@[simp] theorem Side.other_ne (x : Side) : x.other ≠ x := by cases x <;> decide

@[simp] theorem Side.ne_other (x : Side) : x ≠ x.other := by cases x <;> decide

theorem Side.eq_or_other (x y : Side) : y = x ∨ y = x.other := by
  cases x <;> cases y <;> decide

theorem Side.ne_iff {x y : Side} : y ≠ x ↔ y = x.other := by cases x <;> cases y <;> decide

/-- One task takes a step between two steps of the other. -/
def Interleaves (l : List Side) : Prop := ∃ x : Side, [x, x.other, x].Sublist l

/-- How often the turn changes, after `last`. -/
def changes : Option Side → List Side → Nat
  | _, [] => 0
  | last, x :: l => (if last ≠ none ∧ last ≠ some x then 1 else 0) + changes (some x) l

/-- How many steps succeed once the turn has changed. -/
def advances : Option Side → Bool → List (Side × Bool) → Nat
  | _, _, [] => 0
  | last, crossed, (x, ok) :: l =>
    let crossed := crossed || (last ≠ none ∧ last ≠ some x : Bool)
    (if ok && crossed then 1 else 0) + advances (some x) crossed l

/-- Two tasks over a state: `step x` is one step of task `x` and whether it succeeded,
`left x` how many steps task `x` takes at most, none when it is finished. -/
structure Tasks (σ : Type) where
  step : Side → σ → Bool × σ
  left : Side → σ → Nat
  Inv : σ → Prop
  inv_step : ∀ {x s}, Inv s → Inv (step x s).2
  step_done : ∀ {x s}, Inv s → left x s = 0 → step x s = (false, s)
  left_advance : ∀ {x s}, Inv s → (step x s).1 = true → left x (step x s).2 + 1 = left x s
  left_stop : ∀ {x s}, Inv s → (step x s).1 = false → left x (step x s).2 = 0
  left_other : ∀ {x y s}, Inv s → y ≠ x → left y (step x s).2 = left y s

namespace Tasks

variable {σ : Type} (T : Tasks σ)

/-- The turn granted next, and the schedule left. -/
def next (s : σ) : List Side → Side × List Side
  | x :: rest => (if T.left x s = 0 then x.other else x, rest)
  | [] => (if T.left .a s = 0 then .b else .a, [])

/-- The turns granted in at most `n` steps, each with whether its step succeeded, and the
state they lead to. -/
def run : Nat → List Side → σ → List (Side × Bool) × σ
  | 0, _, s => ([], s)
  | n + 1, sched, s =>
    let t := T.next s sched
    if T.left t.1 s = 0 then ([], s)
    else
      let r := T.step t.1 s
      let q := run n t.2 r.2
      ((t.1, r.1) :: q.1, q.2)

/-- The turns granted. -/
def turns (n : Nat) (sched : List Side) (s : σ) : List Side := (T.run n sched s).1.map Prod.fst

/-- `k` steps of one task alone. -/
def solo (x : Side) : Nat → σ → σ
  | 0, s => s
  | k + 1, s => solo x k (T.step x s).2

variable {T} {s : σ} {n : Nat}

/-! ## Steps -/

theorem left_step_lt (h : T.Inv s) {x : Side} (hx : T.left x s ≠ 0) :
    T.left x (T.step x s).2 < T.left x s := by
  cases hok : (T.step x s).1 with
  | true =>
    have := T.left_advance h hok
    omega
  | false =>
    have := T.left_stop h hok
    omega

theorem solo_done (h : T.Inv s) {x : Side} (hx : T.left x s = 0) (k : Nat) :
    T.solo x k s = s := by
  induction k with
  | zero => rfl
  | succ k ih =>
    unfold solo
    rw [T.step_done h hx]
    exact ih

theorem inv_solo (h : T.Inv s) (x : Side) (k : Nat) : T.Inv (T.solo x k s) := by
  induction k generalizing s with
  | zero => exact h
  | succ k ih => exact ih (T.inv_step h)

theorem left_solo_other (h : T.Inv s) {x y : Side} (hxy : y ≠ x) (k : Nat) :
    T.left y (T.solo x k s) = T.left y s := by
  induction k generalizing s with
  | zero => rfl
  | succ k ih =>
    unfold solo
    rw [ih (T.inv_step h), T.left_other h hxy]

/-! ## Runs -/

theorem next_done (sched : List Side) :
    T.left (T.next s sched).1 s = 0 ↔ T.left .a s = 0 ∧ T.left .b s = 0 := by
  cases sched with
  | nil =>
    unfold next
    by_cases ha : T.left .a s = 0
    · simp [ha]
    · simp [ha]
  | cons x rest =>
    unfold next
    cases x
    all_goals
      dsimp only [Side.other]
      split <;> simp_all

theorem run_succ {sched : List Side} (h : T.left (T.next s sched).1 s ≠ 0) :
    T.run (n + 1) sched s =
      (((T.next s sched).1, (T.step (T.next s sched).1 s).1) ::
        (T.run n (T.next s sched).2 (T.step (T.next s sched).1 s).2).1,
        (T.run n (T.next s sched).2 (T.step (T.next s sched).1 s).2).2) := by
  rw [run, if_neg h]

theorem run_done {sched : List Side} (h : ∀ x, T.left x s = 0) : T.run n sched s = ([], s) := by
  cases n with
  | zero => rfl
  | succ n => rw [run, if_pos (h _)]

/-- What a step takes off the steps the two tasks may still take. -/
theorem left_step_sum (h : T.Inv s) {x : Side} (hx : T.left x s ≠ 0) :
    T.left .a (T.step x s).2 + T.left .b (T.step x s).2 < T.left .a s + T.left .b s := by
  have hlt := left_step_lt h hx
  cases x with
  | a =>
    have := T.left_other (y := .b) h (by decide : Side.b ≠ .a)
    omega
  | b =>
    have := T.left_other (y := .a) h (by decide : Side.a ≠ .b)
    omega

/-- A run with enough steps ends with both tasks finished. -/
theorem run_end (h : T.Inv s) {sched : List Side} (hn : T.left .a s + T.left .b s ≤ n) (x : Side) :
    T.left x (T.run n sched s).2 = 0 := by
  induction n generalizing s sched with
  | zero =>
    show T.left x s = 0
    cases x <;> omega
  | succ n ih =>
    by_cases hd : T.left (T.next s sched).1 s = 0
    · rw [run, if_pos hd]
      have hboth := (next_done sched).1 hd
      cases x
      · exact hboth.1
      · exact hboth.2
    · rw [run_succ hd]
      have := left_step_sum h hd
      exact ih (T.inv_step h) (by omega)

/-- It takes no more steps than the two tasks have left. -/
theorem length_run_le (h : T.Inv s) (sched : List Side) :
    (T.run n sched s).1.length ≤ T.left .a s + T.left .b s := by
  induction n generalizing s sched with
  | zero => exact Nat.zero_le _
  | succ n ih =>
    by_cases hd : T.left (T.next s sched).1 s = 0
    · rw [run, if_pos hd]
      exact Nat.zero_le _
    · rw [run_succ hd, List.length_cons]
      have := left_step_sum h hd
      have := ih (T.inv_step (x := (T.next s sched).1) h) (T.next s sched).2
      omega

/-- What every step of an unfinished task keeps, a run keeps. -/
theorem run_induction {P : σ → Prop} (h : T.Inv s)
    (hstep : ∀ x s, T.Inv s → T.left x s ≠ 0 → P s → P (T.step x s).2) (hs : P s)
    {sched : List Side} : P (T.run n sched s).2 := by
  induction n generalizing s sched with
  | zero => exact hs
  | succ n ih =>
    by_cases hd : T.left (T.next s sched).1 s = 0
    · rw [run, if_pos hd]
      exact hs
    · rw [run_succ hd]
      exact ih (T.inv_step h) (hstep _ s h hd hs)

theorem inv_run (h : T.Inv s) (sched : List Side) : T.Inv (T.run n sched s).2 :=
  run_induction h (fun _ _ hs _ _ => T.inv_step hs) h

theorem next_rest (sched : List Side) : (T.next s sched).2 = sched.drop 1 := by
  cases sched with
  | nil => rfl
  | cons x rest => rfl

/-- The turn granted after `i` turns is the next one of the state they lead to. -/
theorem turns_getElem {sched : List Side} {i : Nat} {x : Side} (hx : (T.turns n sched s)[i]? = some x) :
    x = (T.next (T.run i sched s).2 (sched.drop i)).1 := by
  unfold turns at hx
  induction i generalizing n s sched with
  | zero =>
    cases n with
    | zero => simp [run] at hx
    | succ n =>
      by_cases hd : T.left (T.next s sched).1 s = 0
      · simp [run, hd] at hx
      · rw [run_succ hd] at hx
        simp only [List.map_cons, List.getElem?_cons_zero, Option.some.injEq] at hx
        exact hx.symm
  | succ i ih =>
    cases n with
    | zero => simp [run] at hx
    | succ n =>
      by_cases hd : T.left (T.next s sched).1 s = 0
      · simp [run, hd] at hx
      · rw [run_succ hd] at hx
        simp only [List.map_cons, List.getElem?_cons_succ] at hx
        rw [ih hx, run_succ hd, next_rest, List.drop_drop, Nat.add_comm 1 i]

theorem left_run_of_not_mem (h : T.Inv s) {sched : List Side} {x : Side}
    (hx : x ∉ T.turns n sched s) : T.left x (T.run n sched s).2 = T.left x s := by
  induction n generalizing s sched with
  | zero => rfl
  | succ n ih =>
    by_cases hd : T.left (T.next s sched).1 s = 0
    · rw [run, if_pos hd]
    · unfold turns at hx
      rw [run_succ hd, List.map_cons, List.mem_cons, not_or] at hx
      rw [run_succ hd]
      exact (ih (T.inv_step h) hx.2).trans (T.left_other h hx.1)

/-- An unfinished task gets a turn. -/
theorem mem_turns (h : T.Inv s) {sched : List Side} (hn : T.left .a s + T.left .b s ≤ n) {x : Side}
    (hx : T.left x s ≠ 0) : x ∈ T.turns n sched s := by
  by_contra hmem
  exact hx ((left_run_of_not_mem h hmem).symm.trans (run_end h hn x))

/-- Once a task is finished the other has all the turns. -/
theorem turns_of_done (h : T.Inv s) {x : Side} (hx : T.left x s = 0) (sched : List Side) :
    ∃ m, T.turns n sched s = List.replicate m x.other := by
  refine ⟨(T.turns n sched s).length, List.eq_replicate_iff.2 ⟨rfl, ?_⟩⟩
  induction n generalizing s sched with
  | zero => intro y hy; exact absurd hy (by simp [turns, run])
  | succ n ih =>
    by_cases hd : T.left (T.next s sched).1 s = 0
    · intro y hy
      exact absurd hy (by simp [turns, run, hd])
    · have hturn : (T.next s sched).1 = x.other :=
        Side.ne_iff.1 fun hne => hd (by rw [hne, hx])
      unfold turns
      rw [run_succ hd, List.map_cons]
      intro y hy
      rcases List.mem_cons.1 hy with rfl | hy
      · exact hturn
      · refine ih (T.inv_step h) ?_ _ y hy
        rw [T.left_other h (by rw [hturn]; simp), hx]

/-! ## The schedule -/

/-- A schedule that has run out goes on with turns of `a`. -/
theorem run_pad (sched : List Side) (m : Nat) :
    T.run n (sched ++ List.replicate m .a) s = T.run n sched s := by
  induction n generalizing s sched m with
  | zero => rfl
  | succ n ih =>
    have key : ∀ m, (T.next s (sched ++ List.replicate m .a)).1 = (T.next s sched).1 ∧
        ∃ m', (T.next s (sched ++ List.replicate m .a)).2 =
          (T.next s sched).2 ++ List.replicate m' .a := by
      intro m
      cases sched with
      | cons x rest => exact ⟨rfl, m, rfl⟩
      | nil =>
        cases m with
        | zero => exact ⟨rfl, 0, rfl⟩
        | succ m => exact ⟨rfl, m, rfl⟩
    obtain ⟨h1, m', h2⟩ := key m
    simp only [run]
    rw [h1, h2, ih]

/-- The turns of a schedule that starts with `k` turns of an unfinished task. -/
theorem run_lead (h : T.Inv s) {x : Side} {k : Nat} (rest : List Side)
    (hk : T.left x (T.solo x k s) ≠ 0) :
    ∃ l : List (Side × Bool), l.map Prod.fst = List.replicate k x ∧
      T.run (n + k) (List.replicate k x ++ rest) s =
        (l ++ (T.run n rest (T.solo x k s)).1, (T.run n rest (T.solo x k s)).2) := by
  induction k generalizing s with
  | zero => exact ⟨[], rfl, rfl⟩
  | succ k ih =>
    have hx : T.left x s ≠ 0 := fun h0 => hk (by rw [solo_done h h0, h0])
    obtain ⟨l, hl, hrun⟩ := ih (T.inv_step h) hk
    have hnext : T.next s (List.replicate (k + 1) x ++ rest) =
        (x, List.replicate k x ++ rest) := by
      simp [List.replicate_succ, next, hx]
    refine ⟨(x, (T.step x s).1) :: l, by rw [List.map_cons, hl]; rfl, ?_⟩
    rw [← Nat.add_assoc, run_succ (by rw [hnext]; exact hx), hnext]
    dsimp only
    rw [hrun]
    rfl

/-- A task that finishes in the turns it has at the front goes entirely first. -/
theorem turns_sequential (h : T.Inv s) {x : Side} {k : Nat} (rest : List Side)
    (hk : T.left x (T.solo x k s) = 0) :
    ∃ i j, T.turns n (List.replicate k x ++ rest) s =
      List.replicate i x ++ List.replicate j x.other := by
  induction k generalizing s n with
  | zero =>
    obtain ⟨m, hm⟩ := turns_of_done (n := n) h hk rest
    exact ⟨0, m, hm⟩
  | succ k ih =>
    by_cases hx : T.left x s = 0
    · obtain ⟨m, hm⟩ := turns_of_done (n := n) h hx (List.replicate (k + 1) x ++ rest)
      exact ⟨0, m, hm⟩
    · cases n with
      | zero => exact ⟨0, 0, rfl⟩
      | succ n =>
        have hnext : T.next s (List.replicate (k + 1) x ++ rest) =
            (x, List.replicate k x ++ rest) := by
          simp [List.replicate_succ, next, hx]
        obtain ⟨i, j, hij⟩ := ih (n := n) (T.inv_step h) hk
        refine ⟨i + 1, j, ?_⟩
        unfold turns at hij ⊢
        rw [run_succ (by rw [hnext]; exact hx), hnext, List.map_cons]
        dsimp only
        rw [hij]
        rfl

/-! ## Which schedules interleave -/

/-- The task with the first turn. -/
def first (sched : List Side) : Side := sched.headD .a

/-- How many turns it has before the other has one. -/
def lead (sched : List Side) : Nat := (sched.takeWhile (· = first sched)).length

variable (T) in
/-- The first task is cut: the other has a turn before it is finished. -/
def Cut (sched : List Side) (s : σ) : Prop :=
  T.left (first sched) (T.solo (first sched) (lead sched) s) ≠ 0 ∧
    (lead sched < sched.length ∨ first sched = .b)

variable (T) in
/-- Where the first task is cut, the step of the other fails, and so does the next step
of the first. -/
def Stuck (sched : List Side) (s : σ) : Prop :=
  let s' := T.solo (first sched) (lead sched) s
  (T.step (first sched).other s').1 = false ∧
    (T.step (first sched) (T.step (first sched).other s').2).1 = false

/-- A schedule is its leading turns and what comes after. -/
theorem sched_split (sched : List Side) :
    ∃ rest, sched = List.replicate (lead sched) (first sched) ++ rest ∧
      rest.head? ≠ some (first sched) := by
  have htake : sched.takeWhile (· = first sched) = List.replicate (lead sched) (first sched) :=
    List.eq_replicate_iff.2 ⟨rfl, fun y hy => by simpa using List.mem_takeWhile_imp hy⟩
  refine ⟨sched.dropWhile (· = first sched), ?_, ?_⟩
  · rw [← htake, List.takeWhile_append_dropWhile]
  · intro hhead
    have := List.head?_dropWhile_not (· = first sched) sched
    rw [hhead] at this
    simp at this

theorem lead_pos {sched : List Side} (h : sched ≠ []) : 0 < lead sched := by
  cases sched with
  | nil => exact absurd rfl h
  | cons x rest => simp [lead, first]

theorem Cut.lead_pos {sched : List Side} (h : T.Cut sched s) : 0 < lead sched := by
  by_cases hnil : sched = []
  · subst hnil
    rcases h.2 with hlt | hb
    · exact absurd hlt (by decide)
    · exact absurd hb (by decide)
  · exact Tasks.lead_pos hnil

/-- Each step of a task that is not finished takes one off what it has left. -/
theorem left_solo_add (h : T.Inv s) {x : Side} {k : Nat} (hk : T.left x (T.solo x k s) ≠ 0) :
    T.left x (T.solo x k s) + k ≤ T.left x s := by
  induction k generalizing s with
  | zero => exact Nat.le_refl _
  | succ k ih =>
    have hx : T.left x s ≠ 0 := fun h0 => hk (by rw [solo_done h h0, h0])
    have hlt := left_step_lt h hx
    have hih := ih (T.inv_step h) hk
    unfold solo
    omega

/-- Where the first task is cut, the run is its leading turns, one of the other, and
what comes after. -/
theorem run_of_cut (h : T.Inv s) (hpos : ∀ x, T.left x s ≠ 0) {sched : List Side}
    (hn : T.left .a s + T.left .b s ≤ n) (hcut : T.Cut sched s) :
    ∃ (l : List (Side × Bool)) (m : Nat) (rest : List Side),
      l.map Prod.fst = List.replicate (lead sched) (first sched) ∧
      T.left .a (T.solo (first sched) (lead sched) s) +
        T.left .b (T.solo (first sched) (lead sched) s) ≤ m + 1 ∧
      (T.run n sched s).1 = l ++
        ((first sched).other,
          (T.step (first sched).other (T.solo (first sched) (lead sched) s)).1) ::
        (T.run m rest (T.step (first sched).other
          (T.solo (first sched) (lead sched) s)).2).1 := by
  obtain ⟨rest, hsplit, hhead⟩ := sched_split sched
  have hlen : sched.length = lead sched + rest.length := by
    conv_lhs => rw [hsplit, List.length_append, List.length_replicate]
  have hadd := left_solo_add h hcut.1
  have hother : ∀ k, T.left (first sched).other (T.solo (first sched) k s) ≠ 0 := fun k => by
    rw [left_solo_other h (by simp)]
    exact hpos _
  have hothereq := left_solo_other h (by simp : (first sched).other ≠ first sched) (lead sched)
  have hposOther := hpos (first sched).other
  obtain ⟨m, hm⟩ : ∃ m, n = m + 1 + lead sched := by
    refine ⟨n - lead sched - 1, ?_⟩
    have hsum : T.left (first sched) s + T.left (first sched).other s =
        T.left .a s + T.left .b s := by
      cases first sched with
      | a => rfl
      | b => exact Nat.add_comm _ _
    have hne := hcut.1
    omega
  have hnext : (T.next (T.solo (first sched) (lead sched) s) rest).1 = (first sched).other := by
    cases rest with
    | nil =>
      rw [List.length_nil, Nat.add_zero] at hlen
      have hb : first sched = .b := hcut.2.resolve_left (by omega)
      have ha := hother (lead sched)
      rw [hb] at ha ⊢
      exact if_neg ha
    | cons y rest =>
      have hy : y = (first sched).other := Side.ne_iff.1 fun hy => hhead (by rw [← hy]; rfl)
      show (if T.left y (T.solo (first sched) (lead sched) s) = 0 then y.other else y) = _
      rw [hy, if_neg (hother _)]
  obtain ⟨l, hl, hrun⟩ := run_lead (n := m + 1) h rest hcut.1
  refine ⟨l, m, (T.next (T.solo (first sched) (lead sched) s) rest).2, hl, ?_, ?_⟩
  · have hsum : T.left (first sched) s + T.left (first sched).other s =
        T.left .a s + T.left .b s := by
      cases first sched with
      | a => rfl
      | b => exact Nat.add_comm _ _
    have hsum' : T.left (first sched) (T.solo (first sched) (lead sched) s) +
        T.left (first sched).other (T.solo (first sched) (lead sched) s) =
          T.left .a (T.solo (first sched) (lead sched) s) +
            T.left .b (T.solo (first sched) (lead sched) s) := by
      cases first sched with
      | a => rfl
      | b => exact Nat.add_comm _ _
    omega
  · rw [← hm, ← hsplit] at hrun
    rw [hrun, run_succ (by rw [hnext]; exact hother _), hnext]

/-- Steps enough finish a task. -/
theorem left_solo_zero (h : T.Inv s) {x : Side} {k : Nat} (hk : T.left x s ≤ k) :
    T.left x (T.solo x k s) = 0 := by
  by_contra hne
  have := left_solo_add h hne
  omega

/-- Where the first task is not cut, it goes entirely first. -/
theorem turns_of_not_cut (h : T.Inv s) {sched : List Side} (hcut : ¬ T.Cut sched s) :
    ∃ i j, T.turns n sched s =
      List.replicate i (first sched) ++ List.replicate j (first sched).other := by
  obtain ⟨rest, hsplit, -⟩ := sched_split sched
  by_cases hdone : T.left (first sched) (T.solo (first sched) (lead sched) s) = 0
  · have hseq := turns_sequential (n := n) h rest hdone
    rwa [← hsplit] at hseq
  · have hlen : sched.length = lead sched + rest.length := by
      conv_lhs => rw [hsplit, List.length_append, List.length_replicate]
    have hnot : ¬ (lead sched < sched.length ∨ first sched = .b) := fun hc => hcut ⟨hdone, hc⟩
    have ha : first sched = .a := by
      cases hf : first sched with
      | a => rfl
      | b => exact absurd (.inr hf) hnot
    have hrest : rest = [] := List.eq_nil_of_length_eq_zero (by omega)
    have hall : sched = List.replicate (lead sched) .a := by
      conv_lhs => rw [hsplit, hrest, ha, List.append_nil]
    rw [ha]
    unfold turns
    rw [← run_pad sched (T.left .a s), hall, ← List.replicate_add]
    have hfin : T.left .a (T.solo .a (lead sched + T.left .a s) s) = 0 :=
      left_solo_zero h (by omega)
    have := turns_sequential (n := n) h [] hfin
    rwa [List.append_nil] at this

end Tasks

/-! ## Traces -/

theorem not_interleaves_sequential (x : Side) (i j : Nat) :
    ¬ Interleaves (List.replicate i x ++ List.replicate j x.other) := by
  intro ⟨y, hy⟩
  obtain ⟨l1, l2, hl, h1, h2⟩ := List.sublist_append_iff.1 hy
  obtain ⟨i', -, rfl⟩ := List.sublist_replicate_iff.1 h1
  obtain ⟨j', -, rfl⟩ := List.sublist_replicate_iff.1 h2
  rcases i' with _ | _ | i'
  · rcases j' with _ | _ | j'
    · simp at hl
    · simp at hl
    · simp only [List.replicate_succ, List.replicate_zero, List.nil_append, List.cons.injEq] at hl
      exact Side.other_ne y (hl.2.1.trans hl.1.symm)
  · rcases j' with _ | _ | j'
    · simp at hl
    · simp at hl
    · simp only [List.replicate_succ, List.replicate_zero, List.cons_append, List.nil_append,
        List.cons.injEq] at hl
      exact Side.other_ne y (hl.2.1.trans hl.2.2.1.symm)
  · simp only [List.replicate_succ, List.cons_append, List.cons.injEq] at hl
    exact Side.other_ne y (hl.2.1.trans hl.1.symm)

theorem eq_of_changes_zero {x : Side} {l : List Side} (h : changes (some x) l = 0) :
    ∀ y ∈ l, y = x := by
  induction l with
  | nil => intro y hy; exact absurd hy (by simp)
  | cons z l ih =>
    unfold changes at h
    have hz : z = x := by
      by_contra hne
      rw [if_pos ⟨by simp, fun he => hne (Option.some.inj he).symm⟩] at h
      omega
    subst hz
    intro y hy
    rcases List.mem_cons.1 hy with rfl | hy
    · rfl
    · exact ih (by omega) y hy

/-- Turns of both tasks change at least once. -/
theorem changes_pos {l : List Side} (ha : Side.a ∈ l) (hb : Side.b ∈ l) : 0 < changes none l := by
  cases l with
  | nil => exact absurd ha (by simp)
  | cons x l =>
    refine Nat.pos_of_ne_zero fun h0 => ?_
    unfold changes at h0
    have hall := eq_of_changes_zero (x := x) (l := l) (by omega)
    cases x with
    | a =>
      rcases List.mem_cons.1 hb with hb | hb
      · cases hb
      · exact absurd (hall _ hb) (by decide)
    | b =>
      rcases List.mem_cons.1 ha with ha | ha
      · cases ha
      · exact absurd (hall _ ha) (by decide)

/-- The turns before the first change advance nothing. -/
theorem advances_lead {x : Side} {k : Nat} {l tr : List (Side × Bool)}
    (hl : l.map Prod.fst = List.replicate k x) {last : Option Side}
    (hlast : last = none ∨ last = some x) :
    advances last false (l ++ tr) = advances (if k = 0 then last else some x) false tr := by
  induction k generalizing l last with
  | zero =>
    obtain rfl : l = [] := by simpa using hl
    rfl
  | succ k ih =>
    cases l with
    | nil => simp [List.replicate_succ] at hl
    | cons p l =>
      obtain ⟨y, ok⟩ := p
      simp only [List.map_cons, List.replicate_succ, List.cons.injEq] at hl
      obtain ⟨rfl, hl⟩ := hl
      have hno : ¬ (last ≠ none ∧ last ≠ some y) := fun h => hlast.elim h.1 h.2
      rw [List.cons_append, advances]
      simp only [hno, decide_false, Bool.or_false, Bool.and_false, Bool.false_eq_true, if_false,
        Nat.zero_add]
      rw [ih hl (.inr rfl), if_neg (Nat.succ_ne_zero k)]
      split <;> rfl

namespace Tasks

variable {σ : Type} {T : Tasks σ} {s : σ} {n : Nat}

/-- **When the turns interleave.** They do exactly when the first task is cut. -/
theorem interleaves_iff (h : T.Inv s) (hpos : ∀ x, T.left x s ≠ 0) {sched : List Side}
    (hn : T.left .a s + T.left .b s ≤ n) :
    Interleaves (T.turns n sched s) ↔ T.Cut sched s := by
  refine ⟨fun hi => ?_, fun hcut => ?_⟩
  · by_contra hcut
    obtain ⟨i, j, hij⟩ := turns_of_not_cut (n := n) h hcut
    rw [hij] at hi
    exact not_interleaves_sequential _ i j hi
  · obtain ⟨l, m, rest, hl, hm, hrun⟩ := run_of_cut h hpos hn hcut
    have hinv := inv_solo h (first sched) (lead sched)
    have hother : T.left (first sched).other (T.solo (first sched) (lead sched) s) ≠ 0 := by
      rw [left_solo_other h (by simp)]
      exact hpos _
    have hsum := left_step_sum hinv hother
    have hmem : first sched ∈ T.turns m rest
        (T.step (first sched).other (T.solo (first sched) (lead sched) s)).2 := by
      refine mem_turns (T.inv_step hinv) (by omega) ?_
      rw [T.left_other hinv (by simp)]
      exact hcut.1
    refine ⟨first sched, ?_⟩
    unfold turns
    rw [hrun, List.map_append, hl, List.map_cons]
    have hlead : [first sched].Sublist (List.replicate (lead sched) (first sched)) := by
      rw [List.singleton_sublist, List.mem_replicate]
      exact ⟨Nat.ne_of_gt hcut.lead_pos, rfl⟩
    exact hlead.append ((List.singleton_sublist.2 hmem).cons_cons _)

/-- **When a step after the first change succeeds**, in turns that interleave. -/
theorem advances_iff (h : T.Inv s) (hpos : ∀ x, T.left x s ≠ 0) {sched : List Side}
    (hn : T.left .a s + T.left .b s ≤ n) (hcut : T.Cut sched s) :
    0 < advances none false (T.run n sched s).1 ↔ ¬ T.Stuck sched s := by
  obtain ⟨l, m, rest, hl, hm, hrun⟩ := run_of_cut h hpos hn hcut
  have hinv := inv_solo h (first sched) (lead sched)
  have hother : T.left (first sched).other (T.solo (first sched) (lead sched) s) ≠ 0 := by
    rw [left_solo_other h (by simp)]
    exact hpos _
  have hsum := left_step_sum hinv hother
  have hleft : T.left (first sched)
      (T.step (first sched).other (T.solo (first sched) (lead sched) s)).2 ≠ 0 := by
    rw [T.left_other hinv (by simp)]
    exact hcut.1
  rw [hrun, advances_lead hl (.inl rfl), if_neg (Nat.ne_of_gt hcut.lead_pos)]
  unfold Stuck
  dsimp only
  generalize T.solo (first sched) (lead sched) s = s' at *
  rw [advances]
  have hchange : some (first sched) ≠ none ∧ some (first sched) ≠ some (first sched).other := by
    simp
  simp only [hchange, ne_eq, not_false_eq_true, and_self, decide_true, Bool.or_true,
    Bool.and_true]
  cases hok : (T.step (first sched).other s').1 with
  | true => simp
  | false =>
    have hdone := T.left_stop hinv hok
    obtain ⟨m, rfl⟩ : ∃ m', m = m' + 1 := ⟨m - 1, by
      have : T.left (first sched) (T.step (first sched).other s').2 ≤
          T.left .a (T.step (first sched).other s').2 +
            T.left .b (T.step (first sched).other s').2 := by
        cases first sched with
        | a => exact Nat.le_add_right _ _
        | b => exact Nat.le_add_left _ _
      omega⟩
    have hnext : (T.next (T.step (first sched).other s').2 rest).1 = first sched := by
      by_contra hne
      have hturn := Side.ne_iff.1 hne
      have hboth := (next_done rest).1 (by rw [hturn]; exact hdone)
      cases hf : first sched with
      | a => rw [hf] at hleft; exact hleft (by rw [hf] at hboth; exact hboth.1)
      | b => rw [hf] at hleft; exact hleft (by rw [hf] at hboth; exact hboth.2)
    rw [run_succ (by rw [hnext]; exact hleft), hnext]
    rw [advances]
    simp only [Bool.false_eq_true, if_false, Nat.zero_add, true_and]
    cases hok2 : (T.step (first sched) (T.step (first sched).other s').2).1 with
    | true => simp
    | false =>
      have hinv2 := T.inv_step (x := (first sched).other) hinv
      have hall : ∀ x, T.left x (T.step (first sched) (T.step (first sched).other s').2).2 = 0 := by
        intro x
        rcases Side.eq_or_other (first sched) x with rfl | rfl
        · exact T.left_stop hinv2 hok2
        · rw [T.left_other hinv2 (by simp), hdone]
      rw [run_done hall]
      simp [advances]

end Tasks

end MpcHunt.Turns
