/-
Who serves the draws of a run: what the driver and the dual session keep of
the generator of their process, for any property that no draw breaks.
-/
import MpcHunt.Harness.CleanVerdict
import MpcHunt.Harness.DualSession
import MpcHunt.Lib.Triples

namespace MpcHunt.Harness

open Triples

/-- A property of the generator that no draw breaks. -/
def Stable (sha512 : Bytes → Vector UInt8 64) (Q : RandState → Prop) : Prop :=
  ∀ num r, Q r → Q (randBytes sha512 num r).2

/-! ## The harness generator serves -/

/-- `g_method` is what OpenSSL dispatches to. -/
def UsesMethod (r : RandState) : Prop := r.method = .gMethod

/-- Since `base` was the record of draws, the harness generator has served the first bytes
of the stream of `key`, and nothing else was drawn. -/
structure ServesStream (sha512 : Bytes → Vector UInt8 64) (key : Vector UInt8 64)
    (base : List Served) (r : RandState) : Prop where
  method : r.method = .gMethod
  served : ∃ n new, r.gState.At sha512 key n ∧ r.served = base ++ new ∧
    (∀ d ∈ new, d.by_ = .gMethod) ∧ (new.map Served.out).flatten = stream sha512 key 0 n

section
variable {sha512 : Bytes → Vector UInt8 64} {key : Vector UInt8 64} {r : RandState}

theorem stable_usesMethod : Stable sha512 UsesMethod := by
  intro num r hr
  unfold UsesMethod at hr ⊢
  unfold randBytes
  rw [hr]
  dsimp only
  cases detBytes sha512 num r.gState with
  | mk out g =>
    cases out with
    | none => rfl
    | some out => rfl

theorem stable_servesStream (base : List Served) : Stable sha512 (ServesStream sha512 key base) := by
  intro num r hr
  obtain ⟨n, new, hat, hserved, hby, hout⟩ := hr.served
  unfold randBytes
  rw [hr.method]
  dsimp only
  by_cases hnum : num < 0
  · rw [detBytes_neg hnum]
    exact ⟨rfl, n, new, hat, hserved, hby, hout⟩
  · obtain ⟨hbytes, hat'⟩ := detBytes_eq hat hnum
    generalize detBytes sha512 num r.gState = d at hbytes hat'
    obtain ⟨out, g⟩ := d
    obtain rfl : out = some (stream sha512 key n num.toNatClampNeg) := hbytes
    refine ⟨rfl, n + num.toNatClampNeg, new ++ [⟨.gMethod, stream sha512 key n num.toNatClampNeg⟩], hat',
      ?_, ?_, ?_⟩
    · show r.served ++ _ = base ++ (new ++ _)
      rw [hserved, List.append_assoc]
    · intro d hd
      rcases List.mem_append.1 hd with hd | hd
      · exact hby d hd
      · rw [List.mem_singleton.1 hd]
    · rw [List.map_append, List.flatten_append, hout, stream_add, Nat.zero_add]
      simp

/-- Seeding starts the stream of the key. -/
theorem servesStream_reseed (seed : UInt64) (label : Bytes) (hr : UsesMethod r) :
    ServesStream sha512 (sha512 (Words.le64 seed ++ label)) r.served
      (reseedWithLabel sha512 seed label r) where
  method := hr
  served := ⟨0, [], DrbgState.seed_at _, by simp [reseedWithLabel], by simp, rfl⟩

/-- What such a record says of the draws since. -/
theorem ServesStream.drop {base : List Served} (h : ServesStream sha512 key base r) :
    (∀ d ∈ r.served.drop base.length, d.by_ = .gMethod) ∧
      ∃ n, ((r.served.drop base.length).map Served.out).flatten = stream sha512 key 0 n := by
  obtain ⟨n, new, _, hserved, hby, hout⟩ := h.served
  rw [hserved, List.drop_left]
  exact ⟨hby, n, hout⟩

/-- A self-test passes only with the method in place. -/
theorem selfTest_usesMethod (h : (selfTest sha512 r).1 = true) :
    UsesMethod (selfTest sha512 r).2 := by
  have hdraw : ∀ num {r : RandState}, UsesMethod r → UsesMethod (randBytes sha512 num r).2 :=
    fun num r hr => stable_usesMethod num r hr
  have hseed : ∀ seed {r : RandState}, UsesMethod r → UsesMethod (reseed sha512 seed r) :=
    fun seed r hr => hr
  unfold selfTest at h ⊢
  cases hi : installDeterministicRand r with
  | mk installed r1 =>
    rw [hi] at h
    cases installed with
    | false => cases h
    | true =>
      dsimp only at h ⊢
      by_cases hm : r1.method = .gMethod
      · have h1 := hdraw 96 (hseed 0xA5A5A5A5 hm)
        have h2 := hdraw 96 (hseed 0xA5A5A5A5 h1)
        have h3 := hdraw 96 (hseed 0x5A5A5A5A h2)
        have h4 := hdraw 33 (hseed 0xA5A5A5A5 h3)
        have h5 := hdraw 63 h4
        rw [if_neg (not_not.2 hm)]
        split_ifs
        all_goals assumption
      · rw [if_pos hm] at h
        cases h

end

/-! ## The entropy source serves -/

/-- OpenSSL's own generator has served every draw since `base` was their record. -/
structure ServesEntropy (base : List Served) (r : RandState) : Prop where
  method : r.method = .builtin
  served : ∃ new, r.served = base ++ new ∧ ∀ d ∈ new, d.by_ = .builtin

theorem stable_servesEntropy {sha512 : Bytes → Vector UInt8 64} (base : List Served) :
    Stable sha512 (ServesEntropy base) := by
  intro num r hr
  obtain ⟨new, hserved, hby⟩ := hr.served
  unfold randBytes
  rw [hr.method]
  dsimp only
  by_cases hnum : num < 0
  · rw [if_pos hnum]
    exact hr
  · rw [if_neg hnum]
    generalize (List.range num.toNatClampNeg).map (fun i => r.entropy (r.entropyUsed + i)) = out
    refine ⟨rfl, new ++ [⟨.builtin, out⟩], ?_, fun d hd => ?_⟩
    · show r.served ++ _ = base ++ (new ++ _)
      rw [hserved, List.append_assoc]
    · rcases List.mem_append.1 hd with hd | hd
      · exact hby d hd
      · rw [List.mem_singleton.1 hd]

/-! ## What a run keeps of the generator -/

section
variable {η α : Type} {H : Hashes} {A : Algebra} {lib : Library η} {Q : RandState → Prop}

theorem Stable.draws (hQ : Stable H.sha512 Q) (x : Draws α) {r : RandState} (h : Q r) :
    Q (x.run H.sha512 r).2 := by
  induction x generalizing r with
  | done a => exact h
  | rand num k ih => exact ih _ (hQ num r h)

theorem Stable.invoke (hQ : Stable H.sha512 Q) (c : Call η α) :
    Keeps (fun p : Proc η => Q p.rand) (invoke H c) := by
  intro p hp
  exact hQ.draws (c p.world) hp

theorem Stable.makePlayers (hQ : Stable H.sha512 Q) (ids : List UInt64) :
    Keeps (fun p : Proc η => Q p.rand) (makePlayers H lib ids) := by
  induction ids with
  | nil => exact Keeps.pure ()
  | cons id ids ih =>
    refine Leads.bind (Keeps.modify fun p hp => hp) fun _ => ?_
    refine Leads.bind (Keeps.modify fun p hp => ?_) fun _ => ih
    exact hQ.draws (lib.makeService id p.world) hp

namespace Driver

variable {β : Type} {s : Session} {cfg : RunConfig}

theorem keeps_eachSigner (hQ : Stable H.sha512 Q) (received : UInt64 → α × Nat)
    (call : UInt64 → α → Call η β) (ids : List UInt64) (outs : IdMap β) (applied : Nat) :
    Keeps (fun p : Proc η => Q p.rand) (eachSigner H received call ids outs applied) := by
  induction ids generalizing outs applied with
  | nil => exact Keeps.pure _
  | cons id ids ih =>
    refine Leads.bind (hQ.invoke _) fun r => ?_
    cases r with
    | error e => exact Keeps.pure _
    | ok out => exact ih _ _

theorem keeps_rounds (hQ : Stable H.sha512 Q) :
    Keeps (fun p : Proc η => Q p.rand) (rounds H lib s cfg) := by
  refine Leads.bind (keeps_eachSigner hQ _ _ _ _ _) fun r1 => ?_
  rcases r1 with ⟨_ | requests, applied⟩
  · exact Keeps.pure _
  refine Leads.bind (keeps_eachSigner hQ _ _ _ _ _) fun r2 => ?_
  rcases r2 with ⟨_ | responses, applied⟩
  · exact Keeps.pure _
  refine Leads.bind (keeps_eachSigner hQ _ _ _ _ _) fun r3 => ?_
  rcases r3 with ⟨_ | deltas, applied⟩
  · exact Keeps.pure _
  refine Leads.bind (keeps_eachSigner hQ _ _ _ _ _) fun r4 => ?_
  rcases r4 with ⟨_ | sis, applied⟩
  · exact Keeps.pure _
  refine Leads.bind (hQ.invoke _) fun r5 => ?_
  cases r5 with
  | error e => exact Keeps.pure _
  | ok sigs => exact Keeps.pure _

/-- A run that starts seeds the generator; what holds then of it, and no draw breaks,
holds at the end. -/
theorem leads_start (hQ : Stable H.sha512 Q) :
    Leads (fun p : Proc η => Q (reseedWithLabel H.sha512 cfg.seed cfg.txid p.rand))
      (fun p => Q p.rand) (start H lib s cfg) := by
  refine Leads.bind (Q := fun p => Q p.rand) (fun p hp => hp) fun _ => ?_
  refine Leads.bind (Keeps.modify fun p hp => hp) fun _ => ?_
  exact hQ.makePlayers s.ids

/-- A refused configuration draws nothing. -/
theorem run_rand (hQ : Stable H.sha512 Q) {p : Proc η}
    (hp : Q (reseedWithLabel H.sha512 cfg.seed cfg.txid p.rand)) :
    (run H A lib s cfg p).2 = p ∨ Q (run H A lib s cfg p).2.rand := by
  cases h : guard lib.maxBlocksToSign s cfg with
  | some detail => exact .inl (by rw [run_of_guard H A lib h])
  | none =>
    have hstart : Q (start H lib s cfg p).2.rand := leads_start hQ p hp
    have hrounds : Q (rounds H lib s cfg (start H lib s cfg p).2).2.rand :=
      keeps_rounds hQ _ hstart
    refine .inr ?_
    rw [run_of_start H A lib h]
    rcases hr : rounds H lib s cfg (start H lib s cfg p).2 with ⟨⟨⟨round, id, o⟩ | sigs, applied⟩, p'⟩
    · rw [hr] at hrounds
      exact hrounds
    · rw [hr] at hrounds
      have hend := (judge_spec H A lib s cfg (p := p') (lib.now p.world.lib) applied
        (digestAt H (observerOf s cfg) (start H lib s cfg p).2) sigs).1
      dsimp only
      rw [hend]
      exact hrounds

end Driver

end

namespace Dual

section
variable {η : Type} {H : Hashes} {A : Algebra} {lib : Library η} {Q R : RandState → Prop}

theorem keeps_eachSigner {β : Type} (hQ : Stable H.sha512 Q) (call : UInt64 → Call η β)
    (ids : List UInt64) (outs : IdMap β) :
    Keeps (fun p : Proc η => Q p.rand) (eachSigner H call ids outs) := by
  induction ids generalizing outs with
  | nil => exact Keeps.pure _
  | cons id ids ih =>
    refine Leads.bind (hQ.invoke _) fun r => ?_
    cases r with
    | error e => exact Keeps.pure _
    | ok out => exact ih _

theorem keeps_step (hQ : Stable H.sha512 Q) (c : Ceremony) :
    Keeps (fun p : Proc η => Q p.rand) (c.step H lib) := by
  unfold Ceremony.step
  refine Leads.ite (fun _ => Keeps.pure _) fun _ => ?_
  dsimp only
  split
  · exact Leads.bind (keeps_eachSigner hQ _ _ _) fun _ => Keeps.pure _
  · exact Leads.bind (keeps_eachSigner hQ _ _ _) fun _ => Keeps.pure _
  · exact Leads.bind (keeps_eachSigner hQ _ _ _) fun _ => Keeps.pure _
  · exact Leads.bind (keeps_eachSigner hQ _ _ _) fun _ => Keeps.pure _
  · refine Leads.bind (hQ.invoke _) fun r => ?_
    cases r with
    | error e => exact Keeps.pure _
    | ok sigs => exact Keeps.pure _
  · exact Keeps.pure _

/-- Granting a turn leads where the step of its ceremony leads. -/
theorem leads_grant {l : DualLoop} {turn : Turns.Side} {rest : List UInt8}
    (h : Leads (fun p : Proc η => Q p.rand) (fun p => R p.rand)
      (((l.cross turn rest).cer turn).step H lib)) :
    Leads (fun p : Proc η => Q p.rand) (fun p => R p.rand) (l.grant H lib turn rest) := by
  unfold DualLoop.grant
  refine Leads.bind Keeps.get fun _ => ?_
  refine Leads.bind h fun _ => ?_
  exact Leads.bind Keeps.get fun _ => Keeps.pure _

theorem keeps_dualLoop (hQ : Stable H.sha512 Q) (n : Nat) (l : DualLoop) :
    Keeps (fun p : Proc η => Q p.rand) (dualLoop H lib n l) := by
  induction n generalizing l with
  | zero => exact Keeps.pure _
  | succ n ih =>
    unfold dualLoop
    refine Leads.ite (fun _ => Keeps.pure _) fun _ => ?_
    refine Leads.ite (fun _ => Keeps.pure _) fun _ => ?_
    exact Leads.bind (leads_grant (keeps_step hQ _)) fun l' => ih l'

/-- A run of the dual session that the guard lets in leads where its loop leads. -/
theorem leads_dualRun (hQ : Stable H.sha512 Q) {s : Session} {seed : UInt64}
    {schedule : List UInt8} (hseed : ∀ r, Q r → Q (reseedWithLabel H.sha512 seed (str "dual") r))
    (hguard : dualGuard s ≠ none → ∀ r, Q r → R r)
    (hloop : Leads (fun p : Proc η => Q p.rand) (fun p => R p.rand)
      (dualLoop H lib maxSteps (.initial s.keyId (dualSigners s) schedule))) :
    Leads (fun p : Proc η => Q p.rand) (fun p => R p.rand)
      (dualRun H lib A s seed schedule) := by
  unfold dualRun
  refine Leads.bind Keeps.get fun p0 => ?_
  dsimp only
  cases hg : dualGuard s with
  | some detail => exact Leads.pure (fun p hp => hguard (by simp [hg]) p.rand hp) _
  | none =>
    have hstart : Keeps (fun p : Proc η => Q p.rand) (dualStart H lib s seed) := by
      refine Leads.bind (Keeps.modify fun p hp => hseed p.rand hp) fun _ => ?_
      refine Leads.bind (Keeps.modify fun p hp => hp) fun _ => ?_
      exact hQ.makePlayers s.ids
    refine Leads.bind hstart fun _ => ?_
    refine Leads.bind Keeps.get fun _ => ?_
    refine Leads.bind hloop fun l => ?_
    unfold DualLoop.result
    exact Leads.bind Keeps.get fun _ => Leads.bind Keeps.get fun _ => Keeps.pure _

theorem keeps_dualRun (hQ : Stable H.sha512 Q) {s : Session} {seed : UInt64}
    {schedule : List UInt8} (hseed : ∀ r, Q r → Q (reseedWithLabel H.sha512 seed (str "dual") r)) :
    Keeps (fun p : Proc η => Q p.rand) (dualRun H lib A s seed schedule) :=
  leads_dualRun hQ hseed (fun _ _ h => h) (keeps_dualLoop hQ _ _)

theorem cer_cross (l : DualLoop) (x turn : Turns.Side) (rest : List UInt8) :
    (l.cross turn rest).cer x = l.cer x := by
  unfold DualLoop.cross
  by_cases h : l.lastTurn ≠ none ∧ l.lastTurn ≠ some turn
  · rw [if_pos h]
    cases x <;> rfl
  · rw [if_neg h]
    cases x <;> rfl

theorem cer_initial (keyId : Bytes) (signers : List UInt64) (schedule : List UInt8)
    (x : Turns.Side) :
    (DualLoop.initial keyId signers schedule).cer x = .make x keyId signers dualPath := by
  cases x <;> rfl

/-- The first thing a loop does, whatever its schedule, is a call of `start_signing`. -/
theorem leads_dualLoop (hR : Stable H.sha512 R) {keyId : Bytes} {id : UInt64} {ids : List UInt64}
    {schedule : List UInt8} {n : Nat}
    (hcall : ∀ c : Ceremony, Leads (fun p : Proc η => Q p.rand) (fun p => R p.rand)
      (invoke H (lib.startSigning id c.keyId c.txid 0 c.data [] c.playersStr c.playersIds))) :
    Leads (fun p : Proc η => Q p.rand) (fun p => R p.rand)
      (dualLoop H lib (n + 1) (.initial keyId (id :: ids) schedule)) := by
  have hfresh : ∀ x, ((DualLoop.initial keyId (id :: ids) schedule).cer x).finished = false := by
    intro x
    rw [cer_initial]
    rfl
  unfold dualLoop
  refine Leads.ite (fun h => ?_) fun _ => ?_
  · exact absurd ((hfresh .a).symm.trans h.1) Bool.false_ne_true
  refine Leads.ite (fun h => ?_) fun _ => ?_
  · exact absurd ((hfresh _).symm.trans h) Bool.false_ne_true
  refine Leads.bind (leads_grant ?_) fun l' => keeps_dualLoop hR n l'
  rw [cer_cross, cer_initial]
  generalize (DualLoop.initial keyId (id :: ids) schedule).nextTurn.1 = x
  -- A fresh ceremony runs round 1, which starts at the first signer.
  show Leads _ _ (Ceremony.round1 H lib _)
  unfold Ceremony.round1
  refine Leads.bind ?_ fun _ => Keeps.pure _
  refine Leads.bind (hcall { Ceremony.make x keyId (id :: ids) dualPath with state := .running })
    fun r => ?_
  cases r with
  | error e => exact Keeps.pure _
  | ok out => exact keeps_eachSigner hR _ _ _

end

end Dual

end MpcHunt.Harness
