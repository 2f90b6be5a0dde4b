/-
What a verdict of `session::run` says of the observer's key store: every way
out of a run, and when the verdict and the digests disagree.
-/
import MpcHunt.Harness.Driver

namespace MpcHunt.Harness.Driver

variable {η : Type} (H : Hashes) (A : Algebra) (lib : Library η)

/-- `STATE_CORRUPTION` and the verdicts `driver.h` lists after it. -/
def Verdict.severe : Verdict → Bool
  | .stateCorruption | .crash | .timeout | .harnessFault => true
  | .cleanSign | .cleanReject | .invalidSignature => false

theorem Verdict.severe_not_clean {v : Verdict} (h : v.severe = true) :
    ¬ (v = .cleanSign ∨ v = .cleanReject) := by
  intro hv
  rcases hv with rfl | rfl
  · cases h
  · cases h

/-- What the verdicts promise of a run that ends in process `p`: a clean one leaves the
observer's key store as it was, and a changed key store has a severe one. -/
def KeyStoreJudged (s : Session) (cfg : RunConfig) (r : RunResult) (p : Proc η) : Prop :=
  (r.v = .cleanSign ∨ r.v = .cleanReject → digestAt H (observerOf s cfg) p = r.keyDigestBefore) ∧
    (digestAt H (observerOf s cfg) p ≠ r.keyDigestBefore → r.v.severe = true)

/-- A call of the library throws an exception that is not fatal, and the observer's key
store is by then not what it was before the first round. -/
def ThrowsOverCorruption (s : Session) (cfg : RunConfig) (p : Proc η) : Prop :=
  ∃ round id o applied p',
    rounds H lib s cfg (start H lib s cfg p).2 = ((.error (round, id, o), applied), p') ∧
      o.fatal = false ∧
      digestAt H (observerOf s cfg) p' ≠ digestAt H (observerOf s cfg) (start H lib s cfg p).2

/-! ## The ways out of a run -/

variable {s : Session} {cfg : RunConfig} {p p' : Proc η}

theorem throwExit_spec (cfg : RunConfig) (observer : UInt64) (t0 round applied : Nat)
    (before : Bytes) (id : UInt64) (o : CallOutcome) :
    let r := throwExit H lib cfg observer t0 round applied before id o p
    r.2 = p ∧ r.1.keyDigestBefore = before ∧
      r.1.v = if o.fatal then .crash else if cfg.honestOnly then .harnessFault else .cleanReject :=
  ⟨rfl, rfl, rfl⟩

/-- The digests are compared before anything else is judged, and no signature is the
harness's fault. -/
theorem judge_spec (s : Session) (cfg : RunConfig) (t0 applied : Nat) (before : Bytes)
    (sigs : List RecoverableSignature) :
    let r := judge H A lib s cfg t0 applied before sigs p
    r.2 = p ∧ r.1.keyDigestBefore = before ∧
      (digestAt H (observerOf s cfg) p ≠ before → r.1.v = .stateCorruption) ∧
      r.1.v ≠ .harnessFault := by
  show let r := (if before ≠ digestAt H (observerOf s cfg) p then _ else _ : Run η RunResult) p
    r.2 = p ∧ r.1.keyDigestBefore = before ∧ (_ → r.1.v = .stateCorruption) ∧
      r.1.v ≠ .harnessFault
  by_cases hd : before ≠ digestAt H (observerOf s cfg) p
  · rw [if_pos hd]
    exact ⟨rfl, rfl, fun _ => rfl, Verdict.noConfusion⟩
  · rw [if_neg hd]
    have hsame : ∀ v : Verdict, digestAt H (observerOf s cfg) p ≠ before → v = .stateCorruption :=
      fun v hne => absurd (fun he => hne he.symm) hd
    by_cases hhas : SigningStore.has (p.world.players.getD (observerOf s cfg) ∅) cfg.txid
    · rw [if_pos hhas]
      exact ⟨rfl, rfl, hsame _, Verdict.noConfusion⟩
    · rw [if_neg hhas]
      by_cases hlen : sigs.length ≠ cfg.blocks
      · rw [if_pos hlen]
        exact ⟨rfl, rfl, hsame _, Verdict.noConfusion⟩
      · rw [if_neg hlen]
        cases judgeBlocks A s cfg 0 sigs with
        | some detail => exact ⟨rfl, rfl, hsame _, Verdict.noConfusion⟩
        | none =>
          by_cases htime : cfg.timeoutMs ≠ 0 ∧ lib.now p.world.lib - t0 > cfg.timeoutMs
          · simp only [if_pos htime]
            exact ⟨rfl, rfl, hsame _, Verdict.noConfusion⟩
          · simp only [if_neg htime]
            exact ⟨rfl, rfl, hsame _, Verdict.noConfusion⟩

/-- A configuration the guards refuse is a harness fault, and no digest is taken. -/
theorem judged_of_guard {detail : Bytes} (h : guard lib.maxBlocksToSign s cfg = some detail) :
    KeyStoreJudged H s cfg (run H A lib s cfg p).1 (run H A lib s cfg p).2 := by
  rw [run_of_guard H A lib h]
  exact ⟨fun hv => absurd hv (Verdict.severe_not_clean rfl), fun _ => rfl⟩

/-- A run that throws over a changed key store, with an attacker among the players, is a
clean rejection. -/
theorem not_judged_of_throw (h : guard lib.maxBlocksToSign s cfg = none)
    (hon : cfg.honestOnly = false) (hc : ThrowsOverCorruption H lib s cfg p) :
    (run H A lib s cfg p).1.v = .cleanReject ∧
      ¬ KeyStoreJudged H s cfg (run H A lib s cfg p).1 (run H A lib s cfg p).2 := by
  obtain ⟨round, id, o, applied, p', hr, hfatal, hne⟩ := hc
  rw [run_of_start H A lib h, hr]
  obtain ⟨hp, hbefore, hv⟩ := throwExit_spec H lib cfg (p := p') (observerOf s cfg)
    (lib.now p.world.lib) round applied (digestAt H (observerOf s cfg) (start H lib s cfg p).2) id o
  rw [hfatal, hon] at hv
  refine ⟨hv, fun hj => hne ?_⟩
  have hclean := hj.1 (.inr hv)
  rw [hp, hbefore] at hclean
  exact hclean

/-- **When a clean verdict means an untouched key store.** It does, and a changed key store
has a severe verdict, except where a malicious signer takes part and a call throws an
exception that is not fatal over a changed key store. -/
theorem keyStoreJudged_iff (s : Session) (cfg : RunConfig) (p : Proc η) :
    KeyStoreJudged H s cfg (run H A lib s cfg p).1 (run H A lib s cfg p).2 ↔
      guard lib.maxBlocksToSign s cfg ≠ none ∨ cfg.honestOnly = true ∨
        ¬ ThrowsOverCorruption H lib s cfg p := by
  cases h : guard lib.maxBlocksToSign s cfg with
  | some detail => exact ⟨fun _ => .inl (by simp), fun _ => judged_of_guard H A lib h⟩
  | none =>
    refine ⟨fun hj => ?_, fun hc => ?_⟩
    · by_contra hno
      simp only [not_or, ne_eq, not_not, Bool.not_eq_true] at hno
      exact (not_judged_of_throw H A lib h hno.2.1 hno.2.2).2 hj
    · have hc := hc.resolve_left (not_not.2 rfl)
      rw [run_of_start H A lib h]
      rcases hr : rounds H lib s cfg (start H lib s cfg p).2 with ⟨⟨⟨round, id, o⟩ | sigs, applied⟩, p'⟩
      · obtain ⟨hp, hbefore, hv⟩ := throwExit_spec H lib cfg (p := p') (observerOf s cfg)
          (lib.now p.world.lib) round applied
          (digestAt H (observerOf s cfg) (start H lib s cfg p).2) id o
        dsimp only
        unfold KeyStoreJudged
        rw [hp, hbefore, hv]
        cases hf : o.fatal with
        | true => exact ⟨fun hv => absurd hv (Verdict.severe_not_clean rfl), fun _ => rfl⟩
        | false =>
          rcases hc with hon | hno
          · rw [hon]
            exact ⟨fun hv => absurd hv (Verdict.severe_not_clean rfl), fun _ => rfl⟩
          · have hsame : digestAt H (observerOf s cfg) p' =
                digestAt H (observerOf s cfg) (start H lib s cfg p).2 := by
              by_contra hne
              exact hno ⟨round, id, o, applied, p', hr, hf, hne⟩
            exact ⟨fun _ => hsame, fun hne => absurd hsame hne⟩
      · obtain ⟨hp, hbefore, hv, -⟩ := judge_spec H A lib s cfg (p := p')
          (lib.now p.world.lib) applied (digestAt H (observerOf s cfg) (start H lib s cfg p).2) sigs
        dsimp only
        unfold KeyStoreJudged
        rw [hp, hbefore]
        refine ⟨fun hclean => ?_, fun hne => by rw [hv hne]; rfl⟩
        by_contra hne
        rw [hv hne] at hclean
        exact Verdict.severe_not_clean rfl hclean

/-! ## A corruption reported as a clean rejection -/

namespace Swallowed

/-- A key store with one key. -/
def store (privateKey : Scalar) : KeyStore :=
  Std.ExtTreeMap.insert ∅ (str "opus-key") { KeyInfo.empty with privateKey }

def intact : KeyStore := store (Vector.replicate 32 0)

def corrupted : KeyStore := store (Vector.replicate 32 0xFF)

/-- SHA-256 on the canonical strings of the two stores. -/
def sha256 (input : Bytes) : Vector UInt8 32 :=
  if input = List.foldl appendKeyInfo [] intact.toList then
    #v[0xa0, 0x0e, 0x2d, 0x90, 0xb8, 0x86, 0xbe, 0xd4, 0x43, 0xca, 0xa8, 0x01, 0x36, 0x6f, 0xdb, 0x44,
      0x8e, 0xb6, 0x5e, 0x7f, 0x9c, 0x16, 0x94, 0x4e, 0x25, 0xa0, 0xa6, 0xbe, 0x87, 0x92, 0xb4, 0xc6]
  else if input = List.foldl appendKeyInfo [] corrupted.toList then
    #v[0xd8, 0xe1, 0xf8, 0x34, 0x14, 0x9d, 0x53, 0x61, 0xd3, 0x82, 0xcf, 0x6c, 0x31, 0x9f, 0xbc, 0x1e,
      0x63, 0x71, 0x99, 0xe7, 0x23, 0xae, 0x9d, 0x91, 0x66, 0xf4, 0xe9, 0xea, 0xdd, 0x70, 0xbd, 0x9d]
  else Vector.replicate 32 0

def hashes : Hashes := ⟨sha256, fun _ => Vector.replicate 64 0⟩

def algebra : Algebra := ⟨fun _ => some .secp256k1, fun _ _ _ _ => .error 1, fun _ _ _ _ _ => 1⟩

/-- A library whose first call overwrites the caller's key store, and throws. -/
def library : Library Unit where
  maxBlocksToSign := 5
  makeService _ w := .done w
  startSigning id _ _ _ _ _ _ _ w :=
    .done (.error (.cosignerException []), { w with keyStores := w.keyStores.insert id corrupted })
  mtaResponse _ _ _ w := .done (.error .nonStandard, w)
  mtaVerify _ _ _ w := .done (.error .nonStandard, w)
  getSi _ _ _ w := .done (.error .nonStandard, w)
  getCmpSignature _ _ _ w := .done (.error .nonStandard, w)
  now _ := 0

def player (id : UInt64) : SnapshotPlayer := ⟨id, [], [], [], [], [], []⟩

def session : Session := ⟨true, str "opus-key", ⟨0, [], [], 2, 2, [player 1, player 2]⟩, [1, 2]⟩

/-- One block, player 2 malicious, nothing mutated. -/
def config : RunConfig := ⟨1, str "opus-tx-0", [], 1, [44, 0, 0, 0, 0], {2}, [], [], 0⟩

def proc : Proc Unit :=
  ⟨⟨(), ∅, Std.ExtTreeMap.insert (Std.ExtTreeMap.insert ∅ 1 intact) 2 intact⟩,
    .initial true fun _ => 0⟩

end Swallowed

/-- The first call throws over the key store it changed: `CLEAN_REJECT`. -/
theorem swallowed_corruption :
    let r := run Swallowed.hashes Swallowed.algebra Swallowed.library Swallowed.session
      Swallowed.config Swallowed.proc
    r.1.v = .cleanReject ∧ r.1.failedRound = 1 ∧ r.1.keyStoreUnchanged = false ∧
      ¬ KeyStoreJudged Swallowed.hashes Swallowed.session Swallowed.config r.1 r.2 := by
  have hv : (run Swallowed.hashes Swallowed.algebra Swallowed.library Swallowed.session
      Swallowed.config Swallowed.proc).1.v = .cleanReject := by decide
  refine ⟨hv, by decide, by decide +kernel, fun hj => ?_⟩
  exact absurd (hj.1 (.inr hv)) (by decide)

end MpcHunt.Harness.Driver
