/-
What becomes of an incident: in every state that the finalizer reaches, also
where it or the packager is killed, the bundle is whole or is not there, and
the plaintext is as it was until the bundle holds all of it or the packager has
failed.
-/
import MpcHunt.Incident.PackageIncident
import MpcHunt.Lib.Scripts

namespace MpcHunt.Incident

open Checks Digits Encoding Processes

section
variable (opens : Str → Bytes → Option (List Member)) (job : Job) (w₀ : World)

/-- The bundle opens, for the key of the fingerprint, to the evidence there was and the
counters. -/
def SealedWith (telemetry : Option Bytes) (w : World) : Prop :=
  ∃ files fingerprint bytes, validateFiles w₀.place = .ok files ∧
    fingerprintOf job = .ok fingerprint ∧ bytes ≠ [] ∧ w.files .bundle = some bytes ∧
    opens fingerprint bytes = some (archive files telemetry)

def Sealed (w : World) : Prop :=
  ∃ telemetry, telemetryOf job w₀.place = .ok telemetry ∧ SealedWith opens job w₀ telemetry w

/-- The packager has returned another status than 0. -/
def Failed (w : World) : Prop := ∃ n, n ≠ 0 ∧ w.packaged = some n

/-- The bundle is sealed, its plaintext gone, and the counters stand beside it. -/
def Secured (w : World) : Prop :=
  ∃ telemetry, telemetryOf job w₀.place = .ok telemetry ∧ SealedWith opens job w₀ telemetry w ∧
    w.place = .gone ∧ ∀ bytes, telemetry = some bytes → w.files .out = some bytes

/-- The counters, or a part of them. -/
def PartOfCounters (w : World) : Prop :=
  ∃ bytes written, telemetryOf job w₀.place = .ok (some bytes) ∧ written <+: bytes ∧
    w.files .out = some written

/-- What holds all along. -/
structure Kept (w : World) : Prop where
  bundle : w.files .bundle = w₀.files .bundle ∨ w.files .bundle = none ∨ Sealed opens job w₀ w
  plaintext : w.place = w₀.place ∨ Sealed opens job w₀ w ∨ Failed w
  out : w.files .out = w₀.files .out ∨
    PartOfCounters job w₀ w ∧ (Sealed opens job w₀ w ∨ Failed w)
  secured : w.packaged = some 0 → Secured opens job w₀ w
  exit : ∀ status, w.exit = some status → (status = 0 ↔ w.packaged = some 0 ∧ job.priorOk = true) ∧
    (Failed w → w.stuck = false → w.place = .gone ∧ w.files .bundle = none)

end

variable {opens : Str → Bytes → Option (List Member)} {job : Job} {w₀ w w' : World}
  {telemetry : Option Bytes}

/-! ## Before the packager returns -/

def Running (w : World) : Prop := w.packaged = none ∧ w.exit = none

theorem Running.kept (h : Running w)
    (hbundle : w.files .bundle = w₀.files .bundle ∨ w.files .bundle = none ∨ Sealed opens job w₀ w)
    (hplain : w.place = w₀.place ∨ Sealed opens job w₀ w)
    (hout : w.files .out = w₀.files .out ∨ PartOfCounters job w₀ w ∧ Sealed opens job w₀ w) :
    Kept opens job w₀ w where
  bundle := hbundle
  plaintext := hplain.imp_right .inl
  out := hout.imp_right fun h => ⟨h.1, .inl h.2⟩
  secured hpackaged := by
    rw [h.1] at hpackaged
    cases hpackaged
  exit status hexit := by
    rw [h.2] at hexit
    cases hexit

theorem Running.not_failed (h : Running w) : ¬ Failed w := by
  rintro ⟨n, -, hpackaged⟩
  rw [h.1] at hpackaged
  cases hpackaged

/-- The invariant while the packager runs. -/
def Packing (opens : Str → Bytes → Option (List Member)) (job : Job) (w₀ w : World) : Prop :=
  Kept opens job w₀ w ∧ Running w

theorem SealedWith.congr (h : SealedWith opens job w₀ telemetry w)
    (hbundle : w'.files .bundle = w.files .bundle) : SealedWith opens job w₀ telemetry w' := by
  unfold SealedWith
  rw [hbundle]
  exact h

theorem Sealed.congr (h : Sealed opens job w₀ w) (hbundle : w'.files .bundle = w.files .bundle) :
    Sealed opens job w₀ w' := by
  obtain ⟨telemetry, htelemetry, hsealed⟩ := h
  exact ⟨telemetry, htelemetry, hsealed.congr hbundle⟩

theorem PartOfCounters.congr (h : PartOfCounters job w₀ w) (hout : w'.files .out = w.files .out) :
    PartOfCounters job w₀ w' := by
  unfold PartOfCounters
  rw [hout]
  exact h

/-- A step that leaves the bundle and the counters as they are, and the plaintext too where the
bundle is not sealed. -/
theorem Packing.step (h : Packing opens job w₀ w) (hpackaged : w'.packaged = w.packaged)
    (hexit : w'.exit = w.exit) (hbundle : w'.files .bundle = w.files .bundle)
    (hout : w'.files .out = w.files .out) (hplace : w'.place = w.place ∨ Sealed opens job w₀ w) :
    Packing opens job w₀ w' := by
  obtain ⟨hkept, hrun⟩ := h
  have hrun' : Running w' := ⟨hpackaged.trans hrun.1, hexit.trans hrun.2⟩
  have hsealed : Sealed opens job w₀ w → Sealed opens job w₀ w' := fun h => h.congr hbundle
  refine ⟨hrun'.kept ?_ ?_ ?_, hrun'⟩
  · rw [hbundle]
    exact hkept.bundle.imp_right fun h => h.imp_right hsealed
  · rcases hplace with hplace | hplace
    · rw [hplace]
      rcases hkept.plaintext with h | h | h
      · exact .inl h
      · exact .inr (hsealed h)
      · exact absurd h hrun.not_failed
    · exact .inr (hsealed hplace)
  · rw [hout]
    refine hkept.out.imp_right fun ⟨hpart, h⟩ => ⟨hpart.congr hout, ?_⟩
    exact hsealed (h.resolve_right hrun.not_failed)

/-! ## Steps -/

section
variable {Pre : World → Prop} {c : Command}

theorem does_act {Post : Answer c → World → Prop}
    (h : ∀ w, Packing opens job w₀ w → Pre w → ∀ r w', exec opens () w c r w' →
      Packing opens job w₀ w' ∧ Post r w') :
    Does (exec opens) (solo (Packing opens job w₀)) () Pre (act c) Post := by
  have hgo : Triple (exec opens) (solo (Packing opens job w₀)) () Pre (Prog.perform .go) fun _ => Pre :=
    .silent (.solo _ _) fun _ _ _ h => h
  exact Does.bind (.lift hgo) fun _ => Does.check (.solo _ _) fun _ _ => .lift (.solo h)

theorem does_ask {Q : Answer c → World → Prop}
    (h : ∀ w r w', exec opens () w c r w' → w' = w ∧ Q r w) :
    Does (exec opens) (solo (Packing opens job w₀)) () Pre (act c) fun r w => Pre w ∧ Q r w := by
  refine does_act fun w hinv hpre r w' hexec => ?_
  obtain ⟨rfl, hq⟩ := h w r w' hexec
  exact ⟨hinv, hpre, hq⟩

theorem does_look : Does (exec opens) (solo (Packing opens job w₀)) () Pre (act .look)
    fun r w => Pre w ∧ r = w.place :=
  does_ask (c := Command.look) (Q := fun r w => r = w.place) fun _ _ _ h => h

theorem does_isFree {o : Output} : Does (exec opens) (solo (Packing opens job w₀)) () Pre
    (act (.isFree o)) fun _ => Pre :=
  does_act fun w hinv hpre _ w' hexec => by
    obtain rfl : w' = w := hexec.1
    exact ⟨hinv, hpre⟩

theorem does_isThere {o : Output} : Does (exec opens) (solo (Packing opens job w₀)) () Pre
    (act (.isThere o)) fun r w => Pre w ∧ (r = true ↔ ∃ bytes, bytes ≠ [] ∧ w.files o = some bytes) :=
  does_ask (c := Command.isThere o)
    (Q := fun r w => r = true ↔ ∃ bytes, bytes ≠ [] ∧ w.files o = some bytes) fun _ _ _ h => h

/-- A question to `gpg`. -/
theorem does_gpg (h : ∀ w r w', exec opens () w c r w' → w' = w) :
    Does (exec opens) (solo (Packing opens job w₀)) () Pre (act c) fun _ => Pre :=
  does_act fun w hinv hpre r w' hexec => by
    obtain rfl := h w r w' hexec
    exact ⟨hinv, hpre⟩

/-- An answer that must be true. -/
theorem does_check {b : Bool} :
    Does (exec opens) (solo (Packing opens job w₀)) () Pre (check b) fun _ w => Pre w ∧ b = true :=
  Does.except (.solo _ _) fun _ _ h _ hpre => ⟨hpre, by simpa using refuse_eq_ok.1 h⟩

/-- A computation. -/
theorem does_raise {α : Type} {x : Except Fault α} :
    Does (exec opens) (solo (Packing opens job w₀)) () Pre (orRaise x) fun a w => Pre w ∧ x = .ok a :=
  Does.except (.solo _ _) fun _ _ h _ hpre => ⟨hpre, h⟩

end

/-! ## The bundle -/

theorem does_encryptParts {files : List Member} {fingerprint : Str}
    (hfiles : validateFiles w₀.place = .ok files) (hfingerprint : fingerprintOf job = .ok fingerprint)
    (htelemetry : telemetryOf job w₀.place = .ok telemetry) :
    Does (exec opens) (solo (Packing opens job w₀)) () (fun w => w.place = w₀.place)
      (encryptParts fingerprint (archive files telemetry))
      fun _ w => SealedWith opens job w₀ telemetry w := by
  have hencrypt : Does (exec opens) (solo (Packing opens job w₀)) () (fun w => w.place = w₀.place)
      (act (.encrypt fingerprint (archive files telemetry))) fun r w => w.place = w₀.place ∧
        (r = true → ∃ bytes, w.files .part = some bytes ∧
          opens fingerprint bytes = some (archive files telemetry)) := by
    refine does_act fun w hinv hpre r w' hexec => ?_
    obtain ⟨content, rfl, hopens⟩ := hexec
    refine ⟨hinv.step rfl rfl rfl rfl (.inl rfl), hpre, fun hr => ?_⟩
    obtain ⟨bytes, hbytes, hopens⟩ := hopens hr
    exact ⟨bytes, hbytes, hopens⟩
  refine Does.bind hencrypt fun sealed => Does.bind does_check fun _ =>
    Does.bind does_isThere fun there => Does.bind does_check fun _ =>
    Does.bind (does_gpg fun _ _ _ h => h) fun _ => Does.bind does_check fun _ =>
    does_act fun w hinv hpre r w' hexec => ?_
  obtain ⟨⟨⟨⟨⟨-, hopens⟩, hencrypted⟩, hthere⟩, hyes⟩, -⟩ := hpre
  obtain ⟨bytes, hbytes, hseal⟩ := hopens hencrypted
  obtain ⟨bytes', hne, hbytes'⟩ := hthere.1 hyes
  obtain rfl : bytes' = bytes := Option.some.inj (hbytes'.symm.trans hbytes)
  obtain rfl : w' = (w.put .bundle (w.files .part)).put .part none := hexec
  have hsealed : SealedWith opens job w₀ telemetry
      ((w.put .bundle (w.files .part)).put .part none) :=
    ⟨files, fingerprint, bytes', hfiles, hfingerprint, hne, hbytes, hseal⟩
  have hall : Sealed opens job w₀ ((w.put .bundle (w.files .part)).put .part none) :=
    ⟨telemetry, htelemetry, hsealed⟩
  have hrun : Running ((w.put .bundle (w.files .part)).put .part none) := hinv.2
  refine ⟨⟨hrun.kept (.inr (.inr hall)) (.inr hall) ?_, hrun⟩, hsealed⟩
  exact hinv.1.out.imp_right fun h => ⟨h.1.congr rfl, hall⟩

theorem does_removeIfThere {o : Output} (h : ∀ w, Packing opens job w₀ w →
    Packing opens job w₀ (w.put o none)) :
    Does (exec opens) (solo (Packing opens job w₀)) () (fun _ => True) (removeIfThere o)
      fun _ _ => True := by
  refine Does.bind does_isFree fun free => Does.ite (fun _ => ?_) fun _ => ?_
  · exact Does.pure (.solo _ _) fun _ _ _ => trivial
  · have hremove : Does (exec opens) (solo (Packing opens job w₀)) () (fun _ => True)
        (act (.remove o)) fun _ _ => True := by
      refine does_act fun w hinv _ r w' hexec => ?_
      rcases hexec with ⟨-, rfl⟩ | ⟨-, rfl⟩
      · exact ⟨h w hinv, trivial⟩
      · exact ⟨hinv.step rfl rfl rfl rfl (.inl rfl), trivial⟩
    exact Does.bind hremove fun _ => does_check.mono (fun _ _ h => h) fun _ _ _ _ => trivial

theorem does_removePart {Post : Unit → World → Prop} :
    Does (exec opens) (solo (Packing opens job w₀)) () (fun _ => True) removePart Post := by
  have hpart : ∀ w, Packing opens job w₀ w → Packing opens job w₀ (w.put .part none) := by
    intro w h
    exact h.step rfl rfl rfl rfl (.inl rfl)
  refine Does.bind (does_removeIfThere hpart) fun _ => does_raise.mono (fun _ _ h => h) ?_
  intro _ _ _ hraised
  cases hraised.2

theorem does_encryptBundle {files : List Member} {fingerprint : Str}
    (hfiles : validateFiles w₀.place = .ok files) (hfingerprint : fingerprintOf job = .ok fingerprint)
    (htelemetry : telemetryOf job w₀.place = .ok telemetry) :
    Does (exec opens) (solo (Packing opens job w₀)) () (fun w => w.place = w₀.place)
      (encryptBundle fingerprint (archive files telemetry))
      fun _ w => SealedWith opens job w₀ telemetry w := by
  refine Triple.bind (does_encryptParts hfiles hfingerprint htelemetry) fun r => Triple.ite ?_ ?_
  · exact fun _ => does_removePart.mono (fun _ _ _ => trivial) fun _ _ _ h => h
  · exact fun _ => .pure (.solo _ _) fun _ _ h => h

/-! ## The packager -/

theorem does_checkGone {left : Place} {Pre : World → Prop} (h : left = .gone) :
    Does (exec opens) (solo (Packing opens job w₀)) () Pre (checkGone left) fun _ => Pre := by
  subst h
  exact Does.pure (.solo _ _) fun _ _ hpre => hpre

theorem does_package (htelemetry : telemetryOf job w₀.place = .ok telemetry) :
    Does (exec opens) (solo (Packing opens job w₀)) () (fun w => w.place = w₀.place)
      (package job telemetry)
      fun _ w => SealedWith opens job w₀ telemetry w ∧ w.place = .gone := by
  have hlook : Does (exec opens) (solo (Packing opens job w₀)) () (fun w => w.place = w₀.place)
      (act .look) fun r w => w.place = w₀.place ∧ r = w₀.place :=
    does_look.mono (fun _ _ h => h) fun _ _ _ h => ⟨h.1, h.2.trans h.1⟩
  refine Does.bind hlook fun place => Does.given fun hplace => ?_
  subst hplace
  refine Does.bind does_raise fun files => Does.given fun hfiles => ?_
  refine Does.bind does_raise fun fingerprint => Does.given fun hfingerprint => ?_
  refine Does.bind does_raise fun key => Does.given fun _ => ?_
  refine Does.bind does_isFree fun free => Does.bind does_check fun _ => ?_
  refine Does.bind (does_gpg fun _ _ _ h => h) fun listing => ?_
  refine Does.bind does_raise fun listing => Does.bind does_raise fun fingerprints => ?_
  refine Does.bind does_raise fun _ => ?_
  refine Does.bind does_isFree fun free => Does.bind does_check fun _ => ?_
  have hbundle := @does_encryptBundle opens job w₀ _ files fingerprint hfiles hfingerprint htelemetry
  refine Does.bind (hbundle.mono (fun w _ h => ?_) fun _ _ _ h => h) fun _ => ?_
  · tauto
  have hremove : Does (exec opens) (solo (Packing opens job w₀)) ()
      (SealedWith opens job w₀ telemetry) (act .rmtree) fun r w =>
        SealedWith opens job w₀ telemetry w ∧ (r = true → w.place = .gone) := by
    refine does_act fun w hinv hsealed r w' hexec => ?_
    have hall : Sealed opens job w₀ w := ⟨telemetry, htelemetry, hsealed⟩
    rcases hexec with ⟨-, rfl⟩ | ⟨rfl, entries, rfl⟩
    · exact ⟨hinv.step rfl rfl rfl rfl (.inr hall), hsealed.congr rfl, fun _ => rfl⟩
    · exact ⟨hinv.step rfl rfl rfl rfl (.inr hall), hsealed.congr rfl, fun h => by cases h⟩
  refine Does.bind hremove fun removed => Does.bind does_check fun _ => ?_
  have hgone : Does (exec opens) (solo (Packing opens job w₀)) ()
      (fun w => (SealedWith opens job w₀ telemetry w ∧ (removed = true → w.place = .gone)) ∧
        removed = true) (act .look)
      fun r w => (SealedWith opens job w₀ telemetry w ∧ w.place = .gone) ∧ r = .gone :=
    does_look.mono (fun _ _ h => h) fun _ _ _ h =>
      ⟨⟨h.1.1.1, h.1.1.2 h.1.2⟩, h.2.trans (h.1.1.2 h.1.2)⟩
  exact Does.bind hgone fun left => Does.given does_checkGone

theorem does_mainBody :
    Does (exec opens) (solo (Packing opens job w₀)) () (fun w => w.place = w₀.place)
      (mainBody job w₀.place) fun _ w => Secured opens job w₀ w := by
  refine Does.bind does_raise fun telemetry => Does.given fun htelemetry => ?_
  have hout : Does (exec opens) (solo (Packing opens job w₀)) () (fun w => w.place = w₀.place)
      (checkOut telemetry) fun _ w => w.place = w₀.place := by
    cases telemetry with
    | none => exact Does.pure (.solo _ _) fun _ _ h => h
    | some bytes =>
      exact Does.bind does_isFree fun _ => does_check.mono (fun _ _ h => h) fun _ _ _ h => h.1
  refine Does.bind hout fun _ => Does.bind (does_package htelemetry) fun _ => ?_
  cases telemetry with
  | none =>
    refine Does.pure (.solo _ _) fun w _ h => ⟨none, htelemetry, h.1, h.2, fun _ h => ?_⟩
    cases h
  | some bytes =>
    have hwrite : Does (exec opens) (solo (Packing opens job w₀)) ()
        (fun w => SealedWith opens job w₀ (some bytes) w ∧ w.place = .gone) (act (.write bytes))
        fun r w => (SealedWith opens job w₀ (some bytes) w ∧ w.place = .gone) ∧
          (r = true → w.files .out = some bytes) := by
      refine does_act fun w hinv hpre r w' hexec => ?_
      obtain ⟨written, hwritten, rfl, hwhole⟩ := hexec
      have hsealed : SealedWith opens job w₀ (some bytes) (w.put .out (some written)) := hpre.1.congr rfl
      have hall : Sealed opens job w₀ (w.put .out (some written)) := ⟨_, htelemetry, hsealed⟩
      have hpart : PartOfCounters job w₀ (w.put .out (some written)) :=
        ⟨bytes, written, htelemetry, hwritten, rfl⟩
      have hrun : Running (w.put .out (some written)) := hinv.2
      refine ⟨⟨hrun.kept (.inr (.inr hall)) (.inr hall) (.inr ⟨hpart, hall⟩), hrun⟩,
        ⟨hsealed, hpre.2⟩, fun hr => ?_⟩
      rw [← hwhole hr]
      rfl
    refine Does.bind hwrite fun written => does_check.mono (fun _ _ h => h) fun _ w _ h => ?_
    refine ⟨some bytes, htelemetry, h.1.1.1, h.1.1.2, fun bytes' hbytes => ?_⟩
    obtain rfl := Option.some.inj hbytes
    exact h.1.2 h.2

theorem statusOf_eq_zero {r : Except Fault Unit} (h : statusOf r = 0) : r = .ok () := by
  cases r with
  | ok _ => rfl
  | error fault => cases fault <;> cases h

theorem triple_packager :
    Triple (exec opens) (solo (Kept opens job w₀)) () (fun w => Running w ∧ w.place = w₀.place)
      (packager job w₀.place) fun status w => w.exit = none ∧ w.packaged = some status := by
  have hbody : Triple (exec opens) (solo (Kept opens job w₀)) ()
      (fun w => Packing opens job w₀ w ∧ w.place = w₀.place) (mainBody job w₀.place).run _ :=
    Triple.widen (fun w h => h.1) does_mainBody
  refine Triple.bind (hbody.mono (fun w hinv h => ⟨⟨hinv, h.1⟩, h.2⟩) fun _ _ _ h => h) fun r => ?_
  have hended : Triple (exec opens) (solo (Kept opens job w₀)) ()
      (fun w => Packing opens job w₀ w ∧ ∀ a, r = .ok a → Secured opens job w₀ w)
      (.perform (.ended (statusOf r))) fun _ w => w.exit = none ∧ w.packaged = some (statusOf r) := by
    refine .solo fun w _ hpre _ w' hexec => ?_
    obtain rfl : w' = { w with packaged := some (statusOf r) } := hexec
    obtain ⟨⟨hkept, hrun⟩, hsecured⟩ := hpre
    refine ⟨⟨hkept.bundle, ?_, ?_, fun h => ?_, fun status h => ?_⟩, hrun.2, rfl⟩
    · exact hkept.plaintext.imp_right fun h => .inl (h.resolve_right hrun.not_failed)
    · exact hkept.out.imp_right fun h => ⟨h.1, .inl (h.2.resolve_right hrun.not_failed)⟩
    · exact hsecured () (statusOf_eq_zero (Option.some.inj h))
    · rw [hrun.2] at h
      cases h
  exact Triple.bind hended fun _ => .pure (.solo _ _) fun _ _ h => h

/-! ## The finalizer -/

theorem Failed.not_zero (h : Failed w) : w.packaged ≠ some 0 := by
  obtain ⟨n, hn, hpackaged⟩ := h
  rw [hpackaged]
  exact fun h => hn (Option.some.inj h)

/-- Once the packager has failed, the bundle and the plaintext may go. -/
theorem Kept.of_failed (h : Kept opens job w₀ w) (hfailed : Failed w)
    (hpackaged : w'.packaged = w.packaged) (hexit : w'.exit = none)
    (hbundle : w'.files .bundle = w.files .bundle ∨ w'.files .bundle = none)
    (hout : w'.files .out = w.files .out) : Kept opens job w₀ w' := by
  have hfailed' : Failed w' := by
    unfold Failed
    rw [hpackaged]
    exact hfailed
  refine ⟨?_, .inr (.inr hfailed'), ?_, fun h => absurd h hfailed'.not_zero, fun status h => ?_⟩
  · rcases hbundle with hbundle | hbundle
    · rw [hbundle]
      exact h.bundle.imp_right fun h => h.imp_right fun h => h.congr hbundle
    · exact .inr (.inl hbundle)
  · rw [hout]
    exact h.out.imp_right fun h => ⟨h.1.congr hout, .inr hfailed'⟩
  · rw [hexit] at h
    cases h

theorem triple_removePlain {left : Place} :
    Triple (exec opens) (solo (Kept opens job w₀)) ()
      (fun w => (w.exit = none ∧ Failed w) ∧ left = w.place) (removePlain left)
      fun removed w => (w.exit = none ∧ Failed w) ∧ (removed = true → w.place = .gone) ∧
        (removed = false → w.stuck = true) := by
  refine Triple.ite (fun hgone => .pure (.solo _ _) fun w _ h => ?_) fun _ => ?_
  · refine ⟨h.1, fun _ => ?_, fun h => by cases h⟩
    cases left with
    | gone => exact h.2.symm
    | dir entries => cases hgone
  · have hshred : Triple (exec opens) (solo (Kept opens job w₀)) ()
        (fun w => (w.exit = none ∧ Failed w) ∧ left = w.place) (.perform .shred)
        fun _ w => w.exit = none ∧ Failed w := by
      refine .solo fun w hinv hpre _ w' hexec => ?_
      obtain ⟨entries, rfl⟩ := hexec
      exact ⟨hinv.of_failed hpre.1.2 rfl hpre.1.1 (.inl rfl) rfl, hpre.1⟩
    refine Triple.bind hshred fun _ => .solo fun w hinv hpre removed w' hexec => ?_
    rcases hexec with ⟨rfl, rfl⟩ | ⟨rfl, entries, rfl⟩
    · exact ⟨hinv.of_failed hpre.2 rfl hpre.1 (.inl rfl) rfl, hpre, fun _ => rfl, fun h => (by cases h)⟩
    · exact ⟨hinv.of_failed hpre.2 rfl hpre.1 (.inl rfl) rfl, hpre, fun h => (by cases h), fun _ => rfl⟩

/-- What the finalizer's status says. -/
def Ended (job : Job) (status : Nat) (w : World) : Prop :=
  (status = 0 ↔ w.packaged = some 0 ∧ job.priorOk = true) ∧
    (Failed w → w.stuck = false → w.place = .gone ∧ w.files .bundle = none)

theorem Ended.of_failed (hfailed : Failed w)
    (h : w.stuck = false → w.place = .gone ∧ w.files .bundle = none) : Ended job 1 w :=
  ⟨⟨fun h => (by cases h), fun h => absurd h.1 hfailed.not_zero⟩, fun _ => h⟩

theorem triple_destroy {left : Place} :
    Triple (exec opens) (solo (Kept opens job w₀)) ()
      (fun w => (w.exit = none ∧ Failed w) ∧ left = w.place) (destroy left)
      fun status w => w.exit = none ∧ Ended job status w := by
  refine Triple.bind triple_removePlain fun removed => Triple.ite (fun hremoved => ?_) fun hremoved => ?_
  · refine .pure (.solo _ _) fun w _ h => ⟨h.1.1, .of_failed h.1.2 fun hstuck => ?_⟩
    rw [h.2.2 hremoved] at hstuck
    cases hstuck
  · have hbundle : Triple (exec opens) (solo (Kept opens job w₀)) ()
        (fun w => (w.exit = none ∧ Failed w) ∧ (removed = true → w.place = .gone) ∧
          (removed = false → w.stuck = true)) (.perform (.remove .bundle))
        fun _ w => (w.exit = none ∧ Failed w) ∧
          (w.stuck = false → w.place = .gone ∧ w.files .bundle = none) := by
      refine .solo fun w hinv hpre r w' hexec => ?_
      have hgone : w.place = .gone := hpre.2.1 (by simpa using hremoved)
      rcases hexec with ⟨-, rfl⟩ | ⟨-, rfl⟩
      · exact ⟨hinv.of_failed hpre.1.2 rfl hpre.1.1 (.inr rfl) rfl, hpre.1, fun _ => ⟨hgone, rfl⟩⟩
      · exact ⟨hinv.of_failed hpre.1.2 rfl hpre.1.1 (.inl rfl) rfl, hpre.1, fun h => by cases h⟩
    exact Triple.bind hbundle fun _ => .pure (.solo _ _) fun w _ h => ⟨h.1.1, .of_failed h.1.2 h.2⟩

section
variable {Pre : World → Prop}

theorem triple_look : Triple (exec opens) (solo (Kept opens job w₀)) () Pre (.perform .look)
    fun r w => Pre w ∧ r = w.place :=
  Triple.ask (R := Answer) (c := Command.look) (Q := fun r w => r = World.place w) fun _ _ _ h => h

theorem triple_isThere : Triple (exec opens) (solo (Kept opens job w₀)) () Pre
    (.perform (.isThere .bundle)) fun r w => Pre w ∧
      (r = true ↔ ∃ bytes, bytes ≠ [] ∧ w.files .bundle = some bytes) :=
  Triple.ask (R := Answer) (c := Command.isThere .bundle)
    (Q := fun r w => r = true ↔ ∃ bytes, bytes ≠ [] ∧ World.files w .bundle = some bytes)
    fun _ _ _ h => h

end

theorem triple_finalize :
    Triple (exec opens) (solo (Kept opens job w₀)) () (fun w => Running w ∧ w.place = w₀.place)
      (finalize job) fun status w => w.exit = none ∧ Ended job status w := by
  have hlook : Triple (exec opens) (solo (Kept opens job w₀)) ()
      (fun w => Running w ∧ w.place = w₀.place) (.perform .look)
      fun place w => (Running w ∧ w.place = w₀.place) ∧ place = w₀.place :=
    triple_look.mono (fun _ _ h => h) fun _ _ _ h => ⟨h.1, h.2.trans h.1.2⟩
  refine Triple.bind hlook fun place => Triple.given fun hplace => ?_
  subst hplace
  refine Triple.ite (fun _ => .pure (.solo _ _) fun w _ h => ?_) fun _ => ?_
  · refine ⟨h.1.2, ⟨fun h => (by cases h), fun hzero => ?_⟩, fun hfailed => absurd hfailed h.1.not_failed⟩
    rw [h.1.1] at hzero
    cases hzero.1
  refine Triple.bind triple_packager fun status => ?_
  refine Triple.bind triple_isThere fun there => Triple.bind triple_look fun left => ?_
  refine Triple.ite (fun hsecured => .pure (.solo _ _) fun w _ h => ?_) fun hlost => ?_
  · obtain ⟨⟨⟨hexit, hpackaged⟩, -⟩, -⟩ := h
    rw [hsecured.1] at hpackaged
    refine ⟨hexit, ⟨?_, fun hfailed => absurd hpackaged hfailed.not_zero⟩⟩
    cases job.priorOk <;> simp [hpackaged]
  · refine triple_destroy.mono (fun w hinv h => ?_) fun _ _ _ h => h
    obtain ⟨⟨⟨hexit, hpackaged⟩, hthere⟩, hleft⟩ := h
    refine ⟨⟨hexit, status, fun hzero => hlost ?_, hpackaged⟩, hleft⟩
    rw [hzero] at hpackaged
    obtain ⟨_, -, ⟨_, _, bytes, -, -, hne, hbundle, -⟩, hgone, -⟩ := hinv.secured hpackaged
    exact ⟨hzero, hthere.2 ⟨bytes, hne, hbundle⟩, by rw [hleft, hgone]; rfl⟩

theorem triple_program :
    Triple (exec opens) (solo (Kept opens job w₀)) () (fun w => Running w ∧ w.place = w₀.place)
      (program job) fun _ _ => True := by
  refine Triple.bind triple_finalize fun status => .solo fun w hinv hpre _ w' hexec => ?_
  obtain rfl : w' = { w with exit := some status } := hexec
  refine ⟨⟨hinv.bundle, hinv.plaintext, hinv.out, hinv.secured, fun status' h => ?_⟩, trivial⟩
  obtain rfl := Option.some.inj h
  exact hpre.2

theorem kept_of_reach (hstart : Running w₀) {s : System Command Answer World Unit}
    (hreach : Reach (exec opens) (start job w₀) s) : Kept opens job w₀ s.world := by
  have hkept : Kept opens job w₀ w₀ := hstart.kept (.inl rfl) (.inl rfl) (.inl rfl)
  refine inv_of_reach (D := solo (Kept opens job w₀)) (s := start job w₀) hkept (fun p x hx => ?_) hreach
  obtain rfl := Option.some.inj hx
  exact (triple_program w₀ hkept ⟨hstart, rfl⟩).mono fun _ _ _ _ => trivial

/-- In every state that the finalizer reaches, wherever it or the packager is killed, the evidence
is kept. -/
theorem evidence_kept (opens : Str → Bytes → Option (List Member)) (job : Job) (w₀ : World)
    (hstart : Running w₀) (s : System Command Answer World Unit)
    (hreach : Reach (exec opens) (start job w₀) s) : Kept opens job w₀ s.world :=
  kept_of_reach hstart hreach

/-! ## One incident -/

theorem runs_act {c : Command} {r : Answer c} (h : exec opens () w c r w') :
    Runs (exec opens) () w (act c).run (.ok r) w' :=
  Runs.script_bind (Runs.script_query (c := Command.go) (a := none) rfl)
    (Runs.script_check rfl (Runs.script_query h))

theorem runs_check : Runs (exec opens) () w (check true).run (.ok ()) w := .ret

/-- The files after the bundle has been sealed. -/
def World.seal (w : World) (bytes : Bytes) : World :=
  ((w.put .part (some bytes)).put .bundle (some bytes)).put .part none

theorem runs_encryptParts {fingerprint : Str} {members : List Member} {bytes : Bytes}
    (hne : bytes ≠ []) (hopens : opens fingerprint bytes = some members) :
    Runs (exec opens) () w (encryptParts fingerprint members).run (.ok ()) (w.seal bytes) := by
  refine Runs.script_bind (runs_act (r := true) ⟨some bytes, rfl, fun _ => ⟨bytes, rfl, hopens⟩⟩) ?_
  refine Runs.script_bind runs_check ?_
  refine Runs.script_bind (runs_act (r := true) ⟨rfl, fun _ => ⟨bytes, hne, rfl⟩, fun _ => rfl⟩) ?_
  refine Runs.script_bind runs_check ?_
  refine Runs.script_bind (runs_act (c := Command.listPackets) (r := true) rfl) ?_
  refine Runs.script_bind runs_check ?_
  exact runs_act (c := Command.replace) rfl

theorem runs_package {files : List Member} {fingerprint : Str} {key listing bytes : Bytes}
    {fingerprints : List Str} (hfiles : validateFiles w.place = .ok files)
    (hfingerprint : fingerprintOf job = .ok fingerprint) (hkey : keyOf job = .ok key)
    (hlisting : imported listing = .ok fingerprints)
    (hlisted : fingerprints.contains fingerprint = true) (hbundle : w.files .bundle = none)
    (hpart : w.files .part = none) (hne : bytes ≠ [])
    (hopens : opens fingerprint bytes = some (archive files telemetry)) :
    Runs (exec opens) () w (package job telemetry).run (.ok ())
      { w.seal bytes with place := .gone } := by
  refine Runs.script_bind (runs_act (c := Command.look) (r := w.place) ⟨rfl, rfl⟩) ?_
  refine Runs.script_check hfiles (Runs.script_check hfingerprint (Runs.script_check hkey ?_))
  refine Runs.script_bind (runs_act (r := true) ⟨rfl, fun _ => hbundle, fun _ => rfl⟩) ?_
  refine Runs.script_bind runs_check ?_
  refine Runs.script_bind (runs_act (c := Command.list key fingerprint) (r := some listing) rfl) ?_
  refine Runs.script_check rfl (Runs.script_check hlisting ?_)
  refine Runs.script_check (a := ()) (refuse_eq_ok.2 (by rw [hlisted]; decide)) ?_
  refine Runs.script_bind (runs_act (r := true) ⟨rfl, fun _ => hpart, fun _ => rfl⟩) ?_
  refine Runs.script_bind runs_check ?_
  have hsealed : Runs (exec opens) () w (encryptBundle fingerprint (archive files telemetry)).run
      (.ok ()) (w.seal bytes) := Runs.bind (runs_encryptParts hne hopens) .ret
  refine Runs.script_bind hsealed ?_
  refine Runs.script_bind (runs_act (c := Command.rmtree) (r := true) (.inl ⟨rfl, rfl⟩)) ?_
  refine Runs.script_bind runs_check ?_
  refine Runs.script_bind (runs_act (c := Command.look) (r := .gone) ⟨rfl, rfl⟩) ?_
  exact .ret

/-- Where every check passes, the finalizer can secure the evidence. -/
theorem runs_program {files : List Member} {fingerprint : Str} {key listing bytes : Bytes}
    {fingerprints : List Str} {entries : List (Str × Summary.Node)} (hplace : w.place = .dir entries)
    (hprior : job.priorOk = true) (htelemetry : telemetryOf job w.place = .ok none)
    (hfiles : validateFiles w.place = .ok files)
    (hfingerprint : fingerprintOf job = .ok fingerprint) (hkey : keyOf job = .ok key)
    (hlisting : imported listing = .ok fingerprints)
    (hlisted : fingerprints.contains fingerprint = true) (hbundle : w.files .bundle = none)
    (hpart : w.files .part = none) (hne : bytes ≠ [])
    (hopens : opens fingerprint bytes = some (archive files none)) :
    Runs (exec opens) () w (program job) ()
      { w.seal bytes with place := .gone, packaged := some 0, exit := some 0 } := by
  have hbody : Runs (exec opens) () w (mainBody job w.place).run (.ok ())
      { w.seal bytes with place := .gone } := by
    refine Runs.script_check htelemetry (Runs.script_bind (a := ()) .ret ?_)
    refine Runs.script_bind (a := ()) ?_ .ret
    exact runs_package hfiles hfingerprint hkey hlisting hlisted hbundle hpart hne hopens
  have hpackager : Runs (exec opens) () w (packager job w.place) 0
      { w.seal bytes with place := .gone, packaged := some 0 } :=
    Runs.bind hbody (Runs.bind (Runs.perform (c := Command.ended 0) (r := ()) rfl) .ret)
  have hfinalize : Runs (exec opens) () w (finalize job) 0
      { w.seal bytes with place := .gone, packaged := some 0 } := by
    refine Runs.bind (Runs.perform (c := Command.look) (r := w.place) ⟨rfl, rfl⟩) ?_
    have hthere : ¬ w.place.isGone = true := by
      rw [hplace]
      exact Bool.false_ne_true
    rw [if_neg hthere]
    refine Runs.bind hpackager (Runs.bind (Runs.perform (c := Command.isThere .bundle) (r := true)
      ⟨rfl, fun _ => ⟨bytes, hne, rfl⟩, fun _ => rfl⟩) ?_)
    refine Runs.bind (Runs.perform (c := Command.look) (r := .gone) ⟨rfl, rfl⟩) ?_
    rw [if_pos ⟨rfl, rfl, rfl⟩, hprior]
    exact .ret
  exact Runs.bind hfinalize (.call (c := Command.exit 0) (r := ()) rfl .ret)

def oneFingerprint : Str := List.replicate 40 65

def oneJob : Job :=
  ⟨some (encodeAscii oneFingerprint), some (encodeAscii (text "-----BEGIN PGP PUBLIC KEY BLOCK-----")),
    true, none⟩

/-- The finalizer can secure each directory that the packager takes. -/
theorem one_run {entries : List (Str × Summary.Node)} {files : List Member}
    (hfiles : validateFiles (.dir entries) = .ok files)
    (hopens : opens oneFingerprint [1] = some (archive files none)) :
    ∃ s, Reach (exec opens) (start oneJob ⟨.dir entries, fun _ => none, none, none, false⟩) s ∧
      s.world.packaged = some 0 ∧ s.world.exit = some 0 := by
  have hlisting : imported (encodeAscii (text "fpr:::::::::" ++ oneFingerprint ++ text ":\n")) =
      .ok [oneFingerprint] := by decide
  have htelemetry : telemetryOf oneJob (.dir entries) = .ok none := by
    unfold telemetryOf
    split_ifs <;> rfl
  have hfingerprint : fingerprintOf oneJob = .ok oneFingerprint := by decide
  have hkey : ∃ key, keyOf oneJob = .ok key := exists_of_isOk (by decide)
  obtain ⟨key, hkey⟩ := hkey
  have hrun := runs_program (w := ⟨.dir entries, fun _ => none, none, none, false⟩) rfl rfl htelemetry
    hfiles hfingerprint hkey hlisting (by decide) rfl rfl (List.cons_ne_nil 1 []) hopens
  obtain ⟨procs, hreach, -⟩ := hrun.reach
    (show (start oneJob ⟨.dir entries, fun _ => none, none, none, false⟩).procs () = _ from rfl)
  exact ⟨_, hreach, rfl, rfl⟩

def oneFiles : List Member := [(text "exit_code", [48, 10]), (text "fuzzer.raw.log", [35])]

def oneWorld : World :=
  ⟨.dir (Summary.entriesOf oneFiles), fun _ => none, none, none, false⟩

def oneOpens (_ : Str) (bytes : Bytes) : Option (List Member) :=
  if bytes = [1] then some (archive oneFiles none) else none

/-- A run to the end: the finalizer exits with 0, and the bundle opens to the evidence. -/
theorem evidence_kept_one : ∃ s, Reach (exec oneOpens) (start oneJob oneWorld) s ∧
    s.world.exit = some 0 ∧ Kept oneOpens oneJob oneWorld s.world := by
  have hfiles : validateFiles oneWorld.place = .ok oneFiles := by decide
  have hopens : oneOpens oneFingerprint [1] = some (archive oneFiles none) := rfl
  obtain ⟨s, hreach, -, hexit⟩ := one_run hfiles hopens
  exact ⟨s, hreach, hexit, evidence_kept oneOpens oneJob oneWorld ⟨rfl, rfl⟩ s hreach⟩

end MpcHunt.Incident
