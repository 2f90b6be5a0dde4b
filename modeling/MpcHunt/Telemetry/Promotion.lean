/-
The promotion gate and the lane it is for. The gate wants seven cells, each
selected and applied; the lane cmp_r4_tn selects four of them. So no campaign
of the lane passes, however complete it is.
-/
import MpcHunt.Telemetry.R4Lane
import MpcHunt.Telemetry.Readers

namespace MpcHunt.Telemetry

open Digits Json Checks Encoding Processes Harness
open Summary (Node)
open ValidateRt4 (Location validate)

/-! ## What the gate reads of a directory -/

/-- What a directory shows: every file once. -/
structure Lists {P : Type} (w : World P) (dir : Str) (entries : List (Str × Node)) : Prop where
  once : (entries.map Prod.fst).Nodup
  files : ∀ name node, (name, node) ∈ entries ↔
    ∃ f, w.files dir name = some f ∧ node = .regular (encodeAscii f.content)

/-- A name of a document is the one the recorder writes. -/
theorem numbered_telemetryName {name : Str} {index : Nat}
    (h : numbered telemetryName name = some index) : name = documentName index := by
  unfold numbered at h
  split at h
  · next ds hcapture =>
    obtain ⟨-, hfill⟩ := Template.fill_of_capture hcapture
    by_cases hcanonical : Canonical ds
    · rw [if_pos hcanonical, Option.some.injEq] at h
      rw [← hfill, ← h]
      unfold documentName
      rw [showInt_natCast, decimal_value hcanonical]
      simp [telemetryName, Template.fill]
    · rw [if_neg hcanonical] at h
      cases h
  · cases h

/-- Every file the gate takes is one of the directory, by its number. -/
theorem strictRegularFiles_ok {entries : List (Str × Node)} {pattern : List (Piece Nat)} {code : Str}
    {files : Dict Nat (List UInt8)}
    (h : ValidateRt4.strictRegularFiles (.directory entries) pattern code = .ok files) :
    ∀ file ∈ files, ∃ name, (name, Node.regular file.2) ∈ entries ∧
      numbered pattern name = some file.1 := by
  refine foldlM_ok h (I := fun files => ∀ file ∈ files, ∃ name,
    (name, Node.regular file.2) ∈ entries ∧ numbered pattern name = some file.1) nofun ?_
  intro entry hentry files files' hfiles hstep file hfile
  obtain ⟨name, node⟩ := entry
  cases node with
  | symlink => cases hstep
  | other => cases hstep
  | regular bytes =>
    dsimp only at hstep
    cases hnumber : numbered pattern name with
    | none =>
      rw [hnumber] at hstep
      cases hstep
    | some index =>
      rw [hnumber] at hstep
      obtain ⟨-, hstep⟩ := guard_eq_ok.1 hstep
      obtain rfl := Except.ok.inj hstep
      rcases List.mem_append.1 hfile with hfile | hfile
      · exact hfiles file hfile
      · rw [List.mem_singleton.1 hfile]
        exact ⟨name, hentry, hnumber⟩

/-! ## What the gate reads of a document -/

/-- Each entry of a map of counters is the number under its key. -/
theorem count_of_mapM {f : Str → Except Str Int} {keys : List Str} {m : Dict Str Int}
    (h : keys.mapM (fun key => (f key).map fun n => (key, n)) = .ok m) {key : Str} (hkey : key ∈ keys) :
    f key = .ok (count m key) := by
  induction keys generalizing m with
  | nil => cases hkey
  | cons key' keys ih =>
    rw [List.mapM_cons] at h
    obtain ⟨entry, hentry, h⟩ := bind_eq_ok.1 h
    obtain ⟨rest, hrest, h⟩ := bind_eq_ok.1 h
    obtain rfl : entry :: rest = m := Except.ok.inj h
    cases hf : f key' with
    | error e =>
      rw [hf] at hentry
      cases hentry
    | ok n =>
      rw [hf] at hentry
      obtain rfl : (key', n) = entry := Except.ok.inj hentry
      unfold count
      rw [Dict.get?_cons]
      by_cases hsame : key' = key
      · rw [if_pos hsame, ← hsame, hf]
        rfl
      · rw [if_neg hsame]
        exact ih hrest ((List.mem_cons.1 hkey).resolve_left (Ne.symm hsame))

theorem expectExactKeys_eq {members out : Dict Str Value} {keys : List Str} {code : Str}
    (h : ValidateRt4.expectExactKeys (.object members) keys code = .ok out) : out = members := by
  unfold ValidateRt4.expectExactKeys at h
  exact (Except.ok.inj (guard_eq_ok.1 h).2).symm

/-- A document that is taken has its counters under `counters`. -/
theorem parseDocument_counters {v : Value} {index : Nat} {report : ValidateRt4.Report}
    (h : ValidateRt4.parseDocument v index = .ok report) :
    ∃ root counters, ValidateRt4.expectExactKeys v documentKeys (text "DOCUMENT_SHAPE") = .ok root ∧
      ValidateRt4.expectExactKeys (member root (text "counters")) counterKeys
        (text "COUNTERS_SHAPE") = .ok counters ∧
      ValidateRt4.expectSection counters = .ok report.counters := by
  unfold ValidateRt4.parseDocument at h
  simp only [bind_eq_ok] at h
  obtain ⟨root, hroot, _, -, _, -, _, -, _, -, _, -, _, -, _, -, _, -, _, -, _, -, _, -, _, -, _, -, _, -,
    _, -, counters, hcounters, c, hc, _, -, h⟩ := h
  cases h
  exact ⟨root, counters, hroot, hcounters, hc⟩

/-- What the gate counts of a cell in a document that the recorder has written. -/
theorem count_of_readJson {d : Document} (hclean : d.Clean) {index : Nat} {v : Value}
    {report : ValidateRt4.Report} (hread : ValidateRt4.readJson (encodeAscii d.render) = .ok v)
    (hparse : ValidateRt4.parseDocument v index = .ok report) {cell : Str} (hcell : cell ∈ cells) :
    count report.counters.selected cell = d.counters.selected.at cell := by
  have hv : v = .object d.members := by
    obtain ⟨-, hread⟩ := guard_eq_ok.1 hread
    have hloads : decodeUtf8 (encodeAscii d.render) >>= loads ValidateRt4.hooks = some d.value :=
      gate_loads_render hclean
    rw [hloads] at hread
    exact (Except.ok.inj hread).symm
  obtain ⟨root, counters, hroot, hcounters, hsection⟩ := parseDocument_counters hparse
  rw [hv] at hroot
  obtain rfl := expectExactKeys_eq hroot
  rw [d.member_members.2.2.2.2] at hcounters
  obtain rfl : counters = d.counters.members := expectExactKeys_eq hcounters
  unfold ValidateRt4.expectSection at hsection
  simp only [bind_eq_ok] at hsection
  obtain ⟨_, -, _, -, _, -, selected, hselected, _, -, _, -, _, -, hsection⟩ := hsection
  rw [← Except.ok.inj hsection]
  dsimp only
  rw [d.counters.member_members.2.2.2.1] at hselected
  obtain ⟨members, hmembers, hselected⟩ := bind_eq_ok.1 hselected
  obtain rfl := expectExactKeys_eq hmembers
  have hcount := count_of_mapM hselected hcell
  rw [member_value (by rw [hclean.counters.selected]; exact mem_sorted.2 hcell)] at hcount
  exact (Except.ok.inj (guard_eq_ok.1 hcount).2).symm

/-! ## Totals -/

theorem count_of_addMap {keys : List Str} {totals counters sum : Dict Str Int}
    (h : ValidateRt4.addMap keys totals counters = .ok sum) {key : Str} (hkey : key ∈ keys) :
    count sum key = count totals key + count counters key := by
  have hadd := count_of_mapM h hkey
  exact (Except.ok.inj (guard_eq_ok.1 hadd).2).symm

theorem count_zeroMap (keys : List Str) (key : Str) : count (ValidateRt4.zeroMap keys) key = 0 := by
  unfold count ValidateRt4.zeroMap
  induction keys with
  | nil => rfl
  | cons key' keys ih =>
    rw [List.map_cons, Dict.get?_cons]
    by_cases h : key' = key
    · rw [if_pos h]
      rfl
    · rw [if_neg h]
      exact ih

/-- The total of a cell that no document has selected. -/
theorem count_of_aggregate {documents : List ValidateRt4.Report} {totals : Section}
    (h : ValidateRt4.aggregate documents = .ok totals) {cell : Str} (hcell : cell ∈ cells)
    (hzero : ∀ d ∈ documents, count d.counters.selected cell = 0) : count totals.selected cell = 0 := by
  refine foldlM_ok h (I := fun totals => count totals.selected cell = 0) ?_ ?_
  · exact count_zeroMap cells cell
  · intro d hd sum sum' hsum hstep
    unfold ValidateRt4.addSection at hstep
    simp only [bind_eq_ok] at hstep
    obtain ⟨_, -, _, -, _, -, selected, hselected, _, -, _, -, _, -, hstep⟩ := hstep
    cases hstep
    dsimp only
    rw [count_of_addMap hselected hcell, hsum, hzero d hd]
    rfl

/-! ## What the gate has read -/

/-- What the gate has read of a directory that it has found ready. -/
theorem validate_reads {entries : List (Str × Node)} {claims : Location} {r : ValidateRt4.Ready}
    (h : validate (.directory entries) claims = .ok r) :
    ∃ (files : Dict Nat (List UInt8)) (documents : List ValidateRt4.Report),
      ValidateRt4.strictRegularFiles (.directory entries) telemetryName (text "TELEMETRY_DIRECTORY") =
        .ok files ∧ files ≠ [] ∧
      (sorted files.keys).mapM (fun index => do
        let document ← ValidateRt4.readJson ((files.get? index).getD [])
        ValidateRt4.parseDocument document index) = .ok documents ∧
      (documents.map fun d => ValidateRt4.sortedText d.build.value).dedup.length = 1 ∧
      ValidateRt4.aggregate documents = .ok r.totals ∧ ValidateRt4.checkCells r.totals = .ok () ∧
      r.jobs = documents.length := by
  unfold validate at h
  simp only [bind_eq_ok] at h
  obtain ⟨files, hfiles, _, -, _, -, _, hne, documents, hdocuments, _, -, _, -, _, -, _, hbuilds, _, -, _,
    -, totals, htotals, _, hcells, h⟩ := h
  cases h
  exact ⟨files, documents, hfiles, refuse_eq_ok.1 hne, hdocuments, not_not.1 (refuse_eq_ok.1 hbuilds),
    htotals, hcells, rfl⟩

/-! ## The lane -/

section
variable {P η : Type} {kernel : Kernel P} {jobs : P → R4Job η} {dir controlDir : Str} {w : World P}

/-- No document of the lane has a sequential dual case. -/
theorem sequential_zero (hinv : Inv kernel (r4Inputs jobs dir controlDir) dir controlDir w)
    {entries : List (Str × Node)} (hlists : Lists w dir entries) {files : Dict Nat (List UInt8)}
    (hfiles : ValidateRt4.strictRegularFiles (.directory entries) telemetryName
      (text "TELEMETRY_DIRECTORY") = .ok files)
    {index : Nat} (hindex : index ∈ files.keys) {v : Value} {report : ValidateRt4.Report}
    (hread : ValidateRt4.readJson ((files.get? index).getD []) = .ok v)
    (hparse : ValidateRt4.parseDocument v index = .ok report) :
    count report.counters.selected (text "dual.schedule|sequential") = 0 := by
  obtain ⟨bytes, hbytes⟩ := (Dict.mem_keys_iff files index).1 hindex
  rw [hbytes, Option.getD_some] at hread
  obtain ⟨name, hentry, hnumber⟩ := strictRegularFiles_ok hfiles _ (Dict.mem_of_get? hbytes)
  rw [numbered_telemetryName hnumber] at hentry
  obtain ⟨f, hfile, hnode⟩ := (hlists.files _ _).1 hentry
  obtain rfl := Node.regular.inj hnode
  obtain ⟨-, -, s, now, hcontent, -, hready, -⟩ := hinv.documents index f hfile
  obtain ⟨calls, hcalls, htally⟩ := hready.counters
  rw [hcontent] at hread
  rw [count_of_readJson (hready.clean now) hread hparse (by simp [cells])]
  show (s.counters.selected.at _ : Int) = 0
  rw [htally, tally_lane (fun c hc => tape_lane _ c (hcalls.subset hc)) laneCell_ne_sequential]
  rfl

theorem never_ready (hinv : Inv kernel (r4Inputs jobs dir controlDir) dir controlDir w)
    {entries : List (Str × Node)} (hlists : Lists w dir entries) (claims : Location)
    (r : ValidateRt4.Ready) : validate (.directory entries) claims ≠ .ok r := by
  intro h
  obtain ⟨files, documents, hfiles, -, hdocuments, -, htotals, hcells, -⟩ := validate_reads h
  have hcell : text "dual.schedule|sequential" ∈ cells := by simp [cells]
  obtain ⟨_, hreached, -⟩ := bind_eq_ok.1 (forM_eq_ok.1 hcells _ hcell)
  refine refuse_eq_ok.1 hreached (count_of_aggregate htotals hcell fun d hd => ?_)
  obtain ⟨index, hindex, hd⟩ := (mem_mapM_ok hdocuments d).1 hd
  obtain ⟨v, hread, hparse⟩ := bind_eq_ok.1 hd
  exact sequential_zero hinv hlists hfiles (mem_sorted.1 hindex) hread hparse

/-- A completed campaign: every job has its claim and its final document, all intervals are
positive and at most `parallelism` of them overlap, and every cell that the decoder can
select was selected and applied. -/
structure Completed (jobs : P → R4Job η) (dir controlDir : Str) (w : World P)
    (docs : P → Document) : Prop where
  claims : ∀ p, ∃ (i : Nat) (content : Str), (docs p).jobIndex = i ∧
    w.files controlDir (claimName i) = some ⟨p, content⟩
  documents : ∀ p, w.files dir (documentName (docs p).jobIndex) = some ⟨p, (docs p).render⟩
  final : ∀ p, (docs p).counters = tally (jobs p).tape.calls
  intervals : ∀ p, (docs p).startedNs < (docs p).updatedNs
  overlap : ∀ (time : UInt64) (ps : List P), ps.Nodup →
    (∀ p ∈ ps, (docs p).startedNs ≤ time ∧ time < (docs p).updatedNs) →
      ∀ p, (ps.length : Int) ≤ (docs p).parallelism
  covered : ∀ data, (∃ p, 0 < (docs p).counters.selected.at (laneCell data)) ∧
    ∃ p, 0 < (docs p).counters.applied.at (laneCell data)

end

/-- Whatever the processes, their inputs and their interleaving, and whatever is claimed, the
gate does not find the lane ready. -/
theorem r4_never_promoted {P η : Type} [DecidableEq P] (kernel : Kernel P) (jobs : P → R4Job η)
    (dir controlDir : Str) (s : System Command Answer (World P) P)
    (hreach : Reach (exec kernel) (start (r4Inputs jobs dir controlDir)) s)
    (entries : List (Str × Node)) (hlists : Lists s.world dir entries) (claims : Location)
    (r : ValidateRt4.Ready) : validate (.directory entries) claims ≠ .ok r :=
  never_ready (inv_of_run (share_r4Inputs jobs dir controlDir) hreach) hlists claims r

/-! ## A completed campaign -/

namespace Rejecting

/-- A library that draws when a signing starts, and rejects every signature. -/
def library : Library Unit where
  maxBlocksToSign := 5
  makeService _ w := .done w
  startSigning _ _ _ _ _ _ _ _ w := .rand 32 fun nonce =>
    .done (.ok [⟨⟨nonce.getD [], [], []⟩, .insert (.insert ∅ 1 [7]) 2 [7], Vector.replicate 33 0,
      Vector.replicate 33 0, Vector.replicate 33 0⟩], w)
  mtaResponse _ _ _ w := .done (.ok ⟨Vector.replicate 32 0, []⟩, w)
  mtaVerify _ _ _ w := .done (.ok [], w)
  getSi _ _ _ w := .done (.ok [Vector.replicate 32 1], w)
  getCmpSignature _ _ _ w := .done (.error (.cosignerException []), w)
  now _ := 0

/-- Two of three players sign. -/
def snapshot : Snapshot :=
  ⟨0, 2 :: Unseeded.share 3, List.replicate 32 0, 2, 3,
    [Unseeded.player 1 1, Unseeded.player 2 2, Unseeded.player 3 3]⟩

/-- One input for each cell. -/
def job : R4Job Unit where
  H := ⟨fun _ => Vector.replicate 32 0, fun b => Vector.replicate 64 (b.headD 0)⟩
  A := Unseeded.algebra
  lib := library
  K := Unseeded.codec
  C := Unseeded.curve
  environment := ⟨some (some (writeSnapshot snapshot)), none, 0, true, true, none⟩
  memory := ()
  takesMethod := true
  entropy _ := 0
  inputs := [[0, 0, 0, 0, 0, 0, 0, 0], [0, 0, 0, 1, 0, 0, 0, 0], [0, 0, 0, 2, 0, 0, 0, 0],
    [1, 0, 0, 0, 0, 0, 0, 0]]

/-- Each cell applied, and rejected. -/
def calls : List Call :=
  (cells.take 4).map fun cell => .case (some cell) true (some (text "CLEAN-REJECT"))

theorem tape_job : job.tape = ⟨some (str "v2-r4-extrakey", str "clang", str "asan+ubsan", 1), calls⟩ := by
  decide +kernel

theorem calls_cover : ∀ cell ∈ cells.take 4,
    0 < (tally calls).selected.at cell ∧ 0 < (tally calls).applied.at cell := by
  decide +kernel

theorem r4Inputs_job (p : Unit) :
    r4Inputs (fun _ => job) (text "telemetry") (text "control") p = (r4Config, calls) := by
  unfold r4Inputs Tape.config
  rw [tape_job]
  dsimp only
  rw [codes_str (by simp), codes_str (by simp), codes_str (by simp)]
  rfl

end Rejecting

/-- A directory of one file. -/
theorem lists_single {P : Type} {w : World P} {dir name : Str} {f : File P}
    (hfile : w.files dir name = some f)
    (honly : ∀ name', (w.files dir name').isSome = true → name' = name) :
    Lists w dir [(name, .regular (encodeAscii f.content))] := by
  refine ⟨List.nodup_singleton _, fun name' node => ?_⟩
  rw [List.mem_singleton, Prod.mk.injEq]
  constructor
  · rintro ⟨rfl, rfl⟩
    exact ⟨f, hfile, rfl⟩
  · rintro ⟨g, hg, rfl⟩
    obtain rfl := honly name' (by rw [hg]; rfl)
    obtain rfl := Option.some.inj (hfile.symm.trans hg)
    exact ⟨rfl, rfl⟩

theorem completed_campaign :
    ∃ s docs entries claims,
      Reach (exec ⟨fun _ => 7, false⟩)
        (start (r4Inputs (fun _ : Unit => Rejecting.job) (text "telemetry") (text "control"))) s ∧
      Completed (fun _ : Unit => Rejecting.job) (text "telemetry") (text "control") s.world docs ∧
      Lists s.world (text "telemetry") entries ∧ Lists s.world (text "control") claims := by
  obtain ⟨s, hreach, hlone, hfile⟩ := reach_harness (k := ⟨fun _ : Unit => 7, false⟩) (p := ())
    (r4Inputs (fun _ : Unit => Rejecting.job) (text "telemetry") (text "control"))
    (Rejecting.r4Inputs_job ()) r4Config_starts (UInt64.zero_le : 0 ≤ (1 : UInt64))
    (List.cons_ne_nil _ _)
  obtain ⟨claim, hclaim⟩ := Option.isSome_iff_exists.1 hlone.claim
  have hapart : text "telemetry" ≠ text "control" := by simp [text]
  have htelemetry : Lists s.world (text "telemetry") _ := lists_single hfile fun name hsome => by
    rcases hlone.only _ name hsome with ⟨-, h⟩ | ⟨h, -⟩ | h
    · exact h
    · exact absurd h hapart
    · exact h.elim
  have hcontrol : Lists s.world (text "control") _ := lists_single hclaim fun name hsome => by
    rcases hlone.only _ name hsome with ⟨h, -⟩ | ⟨-, h⟩ | h
    · exact absurd h.symm hapart
    · exact h
    · exact h.elim
  refine ⟨s, fun _ => (r4State.done Rejecting.calls).document 1, _, _, hreach, ?_, htelemetry, hcontrol⟩
  refine ⟨fun _ => ⟨0, claim.content, rfl, hclaim⟩, fun _ => hfile, fun _ => ?_, fun _ => ?_,
    fun _ ps hps _ _ => ?_, fun data => ?_⟩
  · rw [Rejecting.tape_job]
    rfl
  · show (0 : UInt64) < 1
    decide
  · have hlen : ps.length ≤ Fintype.card Unit := hps.length_le_card
    show (ps.length : Int) ≤ 1
    rw [Fintype.card_unit] at hlen
    omega
  · obtain ⟨hselected, happlied⟩ := Rejecting.calls_cover _ (laneCell_mem data)
    exact ⟨⟨(), hselected⟩, (), happlied⟩

/-- A campaign of one process that has applied each cell its inputs can select. -/
theorem r4_never_promoted_rejecting :
    ∃ s docs entries claims,
      Reach (exec ⟨fun _ => 7, false⟩)
        (start (r4Inputs (fun _ : Unit => Rejecting.job) (text "telemetry") (text "control"))) s ∧
      Completed (fun _ : Unit => Rejecting.job) (text "telemetry") (text "control") s.world docs ∧
      Lists s.world (text "telemetry") entries ∧ Lists s.world (text "control") claims ∧
      ∀ r, validate (.directory entries) (.directory claims) ≠ .ok r := by
  obtain ⟨s, docs, entries, claims, hreach, hcompleted, hentries, hclaims⟩ := completed_campaign
  exact ⟨s, docs, entries, claims, hreach, hcompleted, hentries, hclaims,
    r4_never_promoted _ _ _ _ s hreach entries hentries _⟩

/-- A completed campaign is blocked. -/
theorem completed_not_promoted :
    ¬ ∀ (P η : Type) (_ : DecidableEq P) (kernel : Kernel P) (jobs : P → R4Job η)
      (dir controlDir : Str) (s : System Command Answer (World P) P) (docs : P → Document),
      Reach (exec kernel) (start (r4Inputs jobs dir controlDir)) s →
      Completed jobs dir controlDir s.world docs → ∀ entries claims,
      Lists s.world dir entries → Lists s.world controlDir claims →
      ∃ r, validate (.directory entries) (.directory claims) = .ok r := by
  intro hall
  obtain ⟨s, docs, entries, claims, hreach, hcompleted, hentries, hclaims⟩ := completed_campaign
  obtain ⟨r, hr⟩ := hall _ _ _ _ _ _ _ s docs hreach hcompleted entries claims hentries hclaims
  exact never_ready (inv_of_run (share_r4Inputs _ _ _) hreach) hentries _ r hr

end MpcHunt.Telemetry
