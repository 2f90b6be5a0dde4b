/-
The snapshot file format: the reader is exact for the writer field by field,
so a file decodes to what was encoded, is refused when cut or extended, and
is the encoding of what it decodes to unless the words of `t` and `n` are cut
to a byte.
-/
import MpcHunt.Harness.Snapshot
import MpcHunt.Lib.Cursor

namespace MpcHunt.Harness

open Words
open Cursor (Exact Repeats Whole)

/-! ## The fields -/

def Reader.Good (r : Reader) : Prop := r.ok = true

theorem Reader.u32_eq (r : Reader) (h : ¬ r.p.length < 4) :
    r.u32 = (ofBe32 (r.p.take 4), { r with p := r.p.drop 4 }) := by
  rw [Reader.u32, if_neg h]
  rfl

theorem Reader.u64_eq (r : Reader) (h : ¬ r.p.length < 8) :
    r.u64 = (ofBe64 (r.p.take 8), { r with p := r.p.drop 8 }) := by
  rw [Reader.u64, if_neg h]
  rfl

theorem Reader.u32_exact : Exact Reader.p Reader.Good Reader.u32 be32 (fun _ => True) where
  reads := by
    intro r v s hgood _ hrest
    have hlen : ¬ r.p.length < 4 := by simp [hrest]
    rw [Reader.u32_eq r hlen, hrest, List.take_left' (length_be32 v),
      List.drop_left' (length_be32 v), ofBe32_be32]
    exact ⟨rfl, rfl, hgood⟩
  wrote := by
    intro r hgood
    by_cases hlen : r.p.length < 4
    · simp [Reader.u32, hlen, Reader.Good] at hgood
    · have htake : (r.p.take 4).length = 4 := by simp; omega
      rw [Reader.u32_eq r hlen, be32_ofBe32 htake]
      exact ⟨trivial, (List.take_append_drop 4 r.p).symm⟩
  sticky := by
    intro r hgood
    by_cases hlen : r.p.length < 4
    · simp [Reader.u32, hlen, Reader.Good] at hgood
    · rw [Reader.u32_eq r hlen] at hgood
      exact hgood

theorem Reader.u64_exact : Exact Reader.p Reader.Good Reader.u64 be64 (fun _ => True) where
  reads := by
    intro r v s hgood _ hrest
    have hlen : ¬ r.p.length < 8 := by simp [hrest]
    rw [Reader.u64_eq r hlen, hrest, List.take_left' (length_be64 v),
      List.drop_left' (length_be64 v), ofBe64_be64]
    exact ⟨rfl, rfl, hgood⟩
  wrote := by
    intro r hgood
    by_cases hlen : r.p.length < 8
    · simp [Reader.u64, hlen, Reader.Good] at hgood
    · have htake : (r.p.take 8).length = 8 := by simp; omega
      rw [Reader.u64_eq r hlen, be64_ofBe64 htake]
      exact ⟨trivial, (List.take_append_drop 8 r.p).symm⟩
  sticky := by
    intro r hgood
    by_cases hlen : r.p.length < 8
    · simp [Reader.u64, hlen, Reader.Good] at hgood
    · rw [Reader.u64_eq r hlen] at hgood
      exact hgood

/-- A byte vector whose length its prefix can hold. -/
def BlobFits (v : Bytes) : Prop := v.length < 2 ^ 32

instance (v : Bytes) : Decidable (BlobFits v) := inferInstanceAs (Decidable (_ < _))

theorem toNat_ofNat_length {l : Bytes} (h : BlobFits l) : (UInt32.ofNat l.length).toNat = l.length :=
  UInt32.toNat_ofNat_of_lt' h

theorem Reader.blob_good {r : Reader} (hgood : r.blob.2.Good) :
    r.u32.2.Good ∧ r.u32.1.toNat ≤ r.u32.2.p.length ∧
      r.blob = (r.u32.2.p.take r.u32.1.toNat, { r.u32.2 with p := r.u32.2.p.drop r.u32.1.toNat }) := by
  by_cases hbad : ¬ r.u32.2.ok ∨ r.u32.2.p.length < r.u32.1.toNat
  · have heq : r.blob = ([], { r.u32.2 with ok := false }) := if_pos hbad
    rw [heq] at hgood
    cases hgood
  · have heq : r.blob = (r.u32.2.p.take r.u32.1.toNat,
        { r.u32.2 with p := r.u32.2.p.drop r.u32.1.toNat }) := if_neg hbad
    rw [not_or, not_not, not_lt] at hbad
    exact ⟨hbad.1, hbad.2, heq⟩

theorem Reader.blob_exact : Exact Reader.p Reader.Good Reader.blob (putBlob []) BlobFits where
  reads := by
    intro r v s hgood hfits hrest
    have hrest' : r.p = be32 (.ofNat v.length) ++ (v ++ s) := by
      rw [hrest, putBlob, putU32, List.nil_append, List.append_assoc]
    obtain ⟨hn, hp, hg⟩ := Reader.u32_exact.reads hgood trivial hrest'
    have hlen : r.u32.1.toNat = v.length := by rw [hn, toNat_ofNat_length hfits]
    have hok : ¬ (¬ r.u32.2.ok ∨ r.u32.2.p.length < r.u32.1.toNat) := by
      rw [not_or, not_not, hp, hlen, List.length_append]
      exact ⟨hg, by omega⟩
    have heq : r.blob = (r.u32.2.p.take r.u32.1.toNat,
        { r.u32.2 with p := r.u32.2.p.drop r.u32.1.toNat }) := if_neg hok
    rw [heq, hlen, hp, List.take_left' rfl, List.drop_left' rfl]
    exact ⟨rfl, rfl, hg⟩
  wrote := by
    intro r hgood
    obtain ⟨hg, hlen, heq⟩ := Reader.blob_good hgood
    obtain ⟨-, hp⟩ := Reader.u32_exact.wrote hg
    have htake : (r.u32.2.p.take r.u32.1.toNat).length = r.u32.1.toNat := by simp; omega
    rw [heq]
    refine ⟨?_, ?_⟩
    · rw [BlobFits, htake]
      exact r.u32.1.toNat_lt
    · rw [putBlob, putU32, List.nil_append, htake, UInt32.ofNat_toNat, List.append_assoc,
        List.take_append_drop]
      exact hp
  sticky := fun hgood => Reader.u32_exact.sticky (Reader.blob_good hgood).1

/-! ## The player records -/

def SnapshotPlayer.Fits (p : SnapshotPlayer) : Prop :=
  BlobFits p.share ∧ BlobFits p.publicShare ∧ BlobFits p.paillierPub ∧ BlobFits p.paillierPriv ∧
    BlobFits p.rpPub ∧ BlobFits p.rpPriv

instance (p : SnapshotPlayer) : Decidable p.Fits := inferInstanceAs (Decidable (_ ∧ _))

def SnapshotPlayer.equiv :
    UInt64 × Bytes × Bytes × Bytes × Bytes × Bytes × Bytes ≃ SnapshotPlayer where
  toFun v := ⟨v.1, v.2.1, v.2.2.1, v.2.2.2.1, v.2.2.2.2.1, v.2.2.2.2.2.1, v.2.2.2.2.2.2⟩
  invFun p := (p.id, p.share, p.publicShare, p.paillierPub, p.paillierPriv, p.rpPub, p.rpPriv)
  left_inv _ := rfl
  right_inv _ := rfl

theorem putPlayer_eq (b : Bytes) (p : SnapshotPlayer) : putPlayer b p = b ++ putPlayer [] p := by
  simp [putPlayer, putBlob, putU32, putU64]

theorem foldl_putPlayer (b : Bytes) (ps : List SnapshotPlayer) :
    ps.foldl putPlayer b = b ++ ps.flatMap (putPlayer []) := by
  induction ps generalizing b with
  | nil => simp
  | cons p ps ih => rw [List.foldl_cons, ih, putPlayer_eq, List.flatMap_cons, List.append_assoc]

theorem Reader.player_eq :
    Reader.player = Cursor.map SnapshotPlayer.equiv (Cursor.seq Reader.u64 (Cursor.seq Reader.blob
      (Cursor.seq Reader.blob (Cursor.seq Reader.blob (Cursor.seq Reader.blob
        (Cursor.seq Reader.blob Reader.blob)))))) := by
  unfold Reader.player
  generalize Reader.u64 = u64
  generalize Reader.blob = blob
  rfl

theorem Reader.player_exact :
    Exact Reader.p Reader.Good Reader.player (putPlayer []) SnapshotPlayer.Fits := by
  have blob := Reader.blob_exact
  have h := (Reader.u64_exact.seq (blob.seq (blob.seq (blob.seq (blob.seq (blob.seq blob)))))).map
    SnapshotPlayer.equiv
  rw [Reader.player_eq]
  convert h using 1
  · funext p
    simp [putPlayer, putBlob, putU32, putU64, SnapshotPlayer.equiv]
  · funext p
    exact (true_and _).symm

theorem Reader.players_ok_iff {count : Nat} {r r' : Reader} {ps : List SnapshotPlayer} :
    Reader.players count r = .ok (ps, r') ↔
      ps.length = count ∧ Repeats Reader.Good Reader.player ps r r' := by
  induction count generalizing r r' ps with
  | zero =>
    constructor
    · intro h
      cases h
      exact ⟨rfl, .nil r⟩
    · rintro ⟨hlen, hrun⟩
      cases hrun with
      | nil => rfl
      | cons => simp at hlen
  | succ count ih =>
    unfold Reader.players
    by_cases hg : r.player.2.Good
    · have hok : ¬ ¬ r.player.2.ok := not_not.2 hg
      simp only [if_neg hok]
      cases hrest : Reader.players count r.player.2 with
      | error e =>
        constructor
        · intro h
          cases h
        · rintro ⟨hlen, hrun⟩
          cases hrun with
          | nil => simp at hlen
          | cons _ hrun =>
            have := ih.2 ⟨by simpa using hlen, hrun⟩
            rw [hrest] at this
            cases this
      | ok out =>
        obtain ⟨qs, r''⟩ := out
        obtain ⟨hlen', hrun'⟩ := ih.1 hrest
        constructor
        · intro h
          cases h
          exact ⟨by simp [hlen'], .cons hg hrun'⟩
        · rintro ⟨hlen, hrun⟩
          cases hrun with
          | nil => simp at hlen
          | cons _ hrun =>
            have := ih.2 ⟨by simpa using hlen, hrun⟩
            rw [hrest] at this
            cases this
            rfl
    · have hok : ¬ r.player.2.ok := hg
      simp only [if_pos hok]
      constructor
      · intro h
        cases h
      · rintro ⟨hlen, hrun⟩
        cases hrun with
        | nil => simp at hlen
        | cons hg' => exact absurd hg' hg

/-! ## The file -/

/-- The words of a file after its magic and format: `t` and `n` are words of 32 bits there. -/
structure SnapshotFile where
  algorithm : UInt32
  publicKey : Bytes
  seed : Bytes
  t : UInt32
  n : UInt32
  players : List SnapshotPlayer
deriving DecidableEq

namespace SnapshotFile

structure Fits (f : SnapshotFile) : Prop where
  publicKey : BlobFits f.publicKey
  seed : BlobFits f.seed
  count : f.players.length < 2 ^ 32
  players : ∀ p ∈ f.players, p.Fits

def header (f : SnapshotFile) : Bytes :=
  putBlob [] f.publicKey ++ (putBlob [] f.seed ++ (be32 f.t ++ (be32 f.n ++
    be32 (.ofNat f.players.length))))

def bytes (f : SnapshotFile) : Bytes :=
  snapshotMagic ++ (be32 snapshotFormatVersion ++ (be32 f.algorithm ++ (f.header ++
    f.players.flatMap (putPlayer []))))

/-- What `read_snapshot` keeps of the file: the last byte of `t` and of `n`. -/
def snapshot (f : SnapshotFile) : Snapshot :=
  ⟨f.algorithm, f.publicKey, f.seed, f.t.toUInt8, f.n.toUInt8, f.players⟩

/-- The file `write_snapshot` writes. -/
def ofSnapshot (s : Snapshot) : SnapshotFile :=
  ⟨s.algorithm, s.publicKey, s.seed, s.t.toUInt32, s.n.toUInt32, s.players⟩

@[simp] theorem snapshot_ofSnapshot (s : Snapshot) : (ofSnapshot s).snapshot = s := by
  simp [ofSnapshot, snapshot]

end SnapshotFile

theorem writeSnapshot_eq (s : Snapshot) : writeSnapshot s = (SnapshotFile.ofSnapshot s).bytes := by
  simp [writeSnapshot, SnapshotFile.bytes, SnapshotFile.header, SnapshotFile.ofSnapshot,
    foldl_putPlayer, putBlob, putU32]

/-- The header after its format word. -/
def Reader.header (r : Reader) :
    (UInt32 × Bytes × Bytes × UInt32 × UInt32 × UInt32) × Reader :=
  Cursor.seq Reader.u32 (Cursor.seq Reader.blob (Cursor.seq Reader.blob (Cursor.seq Reader.u32
    (Cursor.seq Reader.u32 Reader.u32)))) r

theorem Reader.header_exact :
    Exact Reader.p Reader.Good Reader.header
      (fun v => be32 v.1 ++ (putBlob [] v.2.1 ++ (putBlob [] v.2.2.1 ++ (be32 v.2.2.2.1 ++
        (be32 v.2.2.2.2.1 ++ be32 v.2.2.2.2.2)))))
      (fun v => True ∧ BlobFits v.2.1 ∧ BlobFits v.2.2.1 ∧ True ∧ True ∧ True) :=
  Reader.u32_exact.seq (Reader.blob_exact.seq (Reader.blob_exact.seq (Reader.u32_exact.seq
    (Reader.u32_exact.seq Reader.u32_exact))))

/-- The cursor `read_snapshot` starts from, after the magic. -/
def Reader.start (b : Bytes) : Reader := ⟨b.drop 8, true⟩

/-- What `read_snapshot` does on a file it accepts, stage by stage. -/
theorem readSnapshot_ok_iff {b : Bytes} {s : Snapshot} :
    readSnapshot b = .ok s ↔
      b.take 8 = snapshotMagic ∧ (Reader.start b).u32.1 = snapshotFormatVersion ∧
        (Reader.start b).u32.2.header.2.Good ∧
        ∃ f : SnapshotFile, ∃ r' : Reader,
          (Reader.start b).u32.2.header.1 = (f.algorithm, f.publicKey, f.seed, f.t, f.n,
            .ofNat f.players.length) ∧ f.players.length < 2 ^ 32 ∧
          Repeats Reader.Good Reader.player f.players (Reader.start b).u32.2.header.2 r' ∧
          r'.p = [] ∧ s = f.snapshot := by
  unfold readSnapshot
  by_cases hmagic : b.take 8 = snapshotMagic
  swap
  · simp [hmagic]
  rw [if_neg (not_not.2 hmagic)]
  rcases h1 : (Reader.start b).u32 with ⟨fmt, r1⟩
  rcases h2 : r1.u32 with ⟨algorithm, r2⟩
  rcases h3 : r2.blob with ⟨publicKey, r3⟩
  rcases h4 : r3.blob with ⟨seed, r4⟩
  rcases h5 : r4.u32 with ⟨t, r5⟩
  rcases h6 : r5.u32 with ⟨n, r6⟩
  rcases h7 : r6.u32 with ⟨count, r7⟩
  have hheader : r1.header = ((algorithm, publicKey, seed, t, n, count), r7) := by
    simp only [Reader.header, Cursor.seq, h2, h3, h4, h5, h6, h7]
  rw [Reader.start] at h1
  simp only [h1, h2, h3, h4, h5, h6, h7, hheader, hmagic, true_and]
  by_cases hfmt : fmt = snapshotFormatVersion
  swap
  · simp [hfmt]
  by_cases hok : r7.Good
  swap
  · have hbad : ¬ r7.ok := hok
    simp [hfmt, hbad, hok]
  have hnot : ¬ ¬ r7.ok := not_not.2 hok
  rw [if_neg (not_not.2 hfmt), if_neg hnot]
  constructor
  · intro h
    cases hps : Reader.players count.toNat r7 with
    | error e =>
      rw [hps] at h
      cases h
    | ok out =>
      obtain ⟨ps, r'⟩ := out
      obtain ⟨hlen, hrun⟩ := Reader.players_ok_iff.1 hps
      rw [hps] at h
      dsimp only at h
      by_cases hend : r'.p = []
      · rw [if_neg (not_not.2 hend)] at h
        cases h
        refine ⟨hfmt, hok, ⟨algorithm, publicKey, seed, t, n, ps⟩, r', ?_, ?_, hrun, hend, rfl⟩
        · rw [hlen, UInt32.ofNat_toNat]
        · rw [hlen]
          exact count.toNat_lt
      · simp [hend] at h
  · rintro ⟨-, -, f, r', hvals, hfits, hrun, hend, rfl⟩
    simp only [Prod.mk.injEq] at hvals
    obtain ⟨rfl, rfl, rfl, rfl, rfl, rfl⟩ := hvals
    have hps := Reader.players_ok_iff.2 ⟨rfl, hrun⟩
    rw [UInt32.toNat_ofNat_of_lt' hfits, hps]
    simp [hend, SnapshotFile.snapshot]

/-! ## Reading files -/

theorem take_bytes (f : SnapshotFile) (s : Bytes) : (f.bytes ++ s).take 8 = snapshotMagic := by
  rw [SnapshotFile.bytes, List.append_assoc]
  exact List.take_left' rfl

/-- Where the cursor stands after the header and after the players of a written file. -/
theorem Reader.start_bytes {f : SnapshotFile} (hf : f.Fits) (s : Bytes) :
    (Reader.start (f.bytes ++ s)).u32.1 = snapshotFormatVersion ∧
      (Reader.start (f.bytes ++ s)).u32.2.header.2.Good ∧
      (Reader.start (f.bytes ++ s)).u32.2.header.1 = (f.algorithm, f.publicKey, f.seed, f.t, f.n,
        .ofNat f.players.length) ∧
      ∃ r', Repeats Reader.Good Reader.player f.players
        (Reader.start (f.bytes ++ s)).u32.2.header.2 r' ∧ r'.p = s := by
  have hstart : (Reader.start (f.bytes ++ s)).p = be32 snapshotFormatVersion ++
      (be32 f.algorithm ++ (f.header ++ f.players.flatMap (putPlayer []) ++ s)) := by
    rw [Reader.start, SnapshotFile.bytes, List.append_assoc]
    simp only [List.append_assoc]
    exact List.drop_left' rfl
  have hgood : (Reader.start (f.bytes ++ s)).Good := rfl
  obtain ⟨hfmt, hp, hg⟩ := Reader.u32_exact.reads (v := snapshotFormatVersion) hgood trivial hstart
  have hheader : (Reader.start (f.bytes ++ s)).u32.2.p = (be32 f.algorithm ++ (putBlob [] f.publicKey ++
      (putBlob [] f.seed ++ (be32 f.t ++ (be32 f.n ++ be32 (.ofNat f.players.length)))))) ++
      (f.players.flatMap (putPlayer []) ++ s) := by
    rw [hp, SnapshotFile.header]
    simp only [List.append_assoc]
  obtain ⟨hvals, hp', hg'⟩ := Reader.header_exact.reads
    (v := (f.algorithm, f.publicKey, f.seed, f.t, f.n, .ofNat f.players.length)) hg
    ⟨trivial, hf.publicKey, hf.seed, trivial, trivial, trivial⟩ hheader
  obtain ⟨r', hrun, hs, -⟩ := Reader.player_exact.repeats_reads hg' hf.players hp'
  exact ⟨hfmt, hg', hvals, r', hrun, hs⟩

/-- `read_snapshot` accepts the written files, and no others. -/
theorem readSnapshot_whole :
    Whole readSnapshot SnapshotFile.bytes SnapshotFile.Fits SnapshotFile.snapshot where
  reads := by
    intro f hf
    obtain ⟨hfmt, hg, hvals, r', hrun, hend⟩ := Reader.start_bytes hf []
    have hmagic := take_bytes f []
    rw [List.append_nil] at hmagic hfmt hg hvals hrun
    exact readSnapshot_ok_iff.2 ⟨hmagic, hfmt, hg, f, r', hvals, hf.count, hrun, hend, rfl⟩
  wrote := by
    intro b s h
    obtain ⟨hmagic, hfmt, hg, f, r', hvals, hcount, hrun, hend, rfl⟩ := readSnapshot_ok_iff.1 h
    obtain ⟨hfits, hheader⟩ := Reader.header_exact.wrote hg
    obtain ⟨-, hstart⟩ := Reader.u32_exact.wrote (Reader.header_exact.sticky hg)
    obtain ⟨-, hplayers, hrest⟩ := Reader.player_exact.repeats_wrote hrun hg
    rw [hvals] at hfits hheader
    refine ⟨f, ⟨hfits.2.1, hfits.2.2.1, hcount, hplayers⟩, ?_, rfl⟩
    have hb : b = snapshotMagic ++ (Reader.start b).p := by
      rw [← hmagic]
      exact (List.take_append_drop 8 b).symm
    rw [hb, hstart, hfmt, hheader, hrest, hend, SnapshotFile.bytes, SnapshotFile.header]
    simp only [List.append_assoc, List.append_nil]
  trailing := by
    intro f s hf hs
    cases hread : readSnapshot (f.bytes ++ s) with
    | error e => exact ⟨e, rfl⟩
    | ok d =>
      -- the players end where the written ones end, before `s`
      obtain ⟨-, -, hvals, r', hrun, hend⟩ := Reader.start_bytes hf s
      obtain ⟨-, -, -, f', r'', hvals', hcount', hrun', hend', -⟩ := readSnapshot_ok_iff.1 hread
      rw [hvals] at hvals'
      have hlen : f.players.length = f'.players.length := by
        have h : UInt32.ofNat f.players.length = UInt32.ofNat f'.players.length := by
          simpa using congrArg (fun v => v.2.2.2.2.2) hvals'
        rw [← UInt32.toNat_ofNat_of_lt' hf.count, h, UInt32.toNat_ofNat_of_lt' hcount']
      obtain ⟨-, rfl⟩ := hrun.deterministic hrun' hlen
      exact absurd (hend.symm.trans hend') hs

/-! ## Files and snapshots -/

/-- A snapshot whose byte vectors and player list have lengths their prefixes can hold. -/
def Snapshot.Fits (s : Snapshot) : Prop :=
  BlobFits s.publicKey ∧ BlobFits s.seed ∧ s.players.length < 2 ^ 32 ∧ ∀ p ∈ s.players, p.Fits

instance (s : Snapshot) : Decidable s.Fits := inferInstanceAs (Decidable (_ ∧ _))

theorem Snapshot.Fits.file {s : Snapshot} (h : s.Fits) : (SnapshotFile.ofSnapshot s).Fits :=
  ⟨h.1, h.2.1, h.2.2.1, h.2.2.2⟩

/-- What `write_snapshot` writes decodes to what was encoded; cut or extended it is refused. -/
theorem writeSnapshot_read_back (s : Snapshot) (h : s.Fits) :
    readSnapshot (writeSnapshot s) = .ok s ∧
      (∀ b, b <+: writeSnapshot s → b ≠ writeSnapshot s → ∃ err, readSnapshot b = .error err) ∧
      (∀ b, writeSnapshot s <+: b → b ≠ writeSnapshot s → ∃ err, readSnapshot b = .error err) := by
  rw [writeSnapshot_eq]
  refine ⟨?_, ?_, ?_⟩
  · rw [readSnapshot_whole.reads _ h.file, SnapshotFile.snapshot_ofSnapshot]
  · rintro b ⟨c, hc⟩ hne
    refine readSnapshot_whole.cut h.file ?_ hc
    rintro rfl
    exact hne (by simpa using hc)
  · rintro b ⟨c, rfl⟩ hne
    refine readSnapshot_whole.trailing _ c h.file ?_
    rintro rfl
    exact hne (by simp)

/-- Two players, the second with empty keys. -/
def snapshotSample : Snapshot :=
  ⟨0, [2, 3], [7], 2, 2, [⟨11, [1], [2], [3], [4], [5], [6]⟩, ⟨12, [1, 0], [2], [], [], [], []⟩]⟩

theorem writeSnapshot_read_back_sample :
    readSnapshot (writeSnapshot snapshotSample) = .ok snapshotSample ∧
      (∀ b, b <+: writeSnapshot snapshotSample → b ≠ writeSnapshot snapshotSample →
        ∃ err, readSnapshot b = .error err) ∧
      (∀ b, writeSnapshot snapshotSample <+: b → b ≠ writeSnapshot snapshotSample →
        ∃ err, readSnapshot b = .error err) :=
  writeSnapshot_read_back snapshotSample (by decide)

/-- The words of the header that hold `t` and `n`. -/
def headerWords (b : Bytes) : UInt32 × UInt32 :=
  let (_, r) := (Reader.start b).u32
  let (_, r) := r.u32
  let (_, r) := r.blob
  let (_, r) := r.blob
  let (t, r) := r.u32
  let (n, _) := r.u32
  (t, n)

/-- The words of `t` and of `n` fit the bytes they are read into. -/
def WordsFit (b : Bytes) : Prop := (headerWords b).1 < 256 ∧ (headerWords b).2 < 256

instance (b : Bytes) : Decidable (WordsFit b) := inferInstanceAs (Decidable (_ ∧ _))

theorem headerWords_eq (b : Bytes) :
    headerWords b = ((Reader.start b).u32.2.header.1.2.2.2.1,
      (Reader.start b).u32.2.header.1.2.2.2.2.1) := by
  unfold headerWords Reader.header
  generalize Reader.u32 = u32
  generalize Reader.blob = blob
  rfl

theorem headerWords_bytes {f : SnapshotFile} (hf : f.Fits) : headerWords f.bytes = (f.t, f.n) := by
  obtain ⟨-, -, hvals, -⟩ := Reader.start_bytes hf []
  rw [List.append_nil] at hvals
  rw [headerWords_eq, hvals]

theorem toUInt8_toUInt32_eq_iff (v : UInt32) : v.toUInt8.toUInt32 = v ↔ v < 256 := by
  have hlt := v.toNat_lt
  rw [← UInt32.toNat_inj, UInt8.toNat_toUInt32, UInt32.toNat_toUInt8, UInt32.lt_iff_toNat_lt]
  have e : UInt32.toNat 256 = 256 := by decide
  rw [e]
  omega

theorem SnapshotFile.bytes_inj {f g : SnapshotFile} (hf : f.Fits) (hg : g.Fits)
    (h : f.bytes = g.bytes) : f = g := by
  have hwords := headerWords_bytes hf
  have hsnap := readSnapshot_whole.reads f hf
  rw [h, headerWords_bytes hg] at hwords
  rw [h, readSnapshot_whole.reads g hg] at hsnap
  cases f
  cases g
  simp only [SnapshotFile.snapshot, Except.ok.injEq, Snapshot.mk.injEq, Prod.mk.injEq] at hsnap hwords
  simp only [SnapshotFile.mk.injEq]
  exact ⟨hsnap.1.symm, hsnap.2.1.symm, hsnap.2.2.1.symm, hwords.1.symm, hwords.2.symm,
    hsnap.2.2.2.2.2.symm⟩

/-- An accepted file is the encoding of what it decodes to exactly if the words of `t` and `n`
fit a byte; of the files that decode to one snapshot, one has such words. -/
theorem readSnapshot_canonical_iff (b : Bytes) (s : Snapshot) (h : readSnapshot b = .ok s) :
    (writeSnapshot s = b ↔ WordsFit b) ∧
      (∀ b', WordsFit b → WordsFit b' → readSnapshot b' = .ok s → b' = b) := by
  have key : ∀ b, readSnapshot b = .ok s → (writeSnapshot s = b ↔ WordsFit b) := by
    intro b h
    obtain ⟨f, hf, rfl, rfl⟩ := readSnapshot_whole.wrote b s h
    have hf' : (SnapshotFile.ofSnapshot f.snapshot).Fits :=
      ⟨hf.publicKey, hf.seed, hf.count, hf.players⟩
    rw [WordsFit, headerWords_bytes hf, writeSnapshot_eq]
    constructor
    · intro heq
      have hfile := SnapshotFile.bytes_inj hf' hf heq
      refine ⟨(toUInt8_toUInt32_eq_iff _).1 ?_, (toUInt8_toUInt32_eq_iff _).1 ?_⟩
      · exact congrArg SnapshotFile.t hfile
      · exact congrArg SnapshotFile.n hfile
    · rintro ⟨ht, hn⟩
      rw [SnapshotFile.ofSnapshot, SnapshotFile.snapshot, (toUInt8_toUInt32_eq_iff _).2 ht,
        (toUInt8_toUInt32_eq_iff _).2 hn]
  refine ⟨key b h, fun b' hb hb' h' => ?_⟩
  rw [← (key b h).2 hb, ← (key b' h').2 hb']

/-- The two players, with 258 in the words of `t` and `n`. -/
def wideFile : SnapshotFile := { SnapshotFile.ofSnapshot snapshotSample with t := 258, n := 258 }

theorem readSnapshot_canonical_iff_sample :
    (writeSnapshot snapshotSample = wideFile.bytes ↔ WordsFit wideFile.bytes) ∧
      (∀ b', WordsFit wideFile.bytes → WordsFit b' → readSnapshot b' = .ok snapshotSample →
        b' = wideFile.bytes) :=
  readSnapshot_canonical_iff wideFile.bytes snapshotSample (by decide)

/-- A file whose words of `t` and `n` do not fit is accepted; it decodes to the snapshot of
another file. -/
theorem readSnapshot_wide :
    readSnapshot wideFile.bytes = .ok snapshotSample ∧
      writeSnapshot snapshotSample ≠ wideFile.bytes ∧
      readSnapshot (writeSnapshot snapshotSample) = .ok snapshotSample := by
  decide

end MpcHunt.Harness
