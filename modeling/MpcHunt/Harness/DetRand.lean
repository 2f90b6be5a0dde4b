/-
`det_rand.cpp`: the SHA-512 counter generator of the harness, the method
OpenSSL dispatches `RAND_bytes` to, and the library as a program that draws.

The stream of a key is `SHA512(key || 0) || SHA512(key || 1) || …`. A draw
hands out the next bytes of it whatever the sizes of the draws before
(`detBytes_eq`).
-/
import MpcHunt.Harness.Types
import MpcHunt.Lib.Words

namespace MpcHunt.Harness

open Words

/-! ## The generator -/

/-- `SHA512_DIGEST_LENGTH`. -/
def sha512DigestLength : Nat := 64

structure DrbgState where
  key : Vector UInt8 64
  counter : UInt64
  block : Vector UInt8 64
  blockUsed : Nat
  drawn : UInt64
  seeded : Bool

/-- The value `g_state` is initialised to. -/
def DrbgState.initial : DrbgState :=
  ⟨Vector.replicate 64 0, 0, Vector.replicate 64 0, sha512DigestLength, 0, false⟩

section
variable (sha512 : Bytes → Vector UInt8 64)

def refill (st : DrbgState) : DrbgState :=
  { st with
    block := sha512 (st.key.toList ++ le64 st.counter)
    counter := st.counter + 1
    blockUsed := 0 }

/-- The loop of `det_bytes`. A turn hands out at least one byte, so `fuel` turns are
enough for `fuel` bytes. -/
def detLoop : Nat → Nat → DrbgState → Bytes × DrbgState
  | 0, _, st => ([], st)
  | _ + 1, 0, st => ([], st)
  | fuel + 1, remaining + 1, st =>
    let st := if st.blockUsed ≥ sha512DigestLength then refill sha512 st else st
    let take := min (remaining + 1) (sha512DigestLength - st.blockUsed)
    let out := (st.block.toList.drop st.blockUsed).take take
    let rest := detLoop fuel (remaining + 1 - take)
      { st with blockUsed := st.blockUsed + take, drawn := st.drawn + .ofNat take }
    (out ++ rest.1, rest.2)

/-- `det_bytes`: the bytes it writes when it returns 1, nothing when it returns 0. -/
def detBytes (num : Int32) (st : DrbgState) : Option Bytes × DrbgState :=
  if num < 0 then (none, st)
  else if ¬ st.seeded then (none, st)
  else
    let r := detLoop sha512 num.toNatClampNeg num.toNatClampNeg st
    (some r.1, r.2)

/-- The state after seeding with some material. -/
def DrbgState.seed (st : DrbgState) (material : Bytes) : DrbgState :=
  { st with
    key := sha512 material, counter := 0, blockUsed := sha512DigestLength, drawn := 0
    seeded := true }

end

/-! ## OpenSSL -/

/-- What OpenSSL dispatches `RAND_bytes` to: `g_method` of `det_rand.cpp`, or its own
generator, which an entropy source feeds. -/
inductive RandMethod where
  | gMethod | builtin
deriving DecidableEq

/-- One successful draw: who served it, and the bytes. -/
structure Served where
  by_ : RandMethod
  out : Bytes
deriving DecidableEq

/-- The randomness of one process. `entropy` is what its entropy source would give,
`served` a record of the draws. -/
structure RandState where
  gState : DrbgState
  gInstalled : Bool
  method : RandMethod
  /-- Whether OpenSSL takes the method it is given. -/
  takesMethod : Bool
  entropy : Nat → UInt8
  entropyUsed : Nat
  served : List Served

/-- A process that has just started. -/
def RandState.initial (takesMethod : Bool) (entropy : Nat → UInt8) : RandState :=
  ⟨.initial, false, .builtin, takesMethod, entropy, 0, []⟩

section
variable (sha512 : Bytes → Vector UInt8 64)

/-- `RAND_bytes(buf, num)`: the bytes when it returns 1. -/
def randBytes (num : Int32) (s : RandState) : Option Bytes × RandState :=
  match s.method with
  | .gMethod =>
    match detBytes sha512 num s.gState with
    | (some out, g) => (some out, { s with gState := g, served := s.served ++ [⟨.gMethod, out⟩] })
    | (none, g) => (none, { s with gState := g })
  | .builtin =>
    if num < 0 then (none, s)
    else
      let out := (List.range num.toNatClampNeg).map fun i => s.entropy (s.entropyUsed + i)
      (some out, { s with
        entropyUsed := s.entropyUsed + num.toNatClampNeg, served := s.served ++ [⟨.builtin, out⟩] })

def installDeterministicRand (s : RandState) : Bool × RandState :=
  if s.gInstalled then (true, s)
  else if s.takesMethod then (true, { s with method := .gMethod, gInstalled := true })
  else (false, s)

def reseed (seed : UInt64) (s : RandState) : RandState :=
  { s with gState := s.gState.seed sha512 (le64 seed) }

def reseedWithLabel (seed : UInt64) (label : Bytes) (s : RandState) : RandState :=
  { s with gState := s.gState.seed sha512 (le64 seed ++ label) }

/-- `self_test`: 96 bytes drawn four times, and what must hold of them. -/
def selfTest (s : RandState) : Bool × RandState :=
  match installDeterministicRand s with
  | (false, s) => (false, s)
  | (true, s) =>
    if s.method ≠ .gMethod then (false, s)
    else
      let (a, s) := randBytes sha512 96 (reseed sha512 0xA5A5A5A5 s)
      if a = none then (false, s) else
      let (b, s) := randBytes sha512 96 (reseed sha512 0xA5A5A5A5 s)
      if b = none then (false, s) else
      if a ≠ b then (false, s) else
      let (c, s) := randBytes sha512 96 (reseed sha512 0x5A5A5A5A s)
      if c = none then (false, s) else
      if a = c then (false, s) else
      let (d, s) := randBytes sha512 33 (reseed sha512 0xA5A5A5A5 s)
      if d = none then (false, s) else
      let (e, s) := randBytes sha512 63 s
      if e = none then (false, s) else
      (a = some (d.getD [] ++ e.getD []), s)

end

/-! ## Programs that draw -/

/-- A computation outside the harness: it may draw through `RAND_bytes`, and goes on
with the bytes or with the failure. -/
inductive Draws (α : Type) where
  | done (a : α)
  | rand (num : Int32) (k : Option Bytes → Draws α)

section
variable (sha512 : Bytes → Vector UInt8 64) {α : Type}

/-- Running a program against the generator of the process. -/
def Draws.run : Draws α → RandState → α × RandState
  | .done a, s => (a, s)
  | .rand num k, s =>
    let r := randBytes sha512 num s
    (k r.1).run r.2

/-! ## The stream of a key -/

/-- Byte `n` of `SHA512(key || 0) || SHA512(key || 1) || …`. -/
def streamByte (key : Vector UInt8 64) (n : Nat) : UInt8 :=
  (sha512 (key.toList ++ le64 (.ofNat (n / 64)))).toList.getD (n % 64) 0

/-- `len` bytes of the stream from byte `n` on. -/
def stream (key : Vector UInt8 64) (n len : Nat) : Bytes :=
  (List.range len).map fun i => streamByte sha512 key (n + i)

/-- The generator has handed out the first `n` bytes of the stream of `key`. -/
structure DrbgState.At (st : DrbgState) (key : Vector UInt8 64) (n : Nat) : Prop where
  key_eq : st.key = key
  seeded : st.seeded = true
  drawn : st.drawn = .ofNat n
  pos : 0 < st.blockUsed
  used : st.blockUsed ≤ 64
  place : n % 64 = st.blockUsed % 64
  counter : st.counter = .ofNat ((n + 63) / 64)
  block : st.blockUsed < 64 → st.block = sha512 (key.toList ++ le64 (.ofNat (n / 64)))

/-- As `At`, with a block open that holds the next byte. -/
structure DrbgState.Open (st : DrbgState) (key : Vector UInt8 64) (n : Nat) : Prop where
  key_eq : st.key = key
  seeded : st.seeded = true
  drawn : st.drawn = .ofNat n
  used : st.blockUsed = n % 64
  counter : st.counter = .ofNat (n / 64 + 1)
  block : st.block = sha512 (key.toList ++ le64 (.ofNat (n / 64)))

end

section
variable {sha512 : Bytes → Vector UInt8 64} {key : Vector UInt8 64} {st : DrbgState}

@[simp] theorem length_stream (n len : Nat) : (stream sha512 key n len).length = len := by
  simp [stream]

theorem stream_add (n a b : Nat) :
    stream sha512 key n (a + b) = stream sha512 key n a ++ stream sha512 key (n + a) b := by
  simp only [stream, List.range_add, List.map_append, List.map_map, Function.comp_def,
    Nat.add_assoc]

/-- A stretch of the stream inside one block is a stretch of the block. -/
theorem stream_block {n len : Nat} (h : n % 64 + len ≤ 64) :
    ((sha512 (key.toList ++ le64 (.ofNat (n / 64)))).toList.drop (n % 64)).take len =
      stream sha512 key n len := by
  refine List.ext_getElem (by simp; omega) fun i h1 h2 => ?_
  rw [length_stream] at h2
  have hdiv : (n + i) / 64 = n / 64 := by omega
  have hmod : (n + i) % 64 = n % 64 + i := by omega
  simp only [stream, List.getElem_take, List.getElem_drop, List.getElem_map, List.getElem_range,
    streamByte, hdiv, hmod]
  rw [List.getD_eq_getElem _ _ (by simp; omega)]

theorem DrbgState.seed_at (material : Bytes) :
    (st.seed sha512 material).At sha512 (sha512 material) 0 where
  key_eq := rfl
  seeded := rfl
  drawn := rfl
  pos := (by decide : 0 < 64)
  used := Nat.le_refl 64
  place := (by decide : 0 % 64 = 64 % 64)
  counter := rfl
  block h := absurd h (by simp [DrbgState.seed, sha512DigestLength])

/-- The first thing a turn of `det_bytes` does is to open a block. -/
theorem DrbgState.At.open {n : Nat} (h : st.At sha512 key n) :
    (if st.blockUsed ≥ sha512DigestLength then refill sha512 st else st).Open sha512 key n := by
  have hused := h.used
  have hpos := h.pos
  have hplace := h.place
  unfold sha512DigestLength
  by_cases hfull : st.blockUsed ≥ 64
  · have hcounter : (n + 63) / 64 = n / 64 := by omega
    rw [if_pos hfull]
    refine ⟨h.key_eq, h.seeded, h.drawn, ?_, ?_, ?_⟩
    · show 0 = n % 64
      omega
    · show st.counter + 1 = _
      rw [h.counter, hcounter, UInt64.ofNat_add]
      rfl
    · show sha512 (st.key.toList ++ le64 st.counter) = _
      rw [h.key_eq, h.counter, hcounter]
  · have hcounter : (n + 63) / 64 = n / 64 + 1 := by omega
    rw [if_neg hfull]
    exact ⟨h.key_eq, h.seeded, h.drawn, by omega, by rw [h.counter, hcounter],
      h.block (by omega)⟩

/-- Taking bytes of the open block. -/
theorem DrbgState.Open.take {n len : Nat} (h : st.Open sha512 key n) (hpos : 0 < len)
    (hlen : n % 64 + len ≤ 64) :
    ({ st with blockUsed := st.blockUsed + len, drawn := st.drawn + .ofNat len } :
      DrbgState).At sha512 key (n + len) := by
  have hused := h.used
  refine ⟨h.key_eq, h.seeded, ?_, ?_, ?_, ?_, ?_, ?_⟩
  · show st.drawn + .ofNat len = _
    rw [h.drawn, UInt64.ofNat_add]
  · show 0 < st.blockUsed + len
    omega
  · show st.blockUsed + len ≤ 64
    omega
  · show (n + len) % 64 = (st.blockUsed + len) % 64
    omega
  · show st.counter = _
    rw [h.counter]
    congr 1
    omega
  · intro hlt
    have hlt' : st.blockUsed + len < 64 := hlt
    have hdiv : (n + len) / 64 = n / 64 := by omega
    show st.block = _
    rw [h.block, hdiv]

theorem detLoop_eq {fuel remaining n : Nat} (hfuel : remaining ≤ fuel) (h : st.At sha512 key n) :
    (detLoop sha512 fuel remaining st).1 = stream sha512 key n remaining ∧
      (detLoop sha512 fuel remaining st).2.At sha512 key (n + remaining) := by
  induction fuel generalizing remaining st n with
  | zero =>
    obtain rfl : remaining = 0 := by omega
    exact ⟨rfl, h⟩
  | succ fuel ih =>
    cases remaining with
    | zero => exact ⟨rfl, h⟩
    | succ remaining =>
      have hopen := h.open
      unfold detLoop
      generalize (if st.blockUsed ≥ sha512DigestLength then refill sha512 st else st) = st' at hopen
      dsimp only
      have hused := hopen.used
      have hmod : n % 64 < 64 := Nat.mod_lt n (by decide)
      unfold sha512DigestLength
      generalize hk : min (remaining + 1) (64 - st'.blockUsed) = k
      have hrest : remaining + 1 - k ≤ fuel := by omega
      have htake : 0 < k ∧ n % 64 + k ≤ 64 := by omega
      obtain ⟨ihOut, ihAt⟩ := ih hrest (hopen.take htake.1 htake.2)
      refine ⟨?_, ?_⟩
      · rw [ihOut, hopen.block, hused, stream_block (by omega), ← stream_add]
        congr 1
        omega
      · have hn : n + k + (remaining + 1 - k) = n + (remaining + 1) := by omega
        rw [← hn]
        exact ihAt

/-- A draw hands out the next bytes of the stream. -/
theorem detBytes_eq {n : Nat} (h : st.At sha512 key n) {num : Int32} (hnum : ¬ num < 0) :
    (detBytes sha512 num st).1 = some (stream sha512 key n num.toNatClampNeg) ∧
      (detBytes sha512 num st).2.At sha512 key (n + num.toNatClampNeg) := by
  obtain ⟨hout, hat⟩ := detLoop_eq (Nat.le_refl num.toNatClampNeg) h
  unfold detBytes
  rw [if_neg hnum, if_neg (by rw [not_not]; exact h.seeded)]
  exact ⟨congrArg some hout, hat⟩

theorem detBytes_neg {num : Int32} (hnum : num < 0) : detBytes sha512 num st = (none, st) := by
  unfold detBytes
  rw [if_pos hnum]

end

/-! ## Draws of any sizes -/

section
variable (sha512 : Bytes → Vector UInt8 64)

/-- Calls of `det_bytes`, one after another. -/
def detDraws : List Int32 → DrbgState → List (Option Bytes) × DrbgState
  | [], st => ([], st)
  | num :: nums, st =>
    let r := detBytes sha512 num st
    let rest := detDraws nums r.2
    (r.1 :: rest.1, rest.2)

def bytesDrawn (st : DrbgState) : UInt64 := st.drawn

/-- `reseed`, or `reseed_with_label` where there is a label. -/
def reseeded (seed : UInt64) (label : Option Bytes) (s : RandState) : RandState :=
  match label with
  | none => reseed sha512 seed s
  | some label => reseedWithLabel sha512 seed label s

/-- The key it derives. -/
def derivedKey (seed : UInt64) (label : Option Bytes) : Vector UInt8 64 :=
  sha512 (le64 seed ++ label.getD [])

/-- `SHA512(key || 0) || … || SHA512(key || m - 1)`, with counters of 64 bits. -/
def streamBlocks (key : Vector UInt8 64) (m : Nat) : Bytes :=
  (List.range m).flatMap fun i => (sha512 (key.toList ++ le64 (.ofNat i))).toList

end

section
variable {sha512 : Bytes → Vector UInt8 64} {key : Vector UInt8 64} {st : DrbgState}

theorem reseeded_at (seed : UInt64) (label : Option Bytes) (s : RandState) :
    (reseeded sha512 seed label s).gState.At sha512 (derivedKey sha512 seed label) 0 := by
  cases label with
  | none =>
    have hkey : derivedKey sha512 seed none = sha512 (le64 seed) :=
      congrArg sha512 (List.append_nil (le64 seed))
    rw [hkey]
    exact DrbgState.seed_at (le64 seed)
  | some label => exact DrbgState.seed_at (le64 seed ++ label)

/-- How many bytes draws of these sizes give. -/
def total (sizes : List Int32) : Nat := (sizes.map Int32.toNatClampNeg).sum

theorem detDraws_eq {sizes : List Int32} (hsizes : ∀ num ∈ sizes, ¬ num < 0) {n : Nat}
    (h : st.At sha512 key n) :
    ∃ outs : List Bytes, (detDraws sha512 sizes st).1 = outs.map some ∧
      outs.flatten = stream sha512 key n (total sizes) ∧
      (detDraws sha512 sizes st).2.At sha512 key (n + total sizes) := by
  induction sizes generalizing n st with
  | nil => exact ⟨[], rfl, rfl, h⟩
  | cons num sizes ih =>
    obtain ⟨hnum, hrest⟩ := List.forall_mem_cons.1 hsizes
    obtain ⟨hout, hat⟩ := detBytes_eq h hnum
    obtain ⟨outs, houts, hflat, hend⟩ := ih hrest hat
    have htotal : total (num :: sizes) = num.toNatClampNeg + total sizes := rfl
    refine ⟨stream sha512 key n num.toNatClampNeg :: outs, ?_, ?_, ?_⟩
    · rw [detDraws, List.map_cons, ← hout, ← houts]
    · rw [List.flatten_cons, hflat, htotal, stream_add]
    · rw [htotal, ← Nat.add_assoc]
      exact hend

/-- Whole blocks of the stream. -/
theorem stream_blocks (m : Nat) : stream sha512 key 0 (64 * m) = streamBlocks sha512 key m := by
  induction m with
  | zero => rfl
  | succ m ih =>
    have hdiv : 64 * m / 64 = m := by omega
    have hmod : 64 * m % 64 = 0 := by omega
    have hblock : ((sha512 (key.toList ++ le64 (.ofNat (64 * m / 64)))).toList.drop
        (64 * m % 64)).take 64 = stream sha512 key (64 * m) 64 := stream_block (by omega)
    rw [hdiv, hmod, List.drop_zero, List.take_of_length_le (by simp)] at hblock
    have hlast : streamBlocks sha512 key (m + 1) = streamBlocks sha512 key m ++
        (sha512 (key.toList ++ le64 (.ofNat m))).toList := by
      simp [streamBlocks, List.range_succ]
    rw [Nat.mul_succ, stream_add, ih, Nat.zero_add, ← hblock, hlast]

/-- The stream from its start is a prefix of its blocks. -/
theorem stream_prefix {n m : Nat} (h : n ≤ 64 * m) :
    stream sha512 key 0 n = (streamBlocks sha512 key m).take n := by
  obtain ⟨rest, hrest⟩ := Nat.exists_eq_add_of_le h
  rw [← stream_blocks, hrest, stream_add, List.take_left' (length_stream 0 n)]

end

/-- After a reseed, draws of any sizes give the next bytes of one stream, and one draw of their
sum, where that is an `int` too, gives the same; the count is of 64 bits. A draw that fails changes
nothing. -/
theorem detDraws_stream (sha512 : Bytes → Vector UInt8 64) (s : RandState) (seed : UInt64)
    (label : Option Bytes) :
    (∀ sizes : List Int32, (∀ num ∈ sizes, 0 ≤ num) →
      (∃ outs : List Bytes,
        (detDraws sha512 sizes (reseeded sha512 seed label s).gState).1 = outs.map some ∧
        (∀ num : Int32, num.toInt = total sizes →
          (detBytes sha512 num (reseeded sha512 seed label s).gState).1 = some outs.flatten) ∧
        ∀ m, total sizes ≤ 64 * m → outs.flatten =
          (streamBlocks sha512 (derivedKey sha512 seed label) m).take (total sizes)) ∧
      (bytesDrawn (detDraws sha512 sizes (reseeded sha512 seed label s).gState).2).toNat =
        total sizes % 2 ^ 64) ∧
    ∀ (num : Int32) (st : DrbgState), num < 0 ∨ st.seeded = false →
      detBytes sha512 num st = (none, st) := by
  have hstart : (reseeded sha512 seed label s).gState.At sha512 (derivedKey sha512 seed label) 0 :=
    reseeded_at seed label s
  refine ⟨fun sizes hsizes => ?_, fun num st hfail => ?_⟩
  · obtain ⟨outs, houts, hflat, hend⟩ :=
      detDraws_eq (fun num hnum => Int32.not_lt.2 (hsizes num hnum)) hstart
    refine ⟨⟨outs, houts, fun num hnum => ?_, fun m hm => ?_⟩, ?_⟩
    · have hpos : ¬ num < 0 := by
        rw [Int32.lt_iff_toInt_lt, hnum, Int32.toInt_zero]
        omega
      have hsize : num.toNatClampNeg = total sizes := by
        rw [← Int32.toNat_toInt, hnum, Int.toNat_natCast]
      rw [(detBytes_eq hstart hpos).1, hflat, hsize]
    · rw [hflat, stream_prefix hm]
    · rw [bytesDrawn, hend.drawn, Nat.zero_add]
      exact UInt64.toNat_ofNat'
  · rcases hfail with hneg | hunseeded
    · exact detBytes_neg hneg
    · unfold detBytes
      by_cases hneg : num < 0
      · rw [if_pos hneg]
      · rw [if_neg hneg, if_pos (by simp [hunseeded])]

/-- No one draw gives what two draws of a gigabyte give, and after `2 ^ 34` such draws the count is
back at zero. -/
theorem draws_beyond_int :
    (¬ ∃ sha512 : Bytes → Vector UInt8 64,
      ∀ (s : RandState) (seed : UInt64) (label : Option Bytes) (sizes : List Int32),
        (∀ num ∈ sizes, 0 ≤ num) → ∃ outs : List Bytes,
          (detDraws sha512 sizes (reseeded sha512 seed label s).gState).1 = outs.map some ∧
          ∃ num : Int32, (detBytes sha512 num (reseeded sha512 seed label s).gState).1 =
            some outs.flatten) ∧
    ¬ ∃ sha512 : Bytes → Vector UInt8 64,
      ∀ (s : RandState) (seed : UInt64) (label : Option Bytes) (sizes : List Int32),
        (∀ num ∈ sizes, 0 ≤ num) →
          (bytesDrawn (detDraws sha512 sizes (reseeded sha512 seed label s).gState).2).toNat =
            total sizes := by
  have hstart : ∀ sha512 : Bytes → Vector UInt8 64,
      (reseeded sha512 0 none (RandState.initial true fun _ => 0)).gState.At sha512
        (derivedKey sha512 0 none) 0 := fun _ => reseeded_at 0 none _
  have hpos : ∀ n, ∀ num ∈ List.replicate n (1073741824 : Int32), 0 ≤ num := by
    intro n num hnum
    rw [List.eq_of_mem_replicate hnum]
    decide
  have htotal : ∀ n, total (List.replicate n 1073741824) = n * 2 ^ 30 := by
    intro n
    rw [total, List.map_replicate, List.sum_replicate, smul_eq_mul]
    rfl
  refine ⟨?_, ?_⟩
  · rintro ⟨sha512, hall⟩
    obtain ⟨outs, houts, num, hnum⟩ :=
      hall (RandState.initial true fun _ => 0) 0 none _ (hpos 2)
    obtain ⟨outs', houts', hflat, -⟩ :=
      detDraws_eq (fun num hnum => Int32.not_lt.2 (hpos 2 num hnum)) (hstart sha512)
    obtain rfl : outs = outs' :=
      List.map_injective_iff.2 (Option.some_injective Bytes) (houts.symm.trans houts')
    by_cases hneg : num < 0
    · rw [detBytes_neg hneg] at hnum
      cases hnum
    · rw [(detBytes_eq (hstart sha512) hneg).1, hflat] at hnum
      have hlength := congrArg List.length (Option.some.inj hnum)
      rw [length_stream, length_stream, htotal] at hlength
      have hlt := num.toNatClampNeg_lt
      omega
  · rintro ⟨sha512, hall⟩
    obtain ⟨-, -, -, hend⟩ :=
      detDraws_eq (fun num hnum => Int32.not_lt.2 (hpos (2 ^ 34) num hnum)) (hstart sha512)
    have hcount := hall (RandState.initial true fun _ => 0) 0 none _ (hpos (2 ^ 34))
    have hsum : 2 ^ 34 * 2 ^ 30 = 2 ^ 64 := by rw [← Nat.pow_add]
    rw [bytesDrawn, hend.drawn, htotal, hsum] at hcount
    exact absurd hcount (by decide)

end MpcHunt.Harness
