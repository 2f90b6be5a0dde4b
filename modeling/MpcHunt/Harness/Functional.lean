/-
Two processes side by side that call one library, whose calls are functions
of their arguments, the stores and the bytes they draw. What such a run does
not depend on is what an earlier one left: the state of the library, the
buffered block of the generator, the signing stores.
-/
import MpcHunt.Harness.Serving
import MpcHunt.Lib.TwoRuns

namespace MpcHunt.Harness

open TwoRuns

/-! ## The generators -/

/-- Both generators are at one place of the stream of one key, and have served the same
draws since `base` and `base'` were the records of them. -/
structure SameStream (sha512 : Bytes → Vector UInt8 64) (base base' : List Served)
    (r r' : RandState) : Prop where
  method : r.method = .gMethod
  method' : r'.method = .gMethod
  place : ∃ key n, r.gState.At sha512 key n ∧ r'.gState.At sha512 key n
  served : ∃ new, r.served = base ++ new ∧ r'.served = base' ++ new

section
variable {sha512 : Bytes → Vector UInt8 64} {base base' : List Served} {r r' : RandState}

/-- Seeding both with the same material, whatever block they hold. -/
theorem sameStream_reseed (seed : UInt64) (label : Bytes) (hr : UsesMethod r)
    (hr' : UsesMethod r') :
    SameStream sha512 r.served r'.served (reseedWithLabel sha512 seed label r)
      (reseedWithLabel sha512 seed label r') where
  method := hr
  method' := hr'
  place := ⟨_, 0, DrbgState.seed_at _, DrbgState.seed_at _⟩
  served := ⟨[], (List.append_nil _).symm, (List.append_nil _).symm⟩

/-- A draw gives both the same bytes. -/
theorem SameStream.randBytes (h : SameStream sha512 base base' r r') (num : Int32) :
    (randBytes sha512 num r).1 = (randBytes sha512 num r').1 ∧
      SameStream sha512 base base' (randBytes sha512 num r).2 (randBytes sha512 num r').2 := by
  obtain ⟨key, n, hat, hat'⟩ := h.place
  obtain ⟨new, hserved, hserved'⟩ := h.served
  unfold Harness.randBytes
  rw [h.method, h.method']
  dsimp only
  by_cases hnum : num < 0
  · rw [detBytes_neg hnum, detBytes_neg hnum]
    exact ⟨rfl, rfl, rfl, ⟨key, n, hat, hat'⟩, new, hserved, hserved'⟩
  · obtain ⟨hbytes, hnext⟩ := detBytes_eq hat hnum
    obtain ⟨hbytes', hnext'⟩ := detBytes_eq hat' hnum
    generalize detBytes sha512 num r.gState = d at hbytes hnext
    generalize detBytes sha512 num r'.gState = d' at hbytes' hnext'
    obtain ⟨out, g⟩ := d
    obtain ⟨out', g'⟩ := d'
    obtain rfl : out = some (stream sha512 key n num.toNatClampNeg) := hbytes
    obtain rfl : out' = some (stream sha512 key n num.toNatClampNeg) := hbytes'
    refine ⟨rfl, rfl, rfl, ⟨key, n + num.toNatClampNeg, hnext, hnext'⟩,
      new ++ [⟨.gMethod, stream sha512 key n num.toNatClampNeg⟩], ?_, ?_⟩
    · rw [hserved]
      exact List.append_assoc _ _ _
    · rw [hserved']
      exact List.append_assoc _ _ _

/-- What both have served since. -/
theorem SameStream.drop (h : SameStream sha512 base base' r r') :
    r.served.drop base.length = r'.served.drop base'.length := by
  obtain ⟨new, hserved, hserved'⟩ := h.served
  rw [hserved, hserved', List.drop_left, List.drop_left]

end

/-! ## The calls -/

/-- Two computations that draw alike, and whose results are related where they drew the
same. -/
inductive Draws.Same {α β : Type} (V : α → β → Prop) : Draws α → Draws β → Prop where
  | done {a : α} {b : β} : V a b → Draws.Same V (.done a) (.done b)
  | rand {num : Int32} {k : Option Bytes → Draws α} {k' : Option Bytes → Draws β} :
    (∀ out, Draws.Same V (k out) (k' out)) → Draws.Same V (.rand num k) (.rand num k')

theorem Draws.Same.run {α β : Type} {V : α → β → Prop} {sha512 : Bytes → Vector UInt8 64}
    {base base' : List Served} {d : Draws α} {d' : Draws β} (h : Draws.Same V d d')
    {r r' : RandState} (hr : SameStream sha512 base base' r r') :
    V (d.run sha512 r).1 (d'.run sha512 r').1 ∧
      SameStream sha512 base base' (d.run sha512 r).2 (d'.run sha512 r').2 := by
  induction h generalizing r r' with
  | done hval => exact ⟨hval, hr⟩
  | @rand num k k' hk ih =>
    obtain ⟨hout, hnext⟩ := hr.randBytes num
    unfold Draws.run
    dsimp only
    rw [← hout]
    exact ih _ hnext

section
variable {η α : Type}

/-- The stores of both are the same. -/
structure World.SameStores (w w' : World η) : Prop where
  players : w.players = w'.players
  keyStores : w.keyStores = w'.keyStores

/-- A call is a function of its arguments, the stores and what it draws, and cannot write
the key stores. -/
def FunctionalCall (c : Call η α) : Prop :=
  ∀ w w', w.SameStores w' → Draws.Same (fun r r' => r.1 = r'.1 ∧ r.2.SameStores r'.2 ∧
    r.2.keyStores = w.keyStores) (c w) (c w')

/-- So is every call of the library; the constructor of a service only binds references to
the stores. -/
structure Functional (lib : Library η) : Prop where
  makeService : ∀ id w w', w.SameStores w' → Draws.Same (fun v v' => w.SameStores v ∧
    w'.SameStores v') (lib.makeService id w) (lib.makeService id w')
  startSigning : ∀ id keyId txid algorithm data metadataJson playersStr playersIds,
    FunctionalCall (lib.startSigning id keyId txid algorithm data metadataJson playersStr playersIds)
  mtaResponse : ∀ id txid requests, FunctionalCall (lib.mtaResponse id txid requests)
  mtaVerify : ∀ id txid responses, FunctionalCall (lib.mtaVerify id txid responses)
  getSi : ∀ id txid deltas, FunctionalCall (lib.getSi id txid deltas)
  getCmpSignature : ∀ id txid sis, FunctionalCall (lib.getCmpSignature id txid sis)

end

/-! ## The processes -/

section
variable {η α : Type} (H : Hashes) (keys : IdMap KeyStore) (base base' : List Served)

/-- Before a run: the same key stores, the method in place, and the records so far. -/
structure Before (p p' : Proc η) : Prop where
  keyStores : p.world.keyStores = keys
  keyStores' : p'.world.keyStores = keys
  method : UsesMethod p.rand
  method' : UsesMethod p'.rand
  served : p.rand.served = base
  served' : p'.rand.served = base'

/-- In a run: the same stores, and generators at one place. -/
structure InStep (p p' : Proc η) : Prop where
  players : p.world.players = p'.world.players
  keyStores : p.world.keyStores = keys
  keyStores' : p'.world.keyStores = keys
  stream : SameStream H.sha512 base base' p.rand p'.rand

/-- After a run: as before it, and the same was drawn since. -/
structure After (p p' : Proc η) : Prop where
  keyStores : p.world.keyStores = keys
  keyStores' : p'.world.keyStores = keys
  method : UsesMethod p.rand
  method' : UsesMethod p'.rand
  served : p.rand.served.drop base.length = p'.rand.served.drop base'.length

variable {H keys base base'} {lib : Library η}

theorem InStep.after {p p' : Proc η} (h : InStep H keys base base' p p') :
    After keys base base' p p' :=
  ⟨h.keyStores, h.keyStores', h.stream.method, h.stream.method', h.stream.drop⟩

/-- Where nothing was drawn. -/
theorem Before.after {p p' : Proc η} (h : Before keys base base' p p') :
    After keys base base' p p' := by
  refine ⟨h.keyStores, h.keyStores', h.method, h.method', ?_⟩
  rw [h.served, h.served', List.drop_length, List.drop_length]

theorem InStep.sameStores {p p' : Proc η} (h : InStep H keys base base' p p') :
    p.world.SameStores p'.world :=
  ⟨h.players, h.keyStores.trans h.keyStores'.symm⟩

theorem FunctionalCall.invoke {c : Call η α} (hc : FunctionalCall c) :
    Related (InStep H keys base base') (InStep H keys base base') Eq (invoke H c) (invoke H c) := by
  intro p p' h
  obtain ⟨⟨hval, hstores, hkeys⟩, hstream⟩ := (hc _ _ h.sameStores).run h.stream
  have hkeys' := hkeys.trans h.keyStores
  exact ⟨hval, hstores.players, hkeys', hstores.keyStores.symm.trans hkeys', hstream⟩

/-- At the start of a run: in step, and every signing store is empty. -/
structure Fresh (H : Hashes) (keys : IdMap KeyStore) (base base' : List Served) (p p' : Proc η) :
    Prop where
  inStep : InStep H keys base base' p p'
  empty : ∀ (id : UInt64) (store : SigningStore), p.world.players[id]? = some store → store = ∅

theorem Fresh.insertIfNew {p p' : Proc η} (h : Fresh H keys base base' p p') (id : UInt64) :
    Fresh H keys base base'
      { p with world.players := p.world.players.insertIfNew id ∅ }
      { p' with world.players := p'.world.players.insertIfNew id ∅ } where
  inStep := ⟨congrArg (·.insertIfNew id ∅) h.inStep.players, h.inStep.keyStores, h.inStep.keyStores',
    h.inStep.stream⟩
  empty other store hget := by
    have hget' : (p.world.players.insertIfNew id ∅)[other]? = some store := hget
    rw [Std.ExtTreeMap.getElem?_insertIfNew] at hget'
    split at hget'
    · exact (Option.some.inj hget').symm
    · exact h.empty other store hget'

/-- Building the players: every one has an empty signing store. -/
theorem Functional.makePlayers (hlib : Functional lib) (ids : List UInt64) :
    Related (Fresh H keys base base') (Fresh H keys base base') (fun _ _ => True)
      (makePlayers H lib ids) (makePlayers H lib ids) := by
  induction ids with
  | nil => exact Related.pure trivial
  | cons id ids ih =>
    refine Related.bind (S := Fresh H keys base base') (V := fun _ _ => True)
      (Related.modify fun p p' h => h.insertIfNew id) fun _ _ _ => ?_
    refine Related.bind (S := Fresh H keys base base') (V := fun _ _ => True)
      (Related.modify fun p p' h => ?_) fun _ _ _ => ih
    obtain ⟨⟨hstores, hstores'⟩, hstream⟩ :=
      (hlib.makeService id _ _ h.inStep.sameStores).run h.inStep.stream
    refine ⟨⟨?_, ?_, ?_, hstream⟩, fun other store hget => ?_⟩
    · exact hstores.players.symm.trans (h.inStep.players.trans hstores'.players)
    · exact hstores.keyStores.symm.trans h.inStep.keyStores
    · exact hstores'.keyStores.symm.trans h.inStep.keyStores'
    · exact h.empty other store (hstores.players ▸ hget)

end

end MpcHunt.Harness
