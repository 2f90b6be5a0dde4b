/-
Corpus rotation loses and repeats nothing: over sources that hold still, the
shards of consecutive ordinals (`wave_number * wave_shard_count +
shard_index`) take every private unit once in every full turn of its bucket.

`materializeSelect_static` says what one shard selects; the rest is the
arithmetic of two nested rotations (`MpcHunt.Lib.Rotation`).
-/
import MpcHunt.Window.StaticScan
import MpcHunt.Lib.Rotation

namespace MpcHunt.MaterializeWindow

open Rotation

variable {t : Tree} {sha1 : Bytes → String}

/-! ## What the sources hold -/

/-- A common source the reader accepts: 1 to 23 good units. -/
structure ValidCommon (sha1 : Bytes → String) (t : Tree) (common : Path) : Prop where
  dir : ∃ es, t.dirs common = some es
  good : ∀ u ∈ t.units [common], GoodUnit sha1 u.2
  some_unit : 1 ≤ (t.names [common]).length
  room : (t.names [common]).length < windowSize

/-- The non-empty prefixes of the private sources, in order. -/
def Tree.prefixes (t : Tree) (sources : List Path) : List String :=
  sorted ((t.names sources).map prefixOf).dedup

/-- The units of a bucket that are not common, in order. -/
def Tree.remaining (t : Tree) (common : Path) (sources : List Path) (b : String) : List String :=
  sorted ((t.names sources).filter fun n => prefixOf n = b ∧ n ∉ t.names [common]).dedup

/-- `24 - |common|`. -/
def Tree.capacity (t : Tree) (common : Path) : Nat := windowSize - (t.names [common]).length

/-- `W_b`: the windows the remaining units of a bucket make. -/
def Tree.windows (t : Tree) (common : Path) (sources : List Path) (b : String) : Nat :=
  windowCount (t.capacity common) (t.remaining common sources b)

theorem Tree.names_singleton {d : Path} {es : Dict String SourceFile} (h : t.dirs d = some es) :
    t.names [d] = es.keys := by
  simp [Tree.names, Tree.units, h, Dict.keys, Function.comp_def]

theorem Tree.mem_prefixes {sources : List Path} {b : String} :
    b ∈ t.prefixes sources ↔ ∃ n ∈ t.names sources, prefixOf n = b := by
  simp [Tree.prefixes]

theorem Tree.nodup_prefixes (sources : List Path) : (t.prefixes sources).Nodup := by
  simp [Tree.prefixes, List.nodup_dedup]

theorem Tree.mem_remaining {common : Path} {sources : List Path} {b n : String} :
    n ∈ t.remaining common sources b ↔
      n ∈ t.names sources ∧ prefixOf n = b ∧ n ∉ t.names [common] := by
  simp [Tree.remaining]

theorem Tree.nodup_remaining (common : Path) (sources : List Path) (b : String) :
    (t.remaining common sources b).Nodup := by
  simp [Tree.remaining, List.nodup_dedup]

theorem ValidCommon.capacity_pos {common : Path} (h : ValidCommon sha1 t common) :
    0 < t.capacity common := Nat.sub_pos_of_lt h.room

/-- The prefixes the scan finds are the prefixes there are. -/
theorem inventory_prefixes (sources : List Path) :
    ((t.scan none sources).inventory sources).prefixes = t.prefixes sources := by
  refine sorted_congr (nodup_bucketFiles_foldl none _ _ (by simp [Scan.empty, Dict.keys]))
    (List.nodup_dedup _) fun b => ?_
  rw [Tree.scan, mem_bucketFiles_foldl]
  simp [Scan.empty, Dict.keys, Tree.names, Placed.bucket]

/-! ## What one shard selects -/

theorem names_unitsOf {d : Dict String MUnit} (hd : Named d) :
    ∀ {names : List String}, (∀ n ∈ names, n ∈ d.keys) → (unitsOf d names).map MUnit.name = names
  | [], _ => rfl
  | n :: names, h => by
    obtain ⟨m, hm⟩ := (Dict.mem_keys_iff d n).1 (h n (by simp))
    have ih : (unitsOf d names).map MUnit.name = names :=
      names_unitsOf hd fun k hk => h k (by simp [hk])
    simp only [unitsOf] at ih ⊢
    rw [List.filterMap_cons_some hm, List.map_cons, ih, hd.2 n m hm]

theorem assign_windows {all : List String} {capacity visit : Nat} (hw : windowCount capacity all ≠ 0) :
    assign all capacity visit =
      (windowCount capacity all, some (visit % windowCount capacity all),
        window capacity all (visit % windowCount capacity all)) := by
  have hw' : (all.length + capacity - 1) / capacity ≠ 0 := hw
  simp only [assign, if_pos hw']
  rfl

theorem assign_empty {capacity visit : Nat} (hc : 0 < capacity) :
    assign [] capacity visit = (0, none, []) := by
  have hw : ¬ (([] : List String).length + capacity - 1) / capacity ≠ 0 := by
    rw [not_not]; exact windowCount_nil (α := String) hc
  have hz : (([] : List String).length + capacity - 1) / capacity = 0 := not_not.1 hw
  simp only [assign, hz, ne_eq, not_true_eq_false, if_false]

/-- What `assign` hands out is among the names it is given. -/
theorem mem_of_mem_assign {all : List String} {capacity visit : Nat} {n : String}
    (h : n ∈ (assign all capacity visit).2.2) : n ∈ all := by
  simp only [assign] at h
  split at h
  · exact List.mem_of_mem_drop (List.mem_of_mem_take h)
  · simp at h

section
variable {dest common : Path} {sources : List Path}

/-- The bucket an ordinal schedules. -/
def Tree.bucketAt (t : Tree) (sources : List Path) (ordinal : Nat) : String :=
  (t.prefixes sources).getD (ordinal % (t.prefixes sources).length) ""

theorem materializeSelect_static (hdest : t.dirs dest = some []) (hc : ValidCommon sha1 t common)
    (hs : ValidSources sha1 t sources) (hne : t.prefixes sources ≠ []) {shard N : Nat}
    (hN : N ≤ maxShards) (hshard : shard < N) (wave : Nat) :
    ∃ sel, materializeSelect (staticOS t) sha1 dest shard N wave common sources () = .ok sel () ∧
      sel.bucketPrefix = some (t.bucketAt sources (wave * N + shard)) ∧
      (sel.windowCount, sel.windowIndex, sel.assignedNames) =
        assign (t.remaining common sources (t.bucketAt sources (wave * N + shard)))
          (t.capacity common) ((wave * N + shard) / (t.prefixes sources).length) ∧
      sel.selected.map MUnit.name = sorted (t.names [common]) ++ sel.assignedNames := by
  obtain ⟨es, hes⟩ := hc.dir
  have hnames := Tree.names_singleton hes
  have hgood : ∀ p ∈ es, GoodUnit sha1 p := fun p hp =>
    hc.good (common, p) (Tree.mem_units.2 ⟨by simp, es, hes, hp⟩)
  have hlen : es.length = (t.names [common]).length := by rw [hnames]; simp [Dict.keys]
  have hcap : es.length ≤ maxBucketFiles := by
    have := hc.room
    rw [hlen, maxBucketFiles]; rw [windowSize] at this; omega
  have hcommon := validateSource_static hes hgood hcap
  have hroom : ¬ ¬ (1 ≤ (es.map fun p => (p.1, unitOf common p)).length ∧
      (es.map fun p => (p.1, unitOf common p)).length < windowSize) := by
    rw [not_not, List.length_map, hlen]
    exact ⟨hc.some_unit, hc.room⟩
  obtain ⟨d, hd, hnamed, hkeys⟩ :=
    validatePrivateBucket_static hs (t.bucketAt sources (wave * N + shard))
  have hinv : scanPrivateInventory (staticOS t) sources () =
      .ok ((t.scan none sources).inventory sources) () := by
    rw [scanPrivateInventory, bind_ok (scanPrivateSources_static hs none)]
    rfl
  have hckeys : Dict.keys (es.map fun p => (p.1, unitOf common p)) = t.names [common] := by
    rw [hnames]; simp [Dict.keys, Function.comp_def]
  have hccap : windowSize - (es.map fun p => (p.1, unitOf common p)).length = t.capacity common := by
    rw [List.length_map, hlen]; rfl
  have hcnamed : Named (es.map fun p => (p.1, unitOf common p)) := by
    constructor
    · rw [hckeys, hnames]; exact t.names_nodup hes
    · intro n m hm
      obtain ⟨p, -, hp⟩ := List.mem_map.1 (Dict.mem_of_get? hm)
      cases hp; rfl
  -- The units left of the bucket once the common ones are taken out.
  let left : Dict String MUnit := d.filter fun p =>
    ¬ Dict.has (es.map fun p => (p.1, unitOf common p)) p.1
  have hleft : ∀ n, n ∈ left.keys ↔ n ∈ d.keys ∧ n ∉ t.names [common] := by
    intro n
    simp only [left, Dict.keys, List.mem_map, List.mem_filter, decide_eq_true_eq]
    constructor
    · rintro ⟨p, ⟨hp, hn⟩, rfl⟩
      rw [Dict.has_iff, hckeys] at hn
      exact ⟨⟨p, hp, rfl⟩, hn⟩
    · rintro ⟨⟨p, hp, rfl⟩, hn⟩
      refine ⟨p, ⟨hp, ?_⟩, rfl⟩
      rwa [Dict.has_iff, hckeys]
  have hlnamed : Named left := hnamed.filter _
  have hremaining : sorted left.keys =
      t.remaining common sources (t.bucketAt sources (wave * N + shard)) := by
    refine sorted_congr hlnamed.1 (List.nodup_dedup _) fun n => ?_
    rw [hleft, hkeys]
    simp [and_assoc]
  have hprefix : ((t.scan none sources).inventory sources).prefixes.getD
      ((wave * N + shard) % ((t.scan none sources).inventory sources).prefixes.length) "" =
        t.bucketAt sources (wave * N + shard) := by
    rw [inventory_prefixes]; rfl
  have hassigned : ∀ n ∈ (assign (sorted left.keys) (t.capacity common)
      ((wave * N + shard) / (t.prefixes sources).length)).2.2, n ∈ left.keys :=
    fun n hn => mem_sorted.1 (mem_of_mem_assign hn)
  refine ⟨{
    commonNames := sorted (t.names [common])
    assignedNames := (assign (sorted left.keys) (t.capacity common)
      ((wave * N + shard) / (t.prefixes sources).length)).2.2
    bucketPrefix := some (t.bucketAt sources (wave * N + shard))
    bucketVisit := (wave * N + shard) / (t.prefixes sources).length
    windowIndex := (assign (sorted left.keys) (t.capacity common)
      ((wave * N + shard) / (t.prefixes sources).length)).2.1
    windowCount := (assign (sorted left.keys) (t.capacity common)
      ((wave * N + shard) / (t.prefixes sources).length)).1
    selected := unitsOf (es.map fun p => (p.1, unitOf common p)) (sorted (t.names [common])) ++
      unitsOf left (assign (sorted left.keys) (t.capacity common)
        ((wave * N + shard) / (t.prefixes sources).length)).2.2 }, ?_, rfl, ?_, ?_⟩
  · rw [materializeSelect, bind_ok (rejectIf_ok (by omega) ()),
      bind_ok (rejectIf_ok (Nat.not_lt.2 hs.few) ()),
      bind_ok (validateDestination_static hdest), bind_ok hcommon,
      bind_ok (rejectIf_ok hroom ()), bind_ok hinv]
    dsimp only
    rw [if_neg (by rw [inventory_prefixes]; exact hne), hprefix]
    rw [bind_ok hd, hckeys, hccap, inventory_prefixes]
    rfl
  · rw [hremaining]
  · rw [List.map_append, names_unitsOf hcnamed fun n hn => by rw [hckeys]; exact mem_sorted.1 hn,
      names_unitsOf hlnamed hassigned]

/-! ## Which ordinals select a unit -/

/-- `P`: how many prefixes have units. -/
def Tree.prefixCount (t : Tree) (sources : List Path) : Nat := (t.prefixes sources).length

/-- Shard `o % N` of wave `o / N`, the one of ordinal `o`, selects the unit `u`. -/
def Selects (t : Tree) (sha1 : Bytes → String) (dest common : Path) (sources : List Path) (N : Nat)
    (u : String) (o : Nat) : Prop :=
  ∃ sel, materializeSelect (staticOS t) sha1 dest (o % N) N (o / N) common sources () = .ok sel () ∧
    u ∈ sel.selected.map MUnit.name

/-- A shard of a wave takes window `k` of bucket `b`. -/
def Picks (t : Tree) (sha1 : Bytes → String) (dest common : Path) (sources : List Path) (N : Nat)
    (wave shard : Nat) (b : String) (k : Nat) : Prop :=
  ∃ sel, materializeSelect (staticOS t) sha1 dest shard N wave common sources () = .ok sel () ∧
    sel.bucketPrefix = some b ∧ sel.windowIndex = some k

theorem bucketAt_eq_iff {b : String} (hb : b ∈ t.prefixes sources) (o : Nat) :
    t.bucketAt sources o = b ↔ o % t.prefixCount sources = (t.prefixes sources).idxOf b := by
  have hlt : (t.prefixes sources).idxOf b < (t.prefixes sources).length := List.idxOf_lt_length_iff.2 hb
  have hmod : o % (t.prefixes sources).length < (t.prefixes sources).length :=
    Nat.mod_lt _ (by omega)
  have hget : t.bucketAt sources o = (t.prefixes sources)[o % (t.prefixes sources).length] := by
    rw [Tree.bucketAt, List.getD_eq_getElem _ _ hmod]
  rw [hget, Tree.prefixCount]
  constructor
  · rintro rfl
    rw [List.Nodup.idxOf_getElem (t.nodup_prefixes sources)]
  · intro h
    simp only [h, List.getElem_idxOf]

theorem bucketAt_mem (hne : t.prefixes sources ≠ []) (o : Nat) :
    t.bucketAt sources o ∈ t.prefixes sources := by
  have hmod : o % (t.prefixes sources).length < (t.prefixes sources).length :=
    Nat.mod_lt _ (List.length_pos_of_ne_nil hne)
  rw [Tree.bucketAt, List.getD_eq_getElem _ _ hmod]
  exact List.getElem_mem hmod

/-- An ordinal selects a unit that is not common when it schedules the unit's bucket and
its window there. -/
theorem selects_iff (hdest : t.dirs dest = some []) (hc : ValidCommon sha1 t common)
    (hs : ValidSources sha1 t sources) {N : Nat} (h1 : 1 ≤ N) (hN : N ≤ maxShards) {u : String}
    (hu : u ∈ t.names sources) (hnc : u ∉ t.names [common]) (o : Nat) :
    Selects t sha1 dest common sources N u o ↔
      t.bucketAt sources o = prefixOf u ∧
        u ∈ window (t.capacity common) (t.remaining common sources (prefixOf u))
          (o / t.prefixCount sources % t.windows common sources (prefixOf u)) := by
  have hne : t.prefixes sources ≠ [] :=
    List.ne_nil_of_mem (Tree.mem_prefixes.2 ⟨u, hu, rfl⟩)
  obtain ⟨sel, hsel, -, hassign, hnames⟩ :=
    materializeSelect_static hdest hc hs hne hN (Nat.mod_lt o h1) (o / N)
  rw [Nat.mul_comm, Nat.div_add_mod] at hassign
  have hsome : Selects t sha1 dest common sources N u o ↔ u ∈ sel.assignedNames := by
    constructor
    · rintro ⟨sel', hsel', hmem⟩
      obtain rfl : sel = sel' := by rw [hsel] at hsel'; cases hsel'; rfl
      rw [hnames, List.mem_append, mem_sorted] at hmem
      exact hmem.resolve_left hnc
    · intro hmem
      exact ⟨sel, hsel, by rw [hnames]; exact List.mem_append_right _ hmem⟩
  have hlist : sel.assignedNames = (assign (t.remaining common sources (t.bucketAt sources o))
      (t.capacity common) (o / (t.prefixes sources).length)).2.2 := by rw [← hassign]
  rw [hsome, hlist]
  constructor
  · intro hmem
    have hb : prefixOf u = t.bucketAt sources o := (Tree.mem_remaining.1 (mem_of_mem_assign hmem)).2.1
    refine ⟨hb.symm, ?_⟩
    rw [← hb] at hmem
    have hmem' := mem_of_mem_assign hmem
    rw [assign_windows (Nat.ne_of_gt (windowCount_pos hc.capacity_pos (List.ne_nil_of_mem hmem')))]
      at hmem
    exact hmem
  · rintro ⟨hb, hmem⟩
    have hrem : u ∈ t.remaining common sources (prefixOf u) := Tree.mem_remaining.2 ⟨hu, rfl, hnc⟩
    rw [hb, assign_windows (Nat.ne_of_gt (windowCount_pos hc.capacity_pos (List.ne_nil_of_mem hrem)))]
    exact hmem

theorem picks_iff (hdest : t.dirs dest = some []) (hc : ValidCommon sha1 t common)
    (hs : ValidSources sha1 t sources) (hne : t.prefixes sources ≠ []) {shard N : Nat}
    (hN : N ≤ maxShards) (hshard : shard < N) (wave : Nat) (b : String) (k : Nat) :
    Picks t sha1 dest common sources N wave shard b k ↔
      t.bucketAt sources (wave * N + shard) = b ∧ 0 < t.windows common sources b ∧
        (wave * N + shard) / t.prefixCount sources % t.windows common sources b = k := by
  obtain ⟨sel, hsel, hb, hassign, -⟩ := materializeSelect_static hdest hc hs hne hN hshard wave
  have hindex : sel.windowIndex = (assign (t.remaining common sources
      (t.bucketAt sources (wave * N + shard))) (t.capacity common)
        ((wave * N + shard) / (t.prefixes sources).length)).2.1 := by rw [← hassign]
  have hsome : Picks t sha1 dest common sources N wave shard b k ↔
      sel.bucketPrefix = some b ∧ sel.windowIndex = some k := by
    constructor
    · rintro ⟨sel', hsel', h⟩
      obtain rfl : sel = sel' := by rw [hsel] at hsel'; cases hsel'; rfl
      exact h
    · exact fun h => ⟨sel, hsel, h⟩
  rw [hsome, hb, Option.some.injEq, hindex]
  refine and_congr_right fun hbk => ?_
  subst hbk
  by_cases hnil : t.remaining common sources (t.bucketAt sources (wave * N + shard)) = []
  · rw [Tree.windows, hnil, windowCount_nil hc.capacity_pos, assign_empty hc.capacity_pos]
    simp
  · have hpos := windowCount_pos hc.capacity_pos hnil
    rw [assign_windows (Nat.ne_of_gt hpos)]
    simp only [Option.some.injEq]
    exact ⟨fun h => ⟨hpos, h⟩, fun h => h.2⟩

/-- **Rotation loses and repeats nothing.** Over sources that hold still and any shard
count the materializer admits, a private unit that is not common is selected by exactly
one of any `P * W_b` consecutive ordinals; wave and shard name an ordinal uniquely; and a
second shard of a wave takes the window a first one takes exactly when `P * W_b` divides
their distance. -/
theorem rotation_exactly_once (hdest : t.dirs dest = some []) (hc : ValidCommon sha1 t common)
    (hs : ValidSources sha1 t sources) (hne : t.prefixes sources ≠ []) {N : Nat} (h1 : 1 ≤ N)
    (hN : N ≤ maxShards) :
    (∀ u ∈ t.names sources, u ∉ t.names [common] → ∀ start, ∃! o,
      (start ≤ o ∧ o < start + t.prefixCount sources * t.windows common sources (prefixOf u)) ∧
        Selects t sha1 dest common sources N u o) ∧
    (∀ o, ∃! d : Nat × Nat, d.2 < N ∧ d.1 * N + d.2 = o) ∧
    (∀ wave i j b k, i < N → j < N → i ≠ j → Picks t sha1 dest common sources N wave i b k →
      (Picks t sha1 dest common sources N wave j b k ↔
        ((t.prefixCount sources * t.windows common sources b : ℕ) : ℤ) ∣
          ((wave * N + i : ℕ) : ℤ) - ((wave * N + j : ℕ) : ℤ))) := by
  refine ⟨fun u hu hnc start => ?_, existsUnique_digits h1, ?_⟩
  · have hb : prefixOf u ∈ t.prefixes sources := Tree.mem_prefixes.2 ⟨u, hu, rfl⟩
    have hidx : (t.prefixes sources).idxOf (prefixOf u) < t.prefixCount sources :=
      List.idxOf_lt_length_iff.2 hb
    obtain ⟨k, hk, hwin⟩ := exists_window hc.capacity_pos (t.nodup_remaining common sources _)
      (Tree.mem_remaining.2 ⟨hu, rfl, hnc⟩)
    have hiff : ∀ o, Selects t sha1 dest common sources N u o ↔
        Visits (t.prefixCount sources) (t.windows common sources (prefixOf u))
          ((t.prefixes sources).idxOf (prefixOf u)) k o := fun o => by
      rw [selects_iff hdest hc hs h1 hN hu hnc, bucketAt_eq_iff hb, hwin, Visits]
    have hk' : k < t.windows common sources (prefixOf u) := hk
    simpa only [hiff] using existsUnique_visits hidx hk' start
  · intro wave i j b k hi hj _ hpick
    have hpos : 0 < t.prefixCount sources := List.length_pos_of_ne_nil hne
    obtain ⟨hbi, hw, hki⟩ := (picks_iff hdest hc hs hne hN hi wave b k).1 hpick
    have hmem : b ∈ t.prefixes sources := hbi ▸ bucketAt_mem hne _
    rw [picks_iff hdest hc hs hne hN hj, bucketAt_eq_iff hmem]
    rw [bucketAt_eq_iff hmem] at hbi
    rw [← Nat.modEq_iff_dvd, ← same_visit_iff hpos, hbi, hki]
    tauto

/-- A wave of more than `MAX_SHARDS` shards selects nothing: every shard is refused. -/
theorem not_selects_of_large {N : Nat} (hN : maxShards < N) (u : String) (o : Nat) :
    ¬ Selects t sha1 dest common sources N u o := by
  rintro ⟨sel, hsel, -⟩
  have hbad : N < 1 ∨ N > maxShards ∨ o % N ≥ N := .inr (.inl hN)
  rw [materializeSelect, rejectIf, if_pos hbad] at hsel
  cases hsel

end

/-! ## One common unit and one private unit -/

namespace OneEach

def commonUnit : String := "da39a3ee5e6b4b0d3255bfef95601890afd80709"

def privateUnit : String := "86f7e437faa5a7fce15d1ddcb9eaeaea377667b8"

/-- SHA-1 on the contents of the two units. -/
def digest (content : Bytes) : String :=
  if content = [] then commonUnit else if content = [97] then privateUnit else ""

def entries : Path → Option (Dict String SourceFile)
  | ["dest"] => some []
  | ["common"] => some [(commonUnit, ⟨1, 1, []⟩)]
  | ["private"] => some [(privateUnit, ⟨1, 2, [97]⟩)]
  | _ => none

def tree : Tree where
  dirs := entries
  names_nodup {d es} h := by
    unfold entries at h
    split at h <;> cases h <;> simp [Dict.keys]
  flat {d es n f} h _ := by
    unfold entries at h
    split at h <;> cases h <;> rfl

theorem validCommon : ValidCommon digest tree ["common"] where
  dir := ⟨_, rfl⟩
  good := by
    have hunits : tree.units [["common"]] = [(["common"], commonUnit, ⟨1, 1, []⟩)] := rfl
    rw [hunits]
    rintro u (_ | ⟨_, ⟨⟩⟩)
    exact ⟨by decide, rfl, by decide⟩
  some_unit := by decide
  room := by decide

theorem validSources : ValidSources digest tree [["private"]] where
  few := by decide
  dirs := by rintro d (_ | ⟨_, ⟨⟩⟩); exact ⟨_, rfl⟩
  good := by
    have hunits : tree.units [["private"]] = [(["private"], privateUnit, ⟨1, 2, [97]⟩)] := rfl
    rw [hunits]
    rintro u (_ | ⟨_, ⟨⟩⟩)
    exact ⟨by decide, rfl, by decide⟩
  capped := capped_of_bucket (by decide) (by decide)

theorem prefixes_ne_nil : tree.prefixes [["private"]] ≠ [] :=
  List.ne_nil_of_mem (Tree.mem_prefixes.2 ⟨privateUnit, by decide, rfl⟩)

theorem mem_names : privateUnit ∈ tree.names [["private"]] := by decide

theorem not_common : privateUnit ∉ tree.names [["common"]] := by decide

end OneEach

/-- A wave of 4097 shards leaves the private unit of `OneEach` out for ever. -/
theorem rotation_refused_4097 :
    ValidCommon OneEach.digest OneEach.tree ["common"] ∧
    ValidSources OneEach.digest OneEach.tree [["private"]] ∧
    OneEach.tree.prefixes [["private"]] ≠ [] ∧ OneEach.privateUnit ∈ OneEach.tree.names [["private"]] ∧
    OneEach.privateUnit ∉ OneEach.tree.names [["common"]] ∧
    ∀ start, ¬ ∃! o, (start ≤ o ∧ o < start + OneEach.tree.prefixCount [["private"]] *
        OneEach.tree.windows ["common"] [["private"]] (prefixOf OneEach.privateUnit)) ∧
      Selects OneEach.tree OneEach.digest ["dest"] ["common"] [["private"]] 4097
        OneEach.privateUnit o :=
  ⟨OneEach.validCommon, OneEach.validSources, OneEach.prefixes_ne_nil, OneEach.mem_names,
    OneEach.not_common, fun _ ⟨o, ⟨_, ho⟩, _⟩ =>
      not_selects_of_large (by decide : maxShards < 4097) OneEach.privateUnit o ho⟩

/-! ## Two prefixes, one of them of two windows -/

namespace TwoWindows

/-- Contents of one byte and their SHA-1; the first 23 are common. -/
def table : List (Bytes × Nat) := [
  ([0], 0x5ba93c9db0cff93f52b521d7420e43f6eda2784f),
  ([1], 0xbf8b4530d8d246dd74ac53a13471bba17941dff7),
  ([2], 0xc4ea21bb365bbeeaf5f2c654883e56d11e43c44e),
  ([3], 0x9842926af7ca0a8cca12604f945414f07b01e13d),
  ([4], 0xa42c6cf1de3abfdea9b95f34687cbbe92b9a7383),
  ([5], 0x8dc00598417d4eb788a77ac6ccef3cb484905d8b),
  ([6], 0x2d0134ed3b9de132c720fe697b532b4c232ff9fe),
  ([7], 0x5d1be7e9dda1ee8896be5b7e34a85ee16452a7b4),
  ([8], 0x8d883f1577ca8c334b7c6d75ccb71209d71ced13),
  ([9], 0xac9231da4082430afe8f4d40127814c613648d8e),
  ([10], 0xadc83b19e793491b1c6ea0fd8b46cd9f32e592fc),
  ([11], 0x067d5096f219c64b53bb1c7d5e3754285b565a47),
  ([12], 0x1e32e3c360501a0ede378bc45a24420dc2e53fba),
  ([13], 0x11f4de6b8b45cf8051b1d17fa4cde9ad935cea41),
  ([14], 0x320355ced694aa69924f6bb82e7b74f420303fd9),
  ([15], 0xc7255dc48b42d44f6c0676d6009051b7e1aa885b),
  ([16], 0x6e14a407faae939957b80e641a836735bbdcad5a),
  ([17], 0xa8abd012eb59b862bf9bc1ea443d2f35a1a2e222),
  ([18], 0xc4f87a6290aee1acfc1f26083974ce94621fca64),
  ([19], 0x5a8ca84c7d4d9b055f05c55b1f707f223979d387),
  ([20], 0x3ce0a1af90b6e7a3dd8d45e410884b588ea2d04c),
  ([21], 0x7762eabf9387fe8ec5d648cd3b1d9eb6d820caa2),
  ([22], 0xa9d3c9cd54b1a392b21ea14904d9a318f74636b7),
  ([28], 0xb830c46d24068069f0a43687826f355b21fdb941),
  ([32], 0xb858cb282617fb0956d960215c8e84d1ccf909c6),
  ([23], 0x094d98b399bf4ace7b8899ab7081e867fb03f869)]

/-- The last `k` hexadecimal digits of a number, before what follows. -/
def hexDigits : Nat → Nat → List Char → List Char
  | 0, _, cs => cs
  | k + 1, n, cs => hexDigits k (n / 16) (Nat.digitChar (n % 16) :: cs)

theorem length_hexDigits (k n : Nat) (cs : List Char) :
    (hexDigits k n cs).length = k + cs.length := by
  induction k generalizing n cs with
  | zero => rw [hexDigits, Nat.zero_add]
  | succ k ih => rw [hexDigits, ih, List.length_cons, Nat.add_assoc, Nat.add_comm 1]

theorem mem_hexDigits {k n : Nat} {cs : List Char} {c : Char} (h : c ∈ hexDigits k n cs) :
    c ∈ cs ∨ ∃ d < 16, c = Nat.digitChar d := by
  induction k generalizing n cs with
  | zero => exact .inl h
  | succ k ih =>
    rcases ih h with h | h
    · rcases List.mem_cons.1 h with rfl | h
      · exact .inr ⟨n % 16, Nat.mod_lt n (by decide), rfl⟩
      · exact .inl h
    · exact .inr h

def hexName (n : Nat) : String := String.ofList (hexDigits 40 n [])

theorem nameRe_hexName (n : Nat) : nameRe (hexName n) = true := by
  have hdigit : ∀ d < 16, (('0' ≤ Nat.digitChar d && Nat.digitChar d ≤ '9') ||
      ('a' ≤ Nat.digitChar d && Nat.digitChar d ≤ 'f')) = true := by decide
  rw [nameRe, hexName, String.toList_ofList, Bool.and_eq_true, List.all_eq_true]
  refine ⟨by simp [length_hexDigits], fun c hc => ?_⟩
  obtain h | ⟨d, hd, rfl⟩ := mem_hexDigits hc
  · cases h
  · exact hdigit d hd

/-- SHA-1 on them. -/
def digest (content : Bytes) : String := hexName ((Dict.get? table content).getD 0)

def filesOf (rows : List (Bytes × Nat)) (dev : Nat) : Dict String SourceFile :=
  rows.map fun row => (hexName row.2, ⟨dev, 1, row.1⟩)

theorem good_filesOf {rows : List (Bytes × Nat)} (hrows : ∀ row ∈ rows, row ∈ table) {dev : Nat}
    {p : String × SourceFile} (hp : p ∈ filesOf rows dev) : GoodUnit digest p := by
  have htable : ∀ row ∈ table, Dict.get? table row.1 = some row.2 ∧ row.1.length ≤ maxUnitBytes := by
    decide
  obtain ⟨row, hrow, rfl⟩ := List.mem_map.1 hp
  obtain ⟨hget, hsize⟩ := htable row (hrows row hrow)
  refine ⟨nameRe_hexName _, ?_, hsize⟩
  rw [digest, hget, Option.getD_some]

def common : Dict String SourceFile := filesOf (table.take 23) 1

def privateUnits : Dict String SourceFile := filesOf (table.drop 23) 2

def entries : Path → Option (Dict String SourceFile)
  | ["dest"] => some []
  | ["common"] => some common
  | ["private"] => some privateUnits
  | _ => none

theorem keys_nodup : common.keys.Nodup ∧ privateUnits.keys.Nodup := by
  decide +kernel

def tree : Tree where
  dirs := entries
  names_nodup {d es} h := by
    unfold entries at h
    split at h <;> cases h
    · exact List.nodup_nil
    · exact keys_nodup.1
    · exact keys_nodup.2
  flat {d es n f} h _ := by
    unfold entries at h
    split at h <;> cases h <;> rfl

/-- The second unit of the bucket of two. -/
def unit : String := hexName 0xb858cb282617fb0956d960215c8e84d1ccf909c6

theorem rotates : tree.prefixCount [["private"]] = 2 ∧
    tree.windows ["common"] [["private"]] (prefixOf unit) = 2 ∧
    unit ∈ tree.names [["private"]] ∧ unit ∉ tree.names [["common"]] := by
  decide +kernel

theorem good_units {d : Path} {rows : List (Bytes × Nat)} {dev : Nat}
    (hd : tree.dirs d = some (filesOf rows dev)) (hrows : ∀ row ∈ rows, row ∈ table) :
    ∀ u ∈ tree.units [d], GoodUnit digest u.2 := by
  intro u hu
  obtain ⟨hmem, es, hes, hunit⟩ := Tree.mem_units.1 hu
  rw [List.mem_singleton.1 hmem, hd] at hes
  cases hes
  exact good_filesOf hrows hunit

theorem validCommon : ValidCommon digest tree ["common"] where
  dir := ⟨_, rfl⟩
  good := good_units rfl fun _ hrow => List.mem_of_mem_take hrow
  some_unit := by decide
  room := by decide

theorem validSources : ValidSources digest tree [["private"]] where
  few := by decide
  dirs := by rintro d (_ | ⟨_, ⟨⟩⟩); exact ⟨_, rfl⟩
  good := good_units rfl fun _ hrow => List.mem_of_mem_drop hrow
  capped := capped_of_bucket (by decide) (by decide)

end TwoWindows

/-- The sources of `TwoWindows` rotate in a wave of 40 shards. -/
theorem rotation_twoWindows :
    TwoWindows.tree.prefixCount [["private"]] = 2 ∧
    TwoWindows.tree.windows ["common"] [["private"]] (prefixOf TwoWindows.unit) = 2 ∧
    ∃! o, (0 ≤ o ∧ o < 0 + TwoWindows.tree.prefixCount [["private"]] *
        TwoWindows.tree.windows ["common"] [["private"]] (prefixOf TwoWindows.unit)) ∧
      Selects TwoWindows.tree TwoWindows.digest ["dest"] ["common"] [["private"]] 40
        TwoWindows.unit o := by
  obtain ⟨hprefixes, hwindows, hmem, hnot⟩ := TwoWindows.rotates
  have hne : TwoWindows.tree.prefixes [["private"]] ≠ [] :=
    List.ne_nil_of_mem (Tree.mem_prefixes.2 ⟨_, hmem, rfl⟩)
  exact ⟨hprefixes, hwindows, (rotation_exactly_once rfl TwoWindows.validCommon
    TwoWindows.validSources hne (N := 40) (by decide) (by decide)).1 _ hmem hnot 0⟩

end MpcHunt.MaterializeWindow
