/-
The trees of the brain: what each path of a commit holds, as `git ls-tree`
shows it, and the working tree the scripts stage their files in. A script
never overwrites: what it writes is new, and no file is in the way of it.
-/
import MpcHunt.Window.PoolGate
import MpcHunt.Lib.Checks
import MpcHunt.Lib.Digits

namespace MpcHunt.Brain

open Checks Digits MaterializeWindow

/-! ## Trees -/

/-- What a path holds: modes 100644, 100755, 120000 and 160000. An object stands for its id. -/
inductive Entry where
  | file (content : Bytes)
  | executable (content : Bytes)
  | symlink (target : Bytes)
  | submodule (commit : Bytes)
deriving DecidableEq, Repr

inductive Oid where
  | blob (content : Bytes)
  | commit (id : Bytes)
deriving DecidableEq, Repr

def Entry.oid : Entry → Oid
  | .file content | .executable content | .symlink content => .blob content
  | .submodule commit => .commit commit

/-- A tree names each path once. -/
structure Tree where
  files : Dict Str Entry
  nodup : files.keys.Nodup
deriving DecidableEq

namespace Tree

def get? (t : Tree) (path : Str) : Option Entry := t.files.get? path

/-- The tree with a regular file. -/
def put (t : Tree) (path : Str) (content : Bytes) : Tree :=
  ⟨t.files.set path (.file content), Dict.nodup_keys_set t.nodup path _⟩

/-! ## The working tree -/

/-- `[[ -e path ]]`: an entry, or a directory of some. -/
def occupied (t : Tree) (path : Str) : Bool :=
  t.files.any fun p => p.1 = path || (path ++ text "/").isPrefixOf p.1

/-- `[[ -f path && ! -L path ]]`, and `cmp` with this content. -/
def holds (t : Tree) (path : Str) (content : Bytes) : Bool :=
  match t.get? path with
  | some (.file c) | some (.executable c) => c = content
  | _ => false

/-- `mkdir -p`, refused where something else is in the way. -/
def makeDirectory (t : Tree) (dir : Str) : Except Nat Unit :=
  refuse (t.files.any fun p => (p.1 ++ text "/").isPrefixOf (dir ++ text "/")) 1

/-- `dirname`. -/
def dirname (path : Str) : Str := ((path.reverse.dropWhile (· ≠ 47)).drop 1).reverse

/-- `${path##*/}`. -/
def basename (path : Str) : Str := (path.reverse.takeWhile (· ≠ 47)).reverse

/-- A file that must be new: `[[ ! -e path ]]`, `mkdir -p "$(dirname path)"`, `cp`, `git add`, which
stores its bytes as they are. -/
def write (t : Tree) (path : Str) (content : Bytes) : Except Nat Tree := do
  refuse (t.occupied path) 1
  t.makeDirectory (dirname path)
  return t.put path content

/-! ## A checkout, as the capacity gate scans it -/

/-- A path of the file system, as a tree names it. -/
def nameOf (path : Path) : Str := [47].intercalate (path.map text)

/-- The names in a directory. -/
def children (t : Tree) (dir : Str) : List Str :=
  (t.files.filterMap fun p =>
    if (dir ++ text "/").isPrefixOf p.1 then some ((p.1.drop (dir.length + 1)).takeWhile (· ≠ 47))
    else none).dedup

def checkout (t : Tree) : World := fun path =>
  match t.get? (nameOf path) with
  | some (.file content) | some (.executable content) => some (.file ⟨0, 0, content⟩)
  | some (.symlink _) => some .symlink
  | some (.submodule _) => some (.directory [])
  | none =>
    let names := t.children (nameOf path)
    if names = [] then none
    else some (.directory (names.map fun name => .ofList (name.map Char.ofNat)))

/-! ## Names -/

theorem basename_append (dir : Str) {name : Str} (h : 47 ∉ name) :
    basename (dir ++ text "/" ++ name) = name := by
  have hslash : text "/" = [47] := rfl
  have hname : ∀ c ∈ name.reverse, decide (c ≠ 47) = true := by
    intro c hc
    refine decide_eq_true fun heq => h ?_
    rw [← heq]
    exact List.mem_reverse.1 hc
  rw [basename, hslash, List.reverse_append, List.takeWhile_append_of_pos hname]
  simp

/-- A path is in its directory. -/
theorem dirname_prefix {path : Str} (h : 47 ∈ path) : dirname path ++ text "/" <+: path := by
  have hslash : text "/" = [47] := rfl
  have hsplit : path.reverse = path.reverse.takeWhile (fun c => decide (c ≠ 47)) ++
      path.reverse.dropWhile fun c => decide (c ≠ 47) := (List.takeWhile_append_dropWhile).symm
  cases hdrop : path.reverse.dropWhile fun c => decide (c ≠ 47) with
  | nil =>
    rw [hdrop, List.append_nil] at hsplit
    have hall := List.mem_takeWhile_imp (hsplit ▸ List.mem_reverse.2 h)
    simp at hall
  | cons c rest =>
    have hc : c = 47 := by
      have := List.head?_dropWhile_not (fun c => decide (c ≠ 47)) path.reverse
      rw [hdrop] at this
      simpa using this
    subst hc
    have hpath : path = rest.reverse ++ [47] ++
        (path.reverse.takeWhile fun c => decide (c ≠ 47)).reverse := by
      rw [hdrop] at hsplit
      simpa using congrArg List.reverse hsplit
    have hdir : dirname path = rest.reverse := by
      rw [dirname, hdrop]
      rfl
    rw [hdir, hslash]
    exact ⟨_, hpath.symm⟩

/-! ## What a step of staging keeps -/

theorem get?_of_mem {t : Tree} {path : Str} {e : Entry} (h : (path, e) ∈ t.files) :
    t.get? path = some e := Dict.get?_of_mem t.nodup h

theorem mem_files_iff {t : Tree} {path : Str} {e : Entry} :
    (path, e) ∈ t.files ↔ t.get? path = some e :=
  ⟨get?_of_mem, Dict.mem_of_get?⟩

/-- Every path of the first tree holds the same in the second. -/
def Extends (t t' : Tree) : Prop := ∀ path e, t.get? path = some e → t'.get? path = some e

theorem Extends.refl (t : Tree) : t.Extends t := fun _ _ h => h

theorem Extends.trans {t t' t'' : Tree} (h : t.Extends t') (h' : t'.Extends t'') : t.Extends t'' :=
  fun path e he => h' path e (h path e he)

section
variable {t t' : Tree} {new : Dict Str Entry} (h : t'.files = t.files ++ new)
include h

/-- A tree with files after those of another extends it. -/
theorem extends_of_append : t.Extends t' := fun _ _ he =>
  get?_of_mem (h ▸ List.mem_append_left new (mem_files_iff.2 he))

theorem get?_of_append {path : Str} {e : Entry} :
    t'.get? path = some e ↔ t.get? path = some e ∨ (path, e) ∈ new := by
  rw [← mem_files_iff, h, List.mem_append, mem_files_iff]

/-- The files that come after are new. -/
theorem fresh_of_append {path : Str} {e : Entry} (hmem : (path, e) ∈ new) : t.get? path = none := by
  have hnodup := t'.nodup
  rw [h, Dict.keys_append] at hnodup
  cases hpath : t.get? path with
  | none => rfl
  | some e' =>
    have hkey : path ∈ t.files.keys := List.mem_map_of_mem (mem_files_iff.2 hpath)
    exact absurd (List.mem_map_of_mem hmem) (List.disjoint_of_nodup_append hnodup hkey)

end

theorem get?_of_occupied {t : Tree} {path : Str} (h : t.occupied path = false) :
    t.get? path = none := by
  cases hpath : t.get? path with
  | none => rfl
  | some e =>
    have hfree := List.any_eq_false.1 h _ (Dict.mem_of_get? hpath)
    simp at hfree

theorem holds_iff {t : Tree} {path : Str} {content : Bytes} : t.holds path content = true ↔
    t.get? path = some (.file content) ∨ t.get? path = some (.executable content) := by
  unfold holds
  cases t.get? path with
  | none => simp
  | some e => cases e <;> simp

theorem files_put {t : Tree} {path : Str} {content : Bytes} (h : t.get? path = none) :
    (t.put path content).files = t.files ++ [(path, .file content)] := by
  refine Dict.set_of_not_mem (fun hmem => ?_) _
  obtain ⟨e, he⟩ := (Dict.mem_keys_iff _ _).1 hmem
  rw [get?, he] at h
  cases h

/-- What is written comes after the files that are there. -/
theorem files_write {t t' : Tree} {path : Str} {content : Bytes}
    (h : t.write path content = .ok t') : t'.files = t.files ++ [(path, .file content)] := by
  unfold write at h
  simp only [bind_eq_ok, refuse_eq_ok, exists_const, Bool.not_eq_true] at h
  obtain ⟨hfree, _, -, h⟩ := h
  obtain rfl := Except.ok.inj h
  exact files_put (get?_of_occupied hfree)

end Tree

end MpcHunt.Brain
