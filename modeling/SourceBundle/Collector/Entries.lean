import SourceBundle.Config.Basic
import SourceBundle.FileTree.System
import SourceBundle.Ignore.Rules
import SourceBundle.Path.Normal
/-!
# Visible entries

What a collector sees of one folder: every entry that is neither metadata nor ignored, in the order
of names. Each is judged by its path from the top folder, and a link as what it leads to.
-/
namespace SourceBundle

/-! ## Listings -/

/-- An entry as it is listed: its path behind that of the folder, and what stands there. -/
structure Listed where
  path : Text
  entry : Entry
  deriving DecidableEq, Repr

namespace Listed

/-- The name that an entry is sorted and shown by. -/
def name (e : Listed) : Text := (Path.ofText e.path).fileName

def isLink (e : Listed) : Bool :=
  match e.entry with
  | .link _ => true
  | _ => false

/-- The entries of a folder; anything else has none. -/
def inside (e : Listed) : Folder :=
  match e.entry with
  | .folder inside => inside
  | _ => .empty

/-- Some entries with one more, before the first of a greater name. -/
def insert (e : Listed) : List Listed → List Listed
  | [] => [e]
  | d :: rest => if Text.isBefore e.name d.name then e :: d :: rest else d :: insert e rest

/-- Entries in the order of their names. -/
def sort (es : List Listed) : List Listed := es.foldr insert []

theorem mem_insert {d e : Listed} {es : List Listed} : d ∈ insert e es ↔ d = e ∨ d ∈ es := by
  induction es with
  | nil => exact List.mem_cons
  | cons first rest ih =>
    rw [insert]
    split
    · exact List.mem_cons
    · rw [List.mem_cons, List.mem_cons, ih, or_left_comm]

theorem mem_sort {d : Listed} {es : List Listed} : d ∈ sort es ↔ d ∈ es := by
  induction es with
  | nil => exact Iff.rfl
  | cons e es ih => rw [sort, List.foldr_cons, mem_insert, List.mem_cons, ← sort, ih]

end Listed

namespace Folder

/-- The entries of the folder at a path, in no order of their own. -/
def listing (dir : Text) : Folder → List Listed
  | empty => []
  | file name content rest => ⟨Path.join dir name, .file content⟩ :: rest.listing dir
  | link name target rest => ⟨Path.join dir name, .link target⟩ :: rest.listing dir
  | folder name inside rest => ⟨Path.join dir name, .folder inside⟩ :: rest.listing dir

theorem listing_cons (dir name : Text) (e : Entry) (rest : Folder) :
    (cons name e rest).listing dir = ⟨Path.join dir name, e⟩ :: rest.listing dir := by
  cases e <;> rfl

/-- How many entries there are in a folder and in the folders in it. -/
def count : Folder → Nat
  | empty => 0
  | file _ _ rest | link _ _ rest => rest.count + 1
  | folder _ inside rest => inside.count + rest.count + 1

theorem count_inside_lt {dir : Text} {f : Folder} {e : Listed} (h : e ∈ f.listing dir) :
    e.inside.count < f.count := by
  induction f with
  | empty => cases h
  | file _ _ rest ih | link _ _ rest ih =>
    rcases List.mem_cons.1 h with rfl | h
    · exact Nat.succ_pos rest.count
    · exact Nat.lt_succ_of_lt (ih h)
  | folder _ inside rest _ ih =>
    rcases List.mem_cons.1 h with rfl | h
    · exact Nat.lt_succ_of_le (Nat.le_add_right inside.count rest.count)
    · have := ih h
      rw [count]
      omega

end Folder

/-! ## Collectors -/

structure Collector where
  fs : FileSystem
  /-- The top folder, in normal form and without a slash at its end. -/
  root : Text
  config : Config
  rules : Ignore.Rules

namespace Collector

/-- The normal form of a top folder. One that is slashes and nothing else stays as it is spelled. -/
def rootOf (path : Text) : Text :=
  if path.all (· == Text.slash) then path else (Path.ofText path).normal.dropTrailing.toText

def metadataFiles : List Text := [".gitignore", ".scignore", ".DS_Store", ".smart_context.json"]

def metadataFolders : List Text := [".git", ".smart_context"]

/-- Metadata of tools, by its own name or that of a folder it is in. -/
def isMetadata (p : Path) : Bool :=
  metadataFiles.contains p.fileName || p.names.any metadataFolders.contains

variable (c : Collector)

/-- A path as it is seen from the top folder; the empty one when names alone do not say. -/
def relativeOf (path : Text) : Path :=
  ((Path.ofText path).relativeTo? (Path.ofText c.root)).getD ⟨false, []⟩

/-- What an entry is once links are followed. -/
def statusOf (e : Listed) : Option Entry :=
  match e.entry with
  | .link _ => (c.fs.find e.path).toOption
  | entry => some entry

def isDirectory (e : Listed) : Bool :=
  match c.statusOf e with
  | some (.folder _) => true
  | _ => false

/-- The size of a regular file. -/
def fileSize? (e : Listed) : Option Nat :=
  match c.statusOf e with
  | some (.file content) => some content.length
  | _ => none

def isVisible (e : Listed) : Bool :=
  !isMetadata (c.relativeOf e.path) &&
    !c.rules.ignores (c.relativeOf e.path).toText (c.isDirectory e)

/-- The entries in sight of the folder at a path. -/
def visibleEntries (dir : Text) (f : Folder) : List Listed :=
  Listed.sort ((f.listing dir).filter c.isVisible)

theorem count_inside_lt_of_mem {c : Collector} {dir : Text} {f : Folder} {e : Listed}
    (h : e ∈ c.visibleEntries dir f) : e.inside.count < f.count :=
  Folder.count_inside_lt (List.mem_filter.1 (Listed.mem_sort.1 h)).1

/-- The top folder, when it can be read. -/
def top : Except FileSystem.Refusal Folder :=
  match c.fs.find c.root with
  | .ok (.folder inside) => .ok inside
  | .ok _ => .error .notFolder
  | .error r => .error r

end Collector
end SourceBundle
