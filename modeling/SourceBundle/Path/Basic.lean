import SourceBundle.Text.Basic
/-!
# Paths

A path is a text cut at its slashes: whether it starts at the root, and the names below. A slash at
the end leaves an empty last name, and slashes in front count as one, also where nothing else is
there. Nothing here looks at a file system.
-/
namespace SourceBundle

structure Path where
  rooted : Bool
  names : List Text
  deriving DecidableEq, Repr

namespace Path

open Text

def here : Text := "."

def up : Text := ".."

/-! ## Reading and writing -/

/-- The names between slashes. Repeated slashes count once; one at the end gives an empty name. -/
def namesOf (s : Text) : List Text :=
  match s.dropWhile (· == slash) with
  | [] => []
  | r =>
    (splitOn slash r).filter (!·.isEmpty) ++ if r.getLast? = some slash then [[]] else []

def ofText (s : Text) : Path := ⟨s.head? == some slash, namesOf s⟩

def toText (p : Path) : Text := (if p.rooted then [slash] else []) ++ [slash].intercalate p.names

/-- One text after another as paths: the second alone when it starts at the root. -/
def join (a b : Text) : Text :=
  if b.head? == some slash then b
  else if a.isEmpty || a.getLast? == some slash then a ++ b
  else a ++ slash :: b

/-! ## The last name -/

/-- The name after the last slash. -/
def fileName (p : Path) : Text := p.names.getLast?.getD []

/-- The end of a name from its last dot on. A dot in front starts no extension. -/
def extensionOf (name : Text) : Text :=
  let stem := dropEndWhile (· != dot) name
  if stem.length ≤ 1 || name == up then [] else name.drop (stem.length - 1)

def extension (p : Path) : Text := extensionOf p.fileName

/-! ## The path above -/

/-- Whether something is above the path. A path that is only a root is above itself. -/
def hasParent (p : Path) : Bool :=
  if p.names = [] then p.rooted else p.rooted || 1 < p.names.length

/-- The path above, without the last name. -/
def parent (p : Path) : Path := { p with names := p.names.dropLast }

/-- The root that a path starts at, if it does. -/
def rootPath (p : Path) : Path := { p with names := [] }

@[simp] theorem parent_mk (rooted : Bool) (names : List Text) :
    parent ⟨rooted, names⟩ = ⟨rooted, names.dropLast⟩ := rfl

@[simp] theorem rootPath_mk (rooted : Bool) (names : List Text) :
    rootPath ⟨rooted, names⟩ = ⟨rooted, []⟩ := rfl

@[simp] theorem hasParent_rooted (names : List Text) : hasParent ⟨true, names⟩ = true := by
  simp [hasParent]

theorem length_names_parent_lt {p : Path} (h : p.parent ≠ p) :
    p.parent.names.length < p.names.length := by
  obtain ⟨rooted, names⟩ := p
  cases names with
  | nil => exact absurd rfl h
  | cons name names => simp

/-! ## A slash at the end -/

def hasTrailing (p : Path) : Bool := p.names.getLast? == some []

def dropTrailing (p : Path) : Path :=
  if p.hasTrailing then { p with names := p.names.dropLast } else p

end Path
end SourceBundle
