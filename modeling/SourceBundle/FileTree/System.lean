import SourceBundle.FileTree.Basic
import SourceBundle.Path.Basic
/-!
# File systems

A file system is a root folder and a working folder. A path is resolved name by name: links are
followed, `..` leaves the folder it stands in, and only so many links may be met on one way.

Of the limits that a system sets, two are here: on the bytes of a name and on the links of one way.
None is set on the bytes of a whole path, on the size of a file or on how many entries there are.
Nobody else changes the tree, all of it may be read, and every folder may be listed; which files may
be written, and how much they take, is left to `Storage`.
-/
namespace SourceBundle

structure FileSystem where
  root : Folder
  /-- The names that lead from the root to the working folder. -/
  working : List Text
  deriving DecidableEq, Repr

namespace FileSystem

open Text

/-- Why a path leads nowhere. -/
inductive Refusal where
  | missing
  | notFolder
  | linkLoop
  | nameTooLong
  deriving DecidableEq, Repr

def Refusal.reason : Refusal → Text
  | missing => "No such file or directory"
  | notFolder => "Not a directory"
  | linkLoop => "Too many levels of symbolic links"
  | nameTooLong => "File name too long"

/-- Where a path leads: to a file or folder, or to a free name in a folder. -/
inductive Place where
  | file (names : List Text) (content : Text)
  | folder (names : List Text) (inside : Folder)
  | vacant (names : List Text)
  deriving DecidableEq, Repr

/-! ## Resolving a path -/

/-- How far the names of a path lead without following a link. -/
inductive Walk where
  | arrived (p : Place)
  /-- A link with this target stands in the folder, and some names are left. -/
  | atLink (folder : List Text) (target : Text) (rest : List Text)
  | refused (r : Refusal)

/-- The most bytes of a name. -/
def nameLimit : Nat := 255

/-- Follows names from a folder up to the first link. -/
def walk (root : Folder) (folder : List Text) : List Text → Walk
  | [] =>
    match root.at? folder with
    | some inside => .arrived (.folder folder inside)
    | none => .refused .missing
  | name :: rest =>
    if name = [] || name = Path.here then walk root folder rest
    else if name = Path.up then walk root folder.dropLast rest
    else if nameLimit < name.length then .refused .nameTooLong
    else
      match (root.at? folder).bind (·.get? name) with
      | none => if rest = [] then .arrived (.vacant (folder ++ [name])) else .refused .missing
      | some (.folder _) => walk root (folder ++ [name]) rest
      | some (.file content) =>
        if rest = [] then .arrived (.file (folder ++ [name]) content) else .refused .notFolder
      | some (.link target) => .atLink folder target rest

/-- The folder a path starts from. -/
def startOf (folder : List Text) (path : Text) : List Text :=
  if path.head? = some slash then [] else folder

/-- Follows names from a folder through at most `links` links. -/
def follow (root : Folder) : Nat → List Text → List Text → Except Refusal Place
  | links, folder, names =>
    match walk root folder names with
    | .arrived p => .ok p
    | .refused r => .error r
    | .atLink folder target rest =>
      match links with
      | 0 => .error .linkLoop
      | links + 1 => follow root links (startOf folder target) (splitOn slash target ++ rest)

/-- The most links that one path may lead through. -/
def linkLimit : Nat := 40

def resolve (fs : FileSystem) (path : Text) : Except Refusal Place :=
  if path = [] then .error .missing
  else follow fs.root linkLimit (startOf fs.working path) (splitOn slash path)

/-! ## Questions about a path -/

/-- What a path leads to, when there is something. -/
def find (fs : FileSystem) (path : Text) : Except Refusal Entry :=
  match fs.resolve path with
  | .ok (.file _ content) => .ok (.file content)
  | .ok (.folder _ inside) => .ok (.folder inside)
  | .ok (.vacant _) => .error .missing
  | .error r => .error r

def isFolder (fs : FileSystem) (path : Text) : Bool :=
  match fs.find path with
  | .ok (.folder _) => true
  | _ => false

/-- The content of a file. A folder reads as an empty one. -/
def read? (fs : FileSystem) (path : Text) : Option Text :=
  match fs.find path with
  | .ok (.file content) => some content
  | .ok _ => some []
  | .error _ => none

/-- The content of a regular file. -/
def contentOf? (fs : FileSystem) (path : Text) : Option Text :=
  match fs.find path with
  | .ok (.file content) => some content
  | _ => none

/-! ## Writing -/

/-- The names of the file that opening a path for writing leads to, an old one or a new one. -/
def target? (fs : FileSystem) (path : Text) : Option (List Text) :=
  match fs.resolve path with
  | .ok (.file names _) | .ok (.vacant names) => some names
  | _ => none

/-- The file system with a text in the file that some names lead to. -/
def store (fs : FileSystem) (names : List Text) (content : Text) : FileSystem :=
  { fs with root := fs.root.putAt (.file content) names }

end FileSystem
end SourceBundle
