import SourceBundle.FileTree.Storage
/-!
# Building a tree

Files, folders and links set down one after another, with the folders above them.
-/
namespace SourceBundle.FileSystem

open Text

/-- Something to set down at a path. -/
structure Item where
  path : Text
  entry : Entry

/-- Under a free name, an entry; elsewhere no change. -/
def addAt (fs : FileSystem) (path : Text) (e : Entry) : FileSystem :=
  match fs.resolve path with
  | .ok (.vacant names) => { fs with root := fs.root.putAt e names }
  | _ => fs

/-- The beginnings of a list, shortest first, without the empty one. -/
def beginnings (names : List Text) : List (List Text) :=
  (List.range names.length).map fun n => names.take (n + 1)

/-- The file system with a folder at the path and at every path above it. -/
def addFolders (fs : FileSystem) (p : Path) : FileSystem :=
  (beginnings p.names).foldl
    (fun fs names => fs.addAt (Path.toText { p with names }) (.folder .empty)) fs

def add (fs : FileSystem) (i : Item) : FileSystem :=
  let p := Path.ofText i.path
  match i.entry with
  | .folder _ => fs.addFolders p
  | .link _ => (fs.addFolders { p with names := p.names.dropLast }).addAt i.path i.entry
  | .file content =>
    let fs := fs.addFolders { p with names := p.names.dropLast }
    match fs.target? i.path with
    | some names => fs.store names content
    | none => fs

/-- The names of a file that is always full: it can be opened, and takes nothing. -/
def fullNames : List Text := ["dev", "full"]

/-- A file system with one folder below its root, which is the working folder, a file that is always
full, and the items in the working folder. -/
def ofItems (name : Text) (items : List Item) : FileSystem :=
  (⟨Path.toText ⟨true, fullNames⟩, .file []⟩ :: items).foldl add
    ⟨.folder name .empty .empty, [name]⟩

/-- The storage of a file system that is built here. -/
instance : Storage := .exceptAt [fullNames]

end SourceBundle.FileSystem
