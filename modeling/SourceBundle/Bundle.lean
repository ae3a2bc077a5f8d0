import SourceBundle.Mode
/-!
# Bundles

A bundle is a title and then one block per file, in the order of the files. The bundle of a folder
opens with a drawing of the folder.
-/
namespace SourceBundle.Bundle

open Text

/-- A file to go into a bundle: the path it is shown by, and its whole text. -/
structure Source where
  path : Text
  content : Text
  deriving DecidableEq, Repr

/-- A block of text under a path. Paths are shown with slashes. -/
def block (path content : Text) : Text :=
  "----------------------\n/" ++ replace backslash slash path ++
    "\n-----------------------\n" ++ content ++ "\n-----------------------\n\n"

def blocks (mode : Mode) (files : List Source) : Text :=
  files.flatMap fun f => block f.path (mode.transform f.content)

/-- The bundle of files given one by one. -/
def ofList (mode : Mode) (files : List Source) : Text := mode.listTitle ++ blocks mode files

/-- The bundle of a folder: its name, its drawing and its files. -/
def ofFolder (mode : Mode) (name drawing : Text) (files : List Source) : Text :=
  name ++ " Folder Structure:\n" ++ drawing ++ "\n" ++ mode.folderTitle ++ blocks mode files

end SourceBundle.Bundle
