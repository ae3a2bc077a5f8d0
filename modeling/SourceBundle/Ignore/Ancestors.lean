import SourceBundle.FileTree.System
import SourceBundle.Ignore.Rules
import SourceBundle.Path.Normal
/-!
# Ignore files

The ignore files that count for a folder are its own and those of the folders above it, except the
root. Those further out come first, so that the closest file has the last word.
-/
namespace SourceBundle.Ignore

open Text

/-- The names of ignore files, in the order they are read in one folder. -/
def fileNames : List Text := [".gitignore", ".scignore"]

/-- The working folder's path. -/
def workingPath (fs : FileSystem) : Text := Path.toText ⟨true, fs.working⟩

/-- The path from the root to a folder. The empty path has none. -/
def absolute? (fs : FileSystem) (folder : Text) : Option Path :=
  if folder = [] then none else some (Path.ofText (Path.join (workingPath fs) folder))

/-- Where the climb from a folder starts: at its absolute path, in normal form and without a slash
at its end. -/
def startOf (fs : FileSystem) (folder : Text) : Path :=
  let current := ((absolute? fs folder).getD (Path.ofText folder)).normal
  if current.fileName = [] && current.hasParent then current.parent else current

/-- The path and those above it, closest first. The root is not among them. A path that is its own
parent would be the last one, so the climb ends. -/
def climb (current : Path) : List Path :=
  if current.hasParent && current ≠ current.rootPath then
    current :: if current.parent = current then [] else climb current.parent
  else []
termination_by current.names.length
decreasing_by exact Path.length_names_parent_lt ‹_›

/-- The folders from below the root down to the given one. Which they are is read off the text of
the path. -/
def ancestors (fs : FileSystem) (folder : Text) : List Text :=
  (climb (startOf fs folder)).reverse.map Path.toText

/-- The texts of the ignore files that count for a folder. -/
def textsFor (fs : FileSystem) (folder : Text) : List Text :=
  (ancestors fs folder).flatMap fun dir =>
    fileNames.filterMap fun name => fs.read? (Path.join dir name)

/-- The lines of those files, in order. -/
def linesFor (fs : FileSystem) (folder : Text) : List Text := (textsFor fs folder).flatMap lines

end SourceBundle.Ignore
