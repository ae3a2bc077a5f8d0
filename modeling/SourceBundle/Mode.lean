import SourceBundle.Minified.Basic
import SourceBundle.Skeleton.Basic
/-!
# Content modes

How much of a file goes into a bundle: all of it, its minified text, or its skeleton.
-/
namespace SourceBundle

inductive Mode where
  | full
  | minified
  | skeleton
  deriving DecidableEq, Repr

namespace Mode

/-- The names a mode may be asked for by. -/
def names : List (Text × Mode) :=
  [("full", full), ("min", minified), ("minified", minified), ("skeleton", skeleton),
    ("strip", skeleton)]

def ofName? (name : Text) : Option Mode := names.lookup name

/-- The name a mode is shown by. -/
def name : Mode → Text
  | full => "full"
  | minified => "min"
  | skeleton => "skeleton"

/-- What is said of a name that no mode has. -/
def unknown (name : Text) : Text := "unknown mode \x27" ++ name ++ "\x27"

theorem ofName?_name (m : Mode) : ofName? m.name = some m := by
  cases m <;> decide

/-- The content as the mode shows it. -/
def transform : Mode → Text → Text
  | full, s => s
  | minified, s => Minified.minify s
  | skeleton, s => Skeleton.skeletonize s

/-- The title over the files of a folder. -/
def folderTitle : Mode → Text
  | full => "File Contents:\n"
  | minified => "File Contents (Minified):\n"
  | skeleton => "Stripped Methods (Logic Removed):\n"

/-- The title over files given one by one. -/
def listTitle : Mode → Text
  | full => "Open Files Contents:\n"
  | minified => "Open Files Contents (Minified):\n"
  | skeleton => "Open Files Methods (Logic Removed):\n"

/-- What a closing message says of the mode, with the blank after it. -/
def label : Mode → Text
  | full => ""
  | minified => "(minified) "
  | skeleton => "(logic stripped) "

end Mode
end SourceBundle
