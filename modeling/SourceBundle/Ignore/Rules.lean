import SourceBundle.Ignore.Pattern
/-!
# Ignore rules

A list of patterns. Of the patterns that hit a path the last one decides.
-/
namespace SourceBundle.Ignore

open Text

/-! ## Paths -/

/-- Less every `./` in front. -/
def dropDots : Text → Text
  | dot :: slash :: s => dropDots s
  | s => s

/-- A path as patterns see it: slashes for backslashes, no `./` in front, no slash at the end. -/
def normalize (path : Text) : Text :=
  dropEndWhile (· == slash) (dropDots (replace backslash slash path))

/-! ## Rules -/

abbrev Rules := List Pattern

namespace Rules

/-- The rules after one more line. -/
def addLine (rules : Rules) (line : Text) : Rules :=
  match Pattern.ofLine? line with
  | some p => rules ++ [p]
  | none => rules

/-- The rules after the lines of one more text. -/
def add (rules : Rules) (text : Text) : Rules := (lines text).foldl addLine rules

/-- The patterns of some lines, in order. -/
def ofLines (ls : List Text) : Rules := ls.filterMap Pattern.ofLine?

/-- The patterns of an ignore file. -/
def ofText (text : Text) : Rules := ofLines (lines text)

/-- Whether the last pattern that hits, if any does, is not a negated one. -/
def verdict (rules : Rules) (path : Text) (isFolder : Bool) : Bool :=
  rules.foldl (fun ignored p => if p.hits path isFolder then !p.negated else ignored) false

/-- Whether a path below the top folder is ignored. The top folder itself never is. -/
def ignores (rules : Rules) (path : Text) (isFolder : Bool) : Bool :=
  normalize path != [] && rules.verdict (normalize path) isFolder

end Rules
end SourceBundle.Ignore
