import SourceBundle.Regex.Parser
/-!
# Globs

A glob is written out as a regular expression. `*` and `?` stay within a name, `**` within a line,
and `**/` at the start of a name stands for any number of folders. The text of a bracket is copied,
with `!` for `^` in front, so it is read by the rules of bracket expressions.
-/
namespace SourceBundle.Ignore.Glob

open Text

/-- Bytes that need a backslash to stand for themselves. -/
def isSpecial (b : UInt8) : Bool := (".+()^$|\x7b\x7d]" : Text).contains b

/-- A byte that stands for itself. -/
def plain (b : UInt8) : Text := if isSpecial b then [backslash, b] else [b]

/-- A byte that a backslash made ordinary. -/
def escaped (b : UInt8) : Text := if isAlphanumeric b then [b] else [backslash, b]

/-- The text of a bracket, complemented by `!` as by `^`. -/
def bracketText : Text → Text
  | bang :: s => caret :: s
  | s => s

theorem length_afterBracket_lt (s : Text) :
    ((s.dropWhile (· != closeBracket)).drop 1).length < s.length + 1 := by
  have := (List.dropWhile_sublist (l := s) (· != closeBracket)).length_le
  rw [List.length_drop]
  omega

/-- The expression a glob stands for, written out. `atStart` says whether a name starts here. A
lone backslash at the end stands for nothing, and a bracket that is not closed for itself. -/
def written (atStart : Bool) : Text → Text
  | [] => []
  | asterisk :: asterisk :: slash :: s =>
    if atStart then Regex.leadingFoldersText ++ written true s
    else ".*/" ++ written true s
  | asterisk :: asterisk :: s => ".*" ++ written false s
  | asterisk :: s => "[^/]*" ++ written false s
  | question :: s => "[^/]" ++ written false s
  | [backslash] => []
  | backslash :: b :: s => escaped b ++ written (b == slash) s
  | openBracket :: s =>
    if s.contains closeBracket then
      openBracket :: bracketText (s.takeWhile (· != closeBracket)) ++
        closeBracket :: written false ((s.dropWhile (· != closeBracket)).drop 1)
    else backslash :: openBracket :: written false s
  | b :: s => plain b ++ written (b == slash) s
termination_by s => s.length
decreasing_by
  all_goals have := length_afterBracket_lt s
  all_goals simp only [List.length_cons]
  all_goals omega

/-- The expression a glob stands for; nothing when one of its brackets cannot be read. -/
def compile? (glob : Text) : Option Regex := Regex.parse? (written true glob)

end SourceBundle.Ignore.Glob
