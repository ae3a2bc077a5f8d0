import SourceBundle.Ignore.Glob
/-!
# Patterns of an ignore file

One line of an ignore file, read and compiled. A pattern hits a path when it matches the path or a
folder the path is in.
-/
namespace SourceBundle.Ignore

open Text

/-! ## Reading a line -/

/-- What a pattern line says. -/
structure Spec where
  /-- The line without the blanks at its end. -/
  source : Text
  glob : Text
  /-- Matched from the top folder only. -/
  anchored : Bool
  /-- Takes back what an earlier pattern ignored. -/
  negated : Bool
  /-- Matches folders only. -/
  folderOnly : Bool
  deriving DecidableEq, Repr

/-- Less one slash in front. -/
def dropRoot : Text → Text
  | slash :: s => s
  | s => s

/-- What a line says once its mark of negation or its first backslash is gone. A slash in front or
within anchors it, and one at the end restricts it to folders. -/
def Spec.ofBody? (source : Text) (negated : Bool) (body : Text) : Option Spec :=
  let path := dropEndWhile (· == slash) body
  if dropRoot path = [] then none
  else some {
    source
    glob := dropRoot path
    anchored := path.contains slash
    negated
    folderOnly := body.getLast? == some slash }

/-- What a line says; nothing when it is blank, a comment, or only slashes. -/
def Spec.ofLine? (line : Text) : Option Spec :=
  let source := dropEndWhile (fun b => b == carriageReturn || b == space || b == tab) line
  match source with
  | [] => none
  | hashMark :: _ => none
  | bang :: s => ofBody? source true s
  | backslash :: bang :: s => ofBody? source false (bang :: s)
  | backslash :: hashMark :: s => ofBody? source false (hashMark :: s)
  | s => ofBody? source false s

/-! ## Compiled patterns -/

structure Pattern extends Spec where
  body : Regex
  deriving DecidableEq, Repr

namespace Pattern

def ofSpec? (s : Spec) : Option Pattern := (Glob.compile? s.glob).map fun r => { s with body := r }

/-- The pattern of a line, if it has one that compiles. -/
def ofLine? (line : Text) : Option Pattern := (Spec.ofLine? line).bind ofSpec?

/-- The paths the pattern names. -/
def exact (p : Pattern) : Regex := if p.anchored then p.body else .seq .leadingFolders p.body

/-- The paths below those the pattern names. -/
def descendant (p : Pattern) : Regex := .seq p.exact (.seq (.byte slash) (.many .inLine))

def hits (p : Pattern) (path : Text) (isFolder : Bool) : Bool :=
  p.descendant.isMatch path || (p.exact.isMatch path && (!p.folderOnly || isFolder))

end Pattern

/-- The source of a line whose pattern does not compile. -/
def unusable? (line : Text) : Option Text := do
  let s ← Spec.ofLine? line
  if (Pattern.ofSpec? s).isNone then return s.source else none

end SourceBundle.Ignore
