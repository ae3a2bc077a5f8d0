import SourceBundle.Line.Declaration
/-!
# Skeletons

A scanner reads a source text line by line and keeps its declarations: type openings and closings,
signatures with empty bodies, documentation, top-level comments, imports and exports. Bodies,
conditionals and top-level logic go. Every text has a skeleton; malformed source degrades.
-/
namespace SourceBundle.Skeleton

open Text

/-! ## The scanner -/

/-- Where the scanner stands: outside all types, or in the body of one. -/
inductive Scope where
  | topLevel
  | typeBlock
  deriving DecidableEq, Repr

/-- What the scanner does with the next line. -/
inductive Activity where
  | classifying
  | inDoc
  /-- In a body with so many braces open. -/
  | skipping (depth : Int)
  deriving DecidableEq, Repr

structure State where
  scope : Scope
  activity : Activity
  deriving DecidableEq, Repr

def State.initial : State := ⟨.topLevel, .classifying⟩

/-- The rule that takes a line. -/
inductive Kind where
  | bodySkip
  | docBody
  | docOpen
  | conditional
  | typeOpen
  | blockClose
  | member
  | function
  | passthrough
  | logic
  deriving DecidableEq, Repr

def Kind.name : Kind → Text
  | bodySkip => "body_skip"
  | docBody => "doc_comment_body"
  | docOpen => "doc_comment_open"
  | conditional => "conditional"
  | typeOpen => "type_open"
  | blockClose => "block_close"
  | member => "member"
  | function => "function"
  | passthrough => "passthrough"
  | logic => "logic"

/-! ## One line -/

/-- The kinds of line in order of precedence, told from the trimmed line alone. -/
def ordinaryKind (scope : Scope) (t : Text) : Kind :=
  if Line.isDocStart t then .docOpen
  else if Line.isConditional t then .conditional
  else if Line.declaresType t then .typeOpen
  else if t = [closeBrace] then .blockClose
  else if scope = .typeBlock then .member
  else if Line.declaresFunction t then .function
  else if Line.isImportOrExport t || Line.isComment t then .passthrough
  else .logic

/-- The first rule that takes the line. A body or a documentation comment takes every line. -/
def classify (s : State) (line : Text) : Kind :=
  match s.activity with
  | .skipping _ => .bodySkip
  | .inDoc => .docBody
  | .classifying => ordinaryKind s.scope (trim line)

/-- The state after a declaration: in its body when the line leaves one open. -/
def State.enterBody (s : State) (t : Text) : State :=
  if Line.leavesBodyOpen t then { s with activity := .skipping 1 } else s

/-- What the rules work on: the state of the scanner and the lines written so far. -/
structure Draft where
  state : State
  out : Array Text

/-- The rule of this kind, run on a line: what it leaves, and whether it says that the line is
written. What it says and what it writes are two things; that they agree is a theorem. -/
def act (k : Kind) (line : Text) (c : Draft) : Draft × Bool :=
  let t := trim line
  match k with
  | .bodySkip =>
    match c.state.activity with
    | .skipping depth =>
      let depth := depth + Line.braceBalance t
      let activity := if depth ≤ 0 then Activity.classifying else .skipping depth
      (⟨{ c.state with activity }, c.out⟩, false)
    | _ => (c, false)
  | .docBody =>
    let state := if Line.isDocEnd t then { c.state with activity := .classifying } else c.state
    (⟨state, c.out.push line⟩, true)
  | .docOpen => (⟨{ c.state with activity := .inDoc }, c.out.push line⟩, true)
  | .conditional => (c, false)
  | .typeOpen => (⟨{ c.state with scope := .typeBlock }, c.out.push (Line.openType t)⟩, true)
  | .blockClose =>
    if c.state.scope ≠ .typeBlock then (c, false)
    else (⟨{ c.state with scope := .topLevel }, c.out.push [closeBrace]⟩, true)
  | .member =>
    if !Line.declaresMember t then (c, false)
    else (⟨c.state.enterBody t, c.out.push ("  " ++ Line.finalize t)⟩, true)
  | .function => (⟨c.state.enterBody t, c.out.push (Line.finalize t)⟩, true)
  | .passthrough => (⟨c.state, c.out.push line⟩, true)
  | .logic => (c, false)

/-! ## A run -/

/-- A row of a report: the number of a line, its kind and whether its rule says it is written. -/
structure Row where
  number : Nat
  kind : Kind
  written : Bool
  deriving DecidableEq, Repr

/-- A run that has got so far: what the rules have left and the report on the lines read. -/
structure Progress where
  draft : Draft
  rows : Array Row

def Progress.start : Progress := ⟨⟨.initial, #[]⟩, #[]⟩

/-- The line with this index is read: the first rule that takes it runs on it. -/
def Progress.read (p : Progress) (line : Text) (index : Nat) : Progress :=
  let kind := classify p.draft.state line
  let (draft, written) := act kind line p.draft
  ⟨draft, p.rows.push ⟨index + 1, kind, written⟩⟩

/-- The run over all lines of a text. -/
def progress (text : Text) : Progress :=
  (lines text).zipIdx.foldl (fun p (line, index) => p.read line index) .start

/-- The report on a text, one row for each line. -/
def rows (text : Text) : List Row := (progress text).rows.toList

/-- Lines written out: blank lines at the end go, and one newline ends the text. -/
def render (ls : List Text) : Text :=
  joinLines (ls.reverse.dropWhile isBlank).reverse ++ [newline]

def skeletonize (text : Text) : Text := render (progress text).draft.out.toList

end SourceBundle.Skeleton
