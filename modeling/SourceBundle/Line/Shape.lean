import SourceBundle.Regex.Basic
/-!
# Shapes of source lines

Which lines are comments, conditionals, type openings, functions and members. Each predicate reads
one trimmed line by itself. What stands before the first `(` is matched by an expression, and the
rest only by its end, so a long line costs no more than a short one.
-/
namespace SourceBundle.Line

open Text

/-! ## Comments -/

def isDocStart (t : Text) : Bool := startsWith "/**" t

def isDocEnd (t : Text) : Bool := endsWith "*/" t

/-- A line comment, a block comment that is not documentation, or the end of either. -/
def isComment (t : Text) : Bool :=
  startsWith "//" t || (startsWith "/*" t && !isDocStart t) || endsWith "*/" t

/-! ## Conditionals -/

/-- Somewhere a `)` and then, blanks aside, a `{`. -/
def closesThenOpens : Text → Bool
  | [] => false
  | b :: s => (b == closeParen && (trimStart s).head? == some openBrace) || closesThenOpens s

/-- `if (...) {` at the start of the line, with at least one byte between the parentheses. -/
def isConditional (t : Text) : Bool :=
  startsWith "if" t &&
    match trimStart (t.drop 2) with
    | openParen :: _ :: s => closesThenOpens s
    | _ => false

/-! ## Heads of declarations -/

/-- The most bytes of a line that an expression is matched against. -/
def headLimit : Nat := 256

def blanks : Regex := .many (.ofClass .space)

def blanks1 : Regex := .many1 (.ofClass .space)

/-- An identifier: letters, digits and underscores. -/
def name : Regex := .many1 (.ofClass .word)

/-- A word and the blanks that set it off. -/
def keyword (word : Text) : Regex := .seq (.literal word) blanks1

def modifier (word : Text) : Regex := .optional (keyword word)

/-- `[export] [async] function name` -/
def functionHead : Regex :=
  .concat [modifier "export", modifier "async", keyword "function", name, blanks]

/-- `[export] const|let|var name = [async]` -/
def arrowHead : Regex :=
  .concat [modifier "export", .alt (keyword "const") (.alt (keyword "let") (keyword "var")), name,
    blanks, .literal "=", blanks, modifier "async"]

/-- `[export] [abstract] class|interface name` -/
def typeHead : Regex :=
  .concat [modifier "export", modifier "abstract",
    .alt (keyword "class") (keyword "interface"), name]

/-- `[async] constructor|get|set` -/
def namedMemberHead : Regex :=
  .concat [modifier "async",
    .alt (.literal "constructor") (.alt (.literal "get") (.literal "set")), blanks]

/-- `[async] get name` -/
def getterHead : Regex := .concat [modifier "async", keyword "get", name, blanks]

/-- `[async] set name` -/
def setterHead : Regex := .concat [modifier "async", keyword "set", name, blanks]

/-- `[async] name` -/
def methodHead : Regex := .concat [modifier "async", name, blanks]

/-- `[async] get name`, for a getter without a parameter list. -/
def bareGetter : Regex := .concat [modifier "async", keyword "get", name]

/-- A head no longer than the limit that matches. -/
def isHead (r : Regex) (h : Text) : Bool := h.length ≤ headLimit && r.isMatch h

/-! ## Tails of declarations -/

/-- Less a final `{` or `{}` and the blanks before it. -/
def dropBody (s : Text) : Text :=
  trimEnd <|
    if endsWith [openBrace, closeBrace] s then dropEnd 2 s
    else if endsWith [openBrace] s then dropEnd 1 s
    else s

/-- Which parameter lists a declaration may have. -/
inductive Parameters where
  | any
  | none
  deriving DecidableEq, Repr

/-- Ends in `)` and is not that byte alone. -/
def closesList (s : Text) : Bool := 2 ≤ s.length && s.getLast? == some closeParen

/-- A parameter list and perhaps a body: the text from the first `(` on. -/
def isParameterList (p : Parameters) (tail : Text) : Bool :=
  closesList (dropBody tail) && (p == .any || dropBody tail == ("()" : Text))

/-- The same with `=>` between the parameter list and the body. -/
def isArrowParameterList (tail : Text) : Bool :=
  endsWith "=>" (dropBody tail) && closesList (trimEnd (dropEnd 2 (dropBody tail)))

/-! ## Declarations -/

/-- What stands before the first `(`. -/
def head (t : Text) : Text := t.takeWhile (· != openParen)

/-- The text from the first `(` on; empty when there is none. -/
def tail (t : Text) : Text := t.dropWhile (· != openParen)

/-- Whether the line starts, within the limit, as the expression says. -/
def startsAs (r : Regex) (t : Text) : Bool := r.matchesStart (t.take headLimit)

/-- `[export] [abstract] class|interface name` at the start of the line. -/
def declaresType (t : Text) : Bool := startsAs typeHead t

/-- A named `function`, or an arrow function bound by `const`, `let` or `var`. -/
def declaresFunction (t : Text) : Bool :=
  t.contains openParen &&
    ((isHead functionHead (head t) && isParameterList .any (tail t)) ||
      (isHead arrowHead (head t) && isArrowParameterList (tail t)))

/-- The heads of members, each with the parameter lists it takes. -/
def memberHeads : List (Regex × Parameters) :=
  [(namedMemberHead, .any), (getterHead, .none), (setterHead, .any), (methodHead, .any)]

/-- A constructor, getter, setter or method, perhaps `async`; a getter may lack its `()`. -/
def declaresMember (t : Text) : Bool :=
  if t.contains openParen then
    memberHeads.any fun (r, p) => isHead r (head t) && isParameterList p (tail t)
  else isHead bareGetter (dropBody t)

def isImportOrExport (t : Text) : Bool :=
  startsAs (keyword "import") t || startsAs (keyword "export") t

/-! ## Bodies -/

/-- Whether the line leaves a body open. -/
def leavesBodyOpen (t : Text) : Bool := t.getLast? == some openBrace

/-- Opening braces less closing ones, wherever they stand. -/
def braceBalance (t : Text) : Int := (t.count openBrace : Int) - t.count closeBrace

end SourceBundle.Line
