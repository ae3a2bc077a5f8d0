import SourceBundle.Line.Shape
/-!
# Reduced declarations

How a declaration is written once its body is gone: `method() {` becomes `method(){}`, and
`const f = (x) => {` becomes `const f = (x)=>{}`.
-/
namespace SourceBundle.Line

open Text

/-- A `(` and somewhere after it a `)`. -/
def hasParameters (t : Text) : Bool := ((tail t).drop 1).contains closeParen

/-- `(x) =>` without the blanks before the arrow. -/
def tightenArrow (t : Text) : Text :=
  if endsWith "=>" t then
    let parameters := trimEnd (dropEnd 2 t)
    if parameters.getLast? == some closeParen then parameters ++ "=>" else t
  else t

/-- The declaration with an empty body, `()` where it has no parameter list, and no blanks before
the body or around the arrow. -/
def finalize (t : Text) : Text :=
  let declaration := trim (dropBody t)
  tightenArrow (if hasParameters declaration then declaration else declaration ++ "()") ++
    [openBrace, closeBrace]

/-- `class Foo` with its opening brace. -/
def openType (t : Text) : Text := if endsWith [openBrace] t then t else t ++ [space, openBrace]

end SourceBundle.Line
