import SourceBundle.Minified.Comments
/-!
# Minified text

Comments go, blank lines go, and every run of blanks within a line becomes one space.
-/
namespace SourceBundle.Minified

open Text

/-- Every run of blanks as one space. -/
def collapse (l : Text) : Text :=
  l.foldr
    (fun b out => if isSpace b then (if out.head? = some space then out else space :: out)
      else b :: out)
    []

/-- The text without any of its comments. -/
def dropComments (s : Text) : Text := dropHashLines (dropLineComments (dropBlockComments s))

/-- Lines that are not blank, trimmed and collapsed. -/
def layOut (s : Text) : Text :=
  joinLines ((((lines s).map trim).filter (!·.isEmpty)).map collapse)

def minify (s : Text) : Text := layOut (dropComments s)

end SourceBundle.Minified
