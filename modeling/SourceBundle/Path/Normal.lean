import SourceBundle.Path.Basic
/-!
# Normal paths

The lexical normal form of a path, and the way from one path to another. Both read names only, so a
`..` after a link goes where the text says and not where the link leads.
-/
namespace SourceBundle.Path

open Text

/-! ## Normal form -/

/-- One name added to the names so far, last first. A `..` takes back the name before it; at the
root it goes nowhere. -/
def push (rooted : Bool) (done : List Text) (name : Text) : List Text :=
  if name = [] || name = here then done
  else if name = up then
    match done with
    | [] => if rooted then [] else [up]
    | last :: rest => if last = up then up :: done else rest
  else name :: done

/-- A name that leaves a slash at the end when it comes last. -/
def endsInFolder (name : Text) : Bool := name == [] || name == here || name == up

/-- The path without `.`, without `..` after a name, and without repeated slashes. A path that ends
in `.`, `..` or a slash keeps a slash at its end unless it then ends in `..`; a relative path with
no names left is `.`, and the empty path stays as it is. -/
def normal (p : Path) : Path :=
  let names := (p.names.foldl (push p.rooted) []).reverse
  if names = [] then
    if p.rooted || p.names = [] then { p with names := [] } else { p with names := [here] }
  else if (p.names.getLast?.any endsInFolder) && names.getLast? != some up then
    { p with names := names ++ [[]] }
  else { p with names }

/-! ## The way from one path to another -/

/-- What is left of two lists after their common beginning. -/
def dropCommon : List Text → List Text → List Text × List Text
  | a :: as, b :: bs => if a = b then dropCommon as bs else (a :: as, b :: bs)
  | as, bs => (as, bs)

/-- How far down some names lead: `..` counts against the others. -/
def depth (names : List Text) : Int :=
  names.foldl
    (fun n name => if name = up then n - 1 else if name = [] || name = here then n else n + 1) 0

/-- The path that leads from `base` to `p`, if the names alone give one. -/
def relativeTo? (p base : Path) : Option Path :=
  let (rest, above) := dropCommon p.names base.names
  if p.rooted != base.rooted || depth above < 0 then none
  else if depth above = 0 && (rest.head?.getD [] = []) then some ⟨false, [here]⟩
  else some ⟨false, List.replicate (depth above).toNat up ++ rest⟩

/-- A path made absolute, in normal form. -/
def absolute (folder file : Text) : Path := (ofText (join folder file)).normal

/-- How a file is shown from a folder: by the way from the folder, or by its absolute path without
the first slash when that way would lead upward. -/
def shownFrom (folder file : Text) : Text :=
  let whole := absolute folder file
  let shown :=
    match whole.relativeTo? (ofText folder) with
    | some way => if way.names.head? = some up then whole else way
    | none => whole
  shown.toText.dropWhile (· == slash)

end SourceBundle.Path
