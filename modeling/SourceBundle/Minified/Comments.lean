import SourceBundle.Text.Basic
/-!
# Comments

Three strippers: block comments, comments to the end of the line, and lines that start with `#`.
None knows string literals, and none touches a line break outside a block comment.
-/
namespace SourceBundle.Minified

open Text

/-! ## Block comments -/

/-- A block comment's opener and the text around it; nothing when it is never closed. -/
def blockComment? (s : Text) : Option (Text × Text) := do
  let (before, inside) ← cut? "/*" s
  let (_, after) ← cut? "*/" inside
  return (before, after)

theorem length_of_blockComment? {s before after : Text}
    (h : blockComment? s = some (before, after)) : after.length < s.length := by
  obtain ⟨⟨x, u⟩, hx, h⟩ := Option.bind_eq_some_iff.1 h
  obtain ⟨⟨y, v⟩, hy, h⟩ := Option.bind_eq_some_iff.1 h
  have := length_lt_of_cut? (by decide) hx
  have := length_lt_of_cut? (by decide) hy
  simp only [pure, Option.some.injEq, Prod.mk.injEq] at h
  rw [← h.2]
  omega

/-- Less its block comments, from left to right. An unterminated one stays, and all after it. -/
def dropBlockComments (s : Text) : Text :=
  match _h : blockComment? s with
  | none => s
  | some (before, after) => before ++ dropBlockComments after
termination_by s.length
decreasing_by exact length_of_blockComment? _h

/-! ## Comments to the end of the line -/

/-- The text from the next line break on. -/
def fromBreak (s : Text) : Text := s.dropWhile (!isBreak ·)

/-- What stands before the next line break. -/
def toBreak (s : Text) : Text := s.takeWhile (!isBreak ·)

theorem length_fromBreak_le (s : Text) : (fromBreak s).length ≤ s.length :=
  (List.dropWhile_sublist _).length_le

/-- Less every `//` and what follows it on its line. -/
def dropLineComments (s : Text) : Text :=
  match _h : cut? "//" s with
  | none => s
  | some (before, after) => before ++ dropLineComments (fromBreak after)
termination_by s.length
decreasing_by
  have := length_lt_of_cut? (by decide) _h
  have := length_fromBreak_le after
  omega

/-! ## Hash lines -/

/-- A line whose first byte after spaces and tabs is `#`. -/
def isHashLine (l : Text) : Bool :=
  (l.dropWhile fun b => b == space || b == tab).head? == some hashMark

/-- Less the lines that are hash comments; their line breaks stay. -/
def dropHashLines (s : Text) : Text :=
  let kept := if isHashLine (toBreak s) then [] else toBreak s
  match _h : fromBreak s with
  | [] => kept
  | b :: rest => kept ++ b :: dropHashLines rest
termination_by s.length
decreasing_by
  have := length_fromBreak_le s
  rw [_h, List.length_cons] at this
  omega

end SourceBundle.Minified
