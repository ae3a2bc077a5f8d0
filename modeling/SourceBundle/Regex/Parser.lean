import SourceBundle.Regex.Basic
import SourceBundle.Regex.Bracket
/-!
# Reading regular expressions

The notation that glob patterns are written out in: single bytes, `.`, escaped bytes and brackets,
each perhaps followed by a star, and `(?:.*/)?` for any number of leading folders.
-/
namespace SourceBundle.Regex

open Text

/-! ## Leading folders -/

/-- A text without line breaks that ends in a slash, or nothing. -/
def leadingFolders : Regex := optional (seq (many .inLine) (byte slash))

def leadingFoldersText : Text := "(?:.*/)?"

/-! ## Parts -/

/-- A set of bytes at the start of the text. -/
def set? : Text → Option (ByteSet × Text)
  | [] => none
  | [backslash] => none
  | backslash :: b :: s => some (.single b, s)
  | dot :: s => some (.inLine, s)
  | openBracket :: s => Bracket.parse? s
  | b :: s => some (.single b, s)

/-- A set taken once, or any number of times before a star. -/
def starred (p : ByteSet) : Text → Regex × Text
  | asterisk :: s => (many p, s)
  | s => (one p, s)

def part? (s : Text) : Option (Regex × Text) :=
  if leadingFoldersText.isPrefixOf s then
    some (leadingFolders, s.drop leadingFoldersText.length)
  else (set? s).map fun p => starred p.1 p.2

/-! ## A part takes at least one byte -/

theorem length_starred_le (p : ByteSet) (s : Text) : (starred p s).2.length ≤ s.length := by
  unfold starred
  split <;> simp

theorem length_of_set? {s r : Text} {p : ByteSet} (h : set? s = some (p, r)) :
    r.length < s.length := by
  unfold set? at h
  split at h
  · simp at h
  · simp at h
  · simp only [Option.some.injEq, Prod.mk.injEq] at h
    simp only [← h.2, List.length_cons]
    omega
  · simp only [Option.some.injEq, Prod.mk.injEq] at h
    simp [← h.2]
  · have := Bracket.length_of_parse? h
    simp only [List.length_cons]
    omega
  · simp only [Option.some.injEq, Prod.mk.injEq] at h
    simp [← h.2]

theorem length_of_part? {s r : Text} {x : Regex} (hs : s ≠ []) (h : part? s = some (x, r)) :
    r.length < s.length := by
  unfold part? at h
  split at h
  · simp only [Option.some.injEq, Prod.mk.injEq] at h
    have := List.length_pos_iff.2 hs
    have : leadingFoldersText.length = 8 := rfl
    rw [← h.2, List.length_drop]
    omega
  · obtain ⟨⟨p, u⟩, hp, hu⟩ := Option.map_eq_some_iff.1 h
    have := length_of_set? hp
    have := length_starred_le p u
    simp only [Prod.ext_iff] at hu
    rw [← hu.2]
    omega

/-! ## The whole text -/

/-- The expression a text denotes, or nothing when a bracket in it cannot be read. -/
def parse? (s : Text) : Option Regex :=
  if _hs : s = [] then some empty
  else
    match _h : part? s with
    | none => none
    | some (r, rest) => (parse? rest).map (seq r)
termination_by s.length
decreasing_by exact length_of_part? _hs _h

end SourceBundle.Regex
