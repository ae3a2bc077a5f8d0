/-!
# Text

A text is a list of bytes. Letters, digits and blanks are the ASCII ones, lengths count bytes, and
texts are ordered by their bytes.
-/
namespace SourceBundle

abbrev Text := List UInt8

namespace Text

/-- The bytes of a literal. -/
def ofString (s : String) : Text := s.toUTF8.data.toList

instance : Coe String Text := ⟨ofString⟩

/-- A number in decimal digits. -/
def ofNat (n : Nat) : Text := (Nat.toDigits 10 n).map Char.toUInt8

/-! ## Bytes with a name -/

@[match_pattern] abbrev tab : UInt8 := 0x09
@[match_pattern] abbrev newline : UInt8 := 0x0A
@[match_pattern] abbrev carriageReturn : UInt8 := 0x0D
@[match_pattern] abbrev space : UInt8 := 0x20
@[match_pattern] abbrev bang : UInt8 := 0x21
@[match_pattern] abbrev hashMark : UInt8 := 0x23
@[match_pattern] abbrev openParen : UInt8 := 0x28
@[match_pattern] abbrev closeParen : UInt8 := 0x29
@[match_pattern] abbrev asterisk : UInt8 := 0x2A
@[match_pattern] abbrev plus : UInt8 := 0x2B
@[match_pattern] abbrev dash : UInt8 := 0x2D
@[match_pattern] abbrev dot : UInt8 := 0x2E
@[match_pattern] abbrev slash : UInt8 := 0x2F
@[match_pattern] abbrev colon : UInt8 := 0x3A
@[match_pattern] abbrev equals : UInt8 := 0x3D
@[match_pattern] abbrev question : UInt8 := 0x3F
@[match_pattern] abbrev openBracket : UInt8 := 0x5B
@[match_pattern] abbrev backslash : UInt8 := 0x5C
@[match_pattern] abbrev closeBracket : UInt8 := 0x5D
@[match_pattern] abbrev caret : UInt8 := 0x5E
@[match_pattern] abbrev openBrace : UInt8 := 0x7B
@[match_pattern] abbrev closeBrace : UInt8 := 0x7D

/-! ## Classes of bytes -/

/-- Space, tab, newline, vertical tab, form feed or carriage return. -/
def isSpace (b : UInt8) : Bool := b == space || (0x09 ≤ b && b ≤ 0x0D)

def isDigit (b : UInt8) : Bool := 0x30 ≤ b && b ≤ 0x39

def isUpper (b : UInt8) : Bool := 0x41 ≤ b && b ≤ 0x5A

def isLower (b : UInt8) : Bool := 0x61 ≤ b && b ≤ 0x7A

def isLetter (b : UInt8) : Bool := isUpper b || isLower b

def isAlphanumeric (b : UInt8) : Bool := isLetter b || isDigit b

/-- A letter, a digit or an underscore. -/
def isWord (b : UInt8) : Bool := isAlphanumeric b || b == 0x5F

/-- Newline or carriage return. -/
def isBreak (b : UInt8) : Bool := b == newline || b == carriageReturn

def toLower (b : UInt8) : UInt8 := if isUpper b then b + 0x20 else b

/-! ## Trimming -/

/-- Less the longest end made of bytes of a class. -/
def dropEndWhile (p : UInt8 → Bool) (s : Text) : Text := (s.reverse.dropWhile p).reverse

def trimStart (s : Text) : Text := s.dropWhile isSpace

def trimEnd (s : Text) : Text := dropEndWhile isSpace s

def trim (s : Text) : Text := trimEnd (trimStart s)

/-- Nothing but white space. -/
def isBlank (s : Text) : Bool := s.all isSpace

/-! ## Cutting and joining -/

/-- The pieces between the occurrences of a byte; one more than there are occurrences. -/
def splitOn (sep : UInt8) (s : Text) : List Text :=
  s.foldr (fun b pieces => if b = sep then [] :: pieces else pieces.modifyHead (b :: ·)) [[]]

/-- The lines between newlines. A final newline gives a final empty line. -/
def lines (s : Text) : List Text := splitOn newline s

def joinLines (ls : List Text) : Text := [newline].intercalate ls

/-- `cut?` after the bytes of `before` have been passed, last one first. -/
def cutFrom? (mark before : Text) : Text → Option (Text × Text)
  | [] => none
  | b :: s =>
    if mark.isPrefixOf (b :: s) then some (before.reverse, (b :: s).drop mark.length)
    else cutFrom? mark (b :: before) s

/-- What stands before and after the first occurrence of a non-empty mark. -/
def cut? (mark s : Text) : Option (Text × Text) := cutFrom? mark [] s

/-- Every occurrence of one byte replaced by another. -/
def replace (old new : UInt8) (s : Text) : Text := s.map fun b => if b = old then new else b

/-- Less its last `n` bytes. -/
def dropEnd (n : Nat) (s : Text) : Text := s.take (s.length - n)

def startsWith (mark s : Text) : Bool := mark.isPrefixOf s

def endsWith (mark s : Text) : Bool := mark.isSuffixOf s

/-! ## Order -/

/-- The order of texts: by the first byte that differs, a proper beginning first. -/
def isBefore : Text → Text → Bool
  | _, [] => false
  | [], _ :: _ => true
  | a :: s, b :: t => a < b || (a == b && isBefore s t)

/-! ## Small facts -/

@[simp] theorem splitOn_nil (sep : UInt8) : splitOn sep [] = [[]] := rfl

theorem splitOn_cons (sep b : UInt8) (s : Text) :
    splitOn sep (b :: s) =
      if b = sep then [] :: splitOn sep s else (splitOn sep s).modifyHead (b :: ·) := rfl

theorem splitOn_ne_nil (sep : UInt8) (s : Text) : splitOn sep s ≠ [] := by
  induction s with
  | nil => simp
  | cons b s ih =>
    rw [splitOn_cons]
    split
    · simp
    · cases h : splitOn sep s with
      | nil => exact absurd h ih
      | cons l ls => simp

theorem length_lt_of_cutFrom? {mark before s x y : Text} (hm : mark ≠ [])
    (h : cutFrom? mark before s = some (x, y)) : y.length < s.length := by
  induction s generalizing before with
  | nil => simp [cutFrom?] at h
  | cons b s ih =>
    rw [cutFrom?] at h
    split at h
    · simp only [Option.some.injEq, Prod.mk.injEq] at h
      rw [← h.2, List.length_drop, List.length_cons]
      have := List.length_pos_iff.2 hm
      omega
    · have := ih h
      simp only [List.length_cons]
      omega

/-- What follows an occurrence is shorter than the whole. -/
theorem length_lt_of_cut? {mark s x y : Text} (hm : mark ≠ []) (h : cut? mark s = some (x, y)) :
    y.length < s.length :=
  length_lt_of_cutFrom? hm h

end Text
end SourceBundle
