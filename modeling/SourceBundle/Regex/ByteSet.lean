import SourceBundle.Text.Basic
/-!
# Sets of bytes

A bracket expression denotes a set of bytes, written as a list of items and perhaps complemented.
-/
namespace SourceBundle

/-- The named classes of bytes. No byte above 127 is in one. -/
inductive ByteClass where
  | alnum | alpha | blank | control | digit | graph | lower | print | punct | space | upper
  | hexDigit | word
  deriving DecidableEq, Repr

namespace ByteClass

def contains : ByteClass → UInt8 → Bool
  | alnum, b => Text.isAlphanumeric b
  | alpha, b => Text.isLetter b
  | blank, b => b == Text.space || b == Text.tab
  | control, b => b < 0x20 || b == 0x7F
  | digit, b => Text.isDigit b
  | graph, b => 0x21 ≤ b && b ≤ 0x7E
  | lower, b => Text.isLower b
  | print, b => 0x20 ≤ b && b ≤ 0x7E
  | punct, b => 0x21 ≤ b && b ≤ 0x7E && !Text.isAlphanumeric b
  | space, b => Text.isSpace b
  | upper, b => Text.isUpper b
  | hexDigit, b => Text.isDigit b || (0x61 ≤ Text.toLower b && Text.toLower b ≤ 0x66)
  | word, b => Text.isWord b

/-- The names a class goes by between `[:` and `:]`. -/
def names : List (Text × ByteClass) :=
  [("d", digit), ("w", word), ("s", space), ("alnum", alnum), ("alpha", alpha), ("blank", blank),
    ("cntrl", control), ("digit", digit), ("graph", graph), ("lower", lower), ("print", print),
    ("punct", punct), ("space", space), ("upper", upper), ("xdigit", hexDigit)]

/-- Names are read without regard to case. -/
def ofName? (name : Text) : Option ByteClass := names.lookup (name.map Text.toLower)

end ByteClass

/-- One item of a bracket expression. -/
inductive ByteItem where
  | byte (b : UInt8)
  /-- Bytes from `low` to `high`, compared as signed bytes. -/
  | range (low high : UInt8)
  | within (c : ByteClass)
  | outside (c : ByteClass)
  /-- The byte in either case. -/
  | caseless (b : UInt8)
  deriving DecidableEq, Repr

def ByteItem.contains : ByteItem → UInt8 → Bool
  | byte x, b => b == x
  | range low high, b => low.toInt8 ≤ b.toInt8 && b.toInt8 ≤ high.toInt8
  | within c, b => c.contains b
  | outside c, b => !c.contains b
  | caseless x, b => Text.toLower b == Text.toLower x

structure ByteSet where
  complemented : Bool
  items : List ByteItem
  deriving DecidableEq, Repr

namespace ByteSet

def contains (s : ByteSet) (b : UInt8) : Bool :=
  s.complemented != s.items.any (·.contains b)

def single (b : UInt8) : ByteSet := ⟨false, [.byte b]⟩

def ofClass (c : ByteClass) : ByteSet := ⟨false, [.within c]⟩

/-- Every byte but newline and carriage return. -/
def inLine : ByteSet := ⟨true, [.byte Text.newline, .byte Text.carriageReturn]⟩

/-- Every byte but the slash. -/
def inName : ByteSet := ⟨true, [.byte Text.slash]⟩

@[simp] theorem contains_single (x b : UInt8) : (single x).contains b = (b == x) := by
  simp [single, contains, ByteItem.contains]

@[simp] theorem contains_ofClass (c : ByteClass) (b : UInt8) :
    (ofClass c).contains b = c.contains b := by
  simp [ofClass, contains, ByteItem.contains]

@[simp] theorem contains_inLine (b : UInt8) : inLine.contains b = !Text.isBreak b := by
  simp [inLine, contains, ByteItem.contains, Text.isBreak]

@[simp] theorem contains_inName (b : UInt8) : inName.contains b = (b != Text.slash) := by
  simp [inName, contains, ByteItem.contains, bne]

end ByteSet
end SourceBundle
