import SourceBundle.Text.Basic
/-!
# UTF-8

Which texts are well-formed UTF-8: no overlong form, no surrogate, nothing above U+10FFFF.
-/
namespace SourceBundle.Text

/-! ## Sequences of bytes for one character -/

/-- A byte after the first of a character. -/
def isTail (b : UInt8) : Bool := 0x80 ≤ b && b ≤ 0xBF

def isPair (a b : UInt8) : Bool := 0xC2 ≤ a && a ≤ 0xDF && isTail b

/-- Three bytes; the second is narrowed after `0xE0` and `0xED`. -/
def isTriple (a b c : UInt8) : Bool :=
  0xE0 ≤ a && a ≤ 0xEF && isTail b && isTail c && (a != 0xE0 || 0xA0 ≤ b) && (a != 0xED || b ≤ 0x9F)

/-- Four bytes; the second is narrowed after `0xF0` and `0xF4`. -/
def isQuadruple (a b c d : UInt8) : Bool :=
  0xF0 ≤ a && a ≤ 0xF4 && isTail b && isTail c && isTail d && (a != 0xF0 || 0x90 ≤ b) &&
    (a != 0xF4 || b ≤ 0x8F)

/-! ## Whole texts -/

def isUtf8 : Text → Bool
  | [] => true
  | a :: s =>
    if a < 0x80 then isUtf8 s
    else
      match s with
      | [] => false
      | b :: s =>
        if isPair a b then isUtf8 s
        else
          match s with
          | [] => false
          | c :: s =>
            if isTriple a b c then isUtf8 s
            else
              match s with
              | [] => false
              | d :: s => isQuadruple a b c d && isUtf8 s

/-- The bytes of a character given by its number. -/
def ofScalar (n : Nat) : Text := String.utf8EncodeChar (Char.ofNat n)

end SourceBundle.Text
