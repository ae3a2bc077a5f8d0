import SourceBundle.Regex.ByteSet
/-!
# Regular expressions

Expressions over bytes and their matcher. The matcher takes what has to hold of the rest of the
text, so that a sequence is matched without guessing where its first part ends.
-/
namespace SourceBundle

inductive Regex where
  /-- The empty text. -/
  | empty
  /-- One byte of a set. -/
  | one (s : ByteSet)
  | seq (first second : Regex)
  | alt (left right : Regex)
  /-- Any number of bytes of a set. -/
  | many (s : ByteSet)
  deriving DecidableEq, Repr

namespace Regex

/-! ## Derived forms -/

def byte (b : UInt8) : Regex := one (.single b)

def literal (t : Text) : Regex := t.foldr (fun b r => seq (byte b) r) empty

def optional (r : Regex) : Regex := alt r empty

/-- At least one byte of a set. -/
def many1 (s : ByteSet) : Regex := seq (one s) (many s)

/-- The parts of a list in order. -/
def concat (rs : List Regex) : Regex := rs.foldr seq empty

/-! ## Matching -/

/-- Some number of bytes in `p`, then a rest in `k`. -/
def manyThen (p : UInt8 → Bool) (k : Text → Bool) : Text → Bool
  | [] => k []
  | b :: s => k (b :: s) || (p b && manyThen p k s)

/-- Whether the text is one of the expression's followed by a rest in `k`. -/
def thenRest : Regex → (Text → Bool) → Text → Bool
  | empty, k, s => k s
  | one _, _, [] => false
  | one p, k, b :: s => p.contains b && k s
  | seq a b, k, s => a.thenRest (b.thenRest k) s
  | alt a b, k, s => a.thenRest k s || b.thenRest k s
  | many p, k, s => manyThen p.contains k s

/-- Whether the whole text matches. -/
def isMatch (r : Regex) (s : Text) : Bool := r.thenRest List.isEmpty s

/-- Whether some beginning of the text matches. -/
def matchesStart (r : Regex) (s : Text) : Bool := r.thenRest (fun _ => true) s

end Regex
end SourceBundle
