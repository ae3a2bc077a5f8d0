import SourceBundle.Text.Basic
/-!
# JSON libraries

Settings are read by a library of JSON values, and the library is a parameter. A `JsonLibrary` has
the operations that are called, and `JsonLibrary.Lawful` says of them what their documentation does.
-/
namespace SourceBundle

/-- A library of JSON values. An operation that throws an exception gives nothing. -/
class JsonLibrary where
  Value : Type
  /-- The value that a text denotes. -/
  parse? : Text → Option Value
  /-- Whether a value has a member of this name; only an object may have one. -/
  contains : Value → Text → Bool
  /-- The member of this name. -/
  at? : Value → Text → Option Value
  /-- The elements of an array. -/
  elements? : Value → Option (List Value)
  /-- A value as a text. -/
  text? : Value → Option Text
  /-- A value as a list of texts. -/
  texts? : Value → Option (List Text)
  /-- The member of this name as a list of texts, or the given list where an object has none. -/
  textsOr? : Value → Text → List Text → Option (List Text)
  /-- The member of this name as a count, or the given count where an object has none. -/
  countOr? : Value → Text → Nat → Option Nat

namespace JsonLibrary

/-- What a library is documented to do where lists of texts are read. -/
class Lawful [JsonLibrary] : Prop where
  /-- A member can be taken out exactly when there is one. -/
  contains_iff (v : Value) (key : Text) : contains v key = true ↔ ∃ x, at? v key = some x
  /-- A list of texts is an array, and each of its elements is a text. -/
  texts?_eq (v : Value) : texts? v = (elements? v).bind fun xs => xs.mapM text?
  /-- A member that there is counts and not the default. -/
  textsOr?_of_at? (v x : Value) (key : Text) (default : List Text) :
    at? v key = some x → textsOr? v key default = texts? x
  /-- Where there is no member, nothing but the default is given. -/
  textsOr?_of_missing (v : Value) (key : Text) (default ts : List Text) :
    contains v key = false → textsOr? v key default = some ts → ts = default

end JsonLibrary
end SourceBundle
