import SourceBundle.Json.Number
/-!
# JSON values

The values of one `JsonLibrary`, for a program that runs. What is proved of settings holds of others
as well.
-/
namespace SourceBundle

inductive Json where
  | null
  | bool (b : Bool)
  | number (n : Json.Number)
  | string (t : Text)
  | array (items : List Json)
  /-- Members as written; a key may occur again. -/
  | object (members : List (Text × Json))

namespace Json

/-- The last member of that name in an object. -/
def get? (key : Text) : Json → Option Json
  | object members => members.reverse.lookup key
  | _ => none

def string? : Json → Option Text
  | string t => some t
  | _ => none

def elements? : Json → Option (List Json)
  | array items => some items
  | _ => none

/-- The texts of an array that holds nothing else. -/
def strings? (v : Json) : Option (List Text) := v.elements?.bind fun items => items.mapM string?

def count? : Json → Option Nat
  | number n => some n.toCount
  | _ => none

end Json
end SourceBundle
