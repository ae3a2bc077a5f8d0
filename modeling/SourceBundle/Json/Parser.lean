import SourceBundle.Json.Library
import SourceBundle.Json.Token
/-!
# Reading JSON

A machine takes one token after another and keeps the open containers on a stack, so that nesting
of any depth is read in one pass.
-/
namespace SourceBundle.Json

open Text

/-! ## The machine -/

/-- An open container around the value that is being read. What it holds stands last first. -/
inductive Frame where
  | items (done : List Json)
  | members (done : List (Text × Json)) (key : Text)

inductive State where
  /-- A value has to follow. -/
  | value (around : List Frame)
  /-- After `[`: a value or `]`. -/
  | item (around : List Frame)
  /-- After an item: a comma or `]`. -/
  | items (done : List Json) (around : List Frame)
  /-- After `{`: a key or `}`. -/
  | firstKey (around : List Frame)
  /-- After a comma in an object: a key. -/
  | key (done : List (Text × Json)) (around : List Frame)
  /-- After a key: a colon. -/
  | colon (done : List (Text × Json)) (key : Text) (around : List Frame)
  /-- After a member: a comma or `}`. -/
  | members (done : List (Text × Json)) (around : List Frame)
  /-- The whole value has been read. -/
  | finished (v : Json)

/-- A value put into the innermost open container. -/
def place (v : Json) : List Frame → State
  | [] => .finished v
  | .items done :: around => .items (v :: done) around
  | .members done key :: around => .members ((key, v) :: done) around

/-- A token where a value may start. -/
def State.begin (around : List Frame) : Token → Option State
  | .scalar v => some (place v around)
  | .openBracket => some (.item around)
  | .openBrace => some (.firstKey around)
  | _ => none

def State.step : State → Token → Option State
  | .value around, t => State.begin around t
  | .item around, .closeBracket => some (place (.array []) around)
  | .item around, t => State.begin (.items [] :: around) t
  | .items done around, .comma => some (.value (.items done :: around))
  | .items done around, .closeBracket => some (place (.array done.reverse) around)
  | .firstKey around, .closeBrace => some (place (.object []) around)
  | .firstKey around, .scalar (.string k) => some (.colon [] k around)
  | .key done around, .scalar (.string k) => some (.colon done k around)
  | .colon done k around, .colon => some (.value (.members done k :: around))
  | .members done around, .comma => some (.key done around)
  | .members done around, .closeBrace => some (place (.object done.reverse) around)
  | _, _ => none

/-! ## Whole texts -/

/-- Blanks between tokens. -/
def isSpace (b : UInt8) : Bool := b == space || b == tab || b == newline || b == carriageReturn

/-- The value that has been read, when it is whole. -/
def State.value? : State → Option Json
  | .finished v => some v
  | _ => none

/-- Reads on to the end of the text, or to a zero byte between tokens, which counts as the end. -/
def parseFrom? (st : State) (s : Text) : Option Json :=
  match _h : s.dropWhile isSpace with
  | [] => st.value?
  | b :: r =>
    if b = 0 then st.value?
    else
      match _ht : token? b r with
      | none => none
      | some (t, rest) =>
        match st.step t with
        | none => none
        | some st => parseFrom? st rest
termination_by s.length
decreasing_by
  have := length_of_token? _ht
  have hl := (List.dropWhile_sublist (l := s) isSpace).length_le
  rw [_h, List.length_cons] at hl
  omega

def byteOrderMark : Text := [0xEF, 0xBB, 0xBF]

/-- The value a text denotes. A byte order mark in front is skipped. -/
def parse? (s : Text) : Option Json :=
  parseFrom? (.value []) (if startsWith byteOrderMark s then s.drop 3 else s)

end Json

/-! ## The library -/

/-- The member of this name, read in some way, or the default where an object has none. -/
def Json.memberOr? {α : Type} (read? : Json → Option α) (key : Text) (default : α) :
    Json → Option α
  | object members =>
    match (object members).get? key with
    | some x => read? x
    | none => some default
  | _ => none

instance : JsonLibrary where
  Value := Json
  parse? := Json.parse?
  contains v key := (v.get? key).isSome
  at? v key := v.get? key
  elements? := Json.elements?
  text? := Json.string?
  texts? := Json.strings?
  textsOr? v key default := v.memberOr? Json.strings? key default
  countOr? v key default := v.memberOr? Json.count? key default

end SourceBundle
