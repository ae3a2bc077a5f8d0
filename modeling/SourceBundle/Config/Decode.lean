import SourceBundle.Config.Basic
import SourceBundle.Json.Library
/-!
# Settings from JSON

Settings are read from the members of an object; a member that is left out keeps its built-in value.
-/
namespace SourceBundle.Config

open JsonLibrary

/-- Why a text gives no settings. -/
inductive Flaw where
  | notJson
  | wrongType
  | unknownMode (name : Text)
  deriving DecidableEq, Repr

/-- What a library gives. -/
def orFlaw {α : Type} (why : Flaw) : Option α → Except Flaw α
  | some a => .ok a
  | none => .error why

section

variable [JsonLibrary]

/-- The extensions that a value allows; the built-in ones when it says nothing on them. -/
def allowedOf (v : Value) : Except Flaw (List Text) :=
  if contains v "allowed_extensions" then
    orFlaw .wrongType ((at? v "allowed_extensions").bind texts?)
  else .ok builtInExtensions

/-- The mode that a value names, when it names one. -/
def modeOf (v : Value) : Except Flaw (Option Mode) :=
  if contains v "mode" then do
    let name ← orFlaw .wrongType ((at? v "mode").bind text?)
    return some (← orFlaw (.unknownMode name) (Mode.ofName? name))
  else .ok none

/-- The non-empty extensions of a list, in canonical form. -/
def extensionsOf (es : List Text) : List Text := (es.filter (!·.isEmpty)).map canonicalExtension

/-- The settings of a JSON value. Types are checked before the name of the mode. -/
def ofJson (v : Value) : Except Flaw Config := do
  let allowed ← allowedOf v
  let extra ← orFlaw .wrongType (textsOr? v "extra_extensions" [])
  let ignorePatterns ← orFlaw .wrongType (textsOr? v "ignore_patterns" [])
  let maxFileBytes ← orFlaw .wrongType (countOr? v "max_file_bytes" builtIn.maxFileBytes)
  let mode ← modeOf v
  return {
    extensions := TextSet.ofList (extensionsOf allowed ++ extensionsOf extra)
    ignorePatterns, maxFileBytes, mode
    source := [] }

def ofText (text : Text) : Except Flaw Config := do
  ofJson (← orFlaw .notJson (parse? text))

end

end SourceBundle.Config
