import SourceBundle.FileTree.System
/-!
# Storage

What lies behind files and standard output is a parameter. A file may refuse to be opened, and what
is written may be held only in part, as on a disk that is full; the writer is told whether all of it
was taken.
-/
namespace SourceBundle

/-- What became of a text that was written. -/
structure Written where
  /-- What the place holds afterwards. -/
  held : Text
  /-- Whether the writer was told that all went well. -/
  complete : Bool
  deriving DecidableEq, Repr

/-- What takes the texts that a program writes. Files are known by the names that lead to them. -/
class Storage where
  /-- Whether a file can be opened for writing. -/
  opens : List Text → Bool
  /-- What becomes of a text that is written to an open file. -/
  toFile : List Text → Text → Written
  /-- What becomes of a text that is written to standard output. -/
  toOutput : Text → Written
  /-- Standard output that has taken a text has taken all of it. -/
  held_toOutput (text : Text) : (toOutput text).complete = true → (toOutput text).held = text

namespace Storage

/-- Whatever is written is taken, into a file and on standard output. -/
class Completes [Storage] : Prop where
  toFile (names : List Text) (text : Text) : (Storage.toFile names text).complete = true
  toOutput (text : Text) : (Storage.toOutput text).complete = true

/-- A storage that takes everything but what is written to the files with some names, which hold
nothing. -/
@[reducible] def exceptAt (full : List (List Text)) : Storage where
  opens _ := true
  toFile names text := if full.contains names then ⟨[], text.isEmpty⟩ else ⟨text, true⟩
  toOutput text := ⟨text, true⟩
  held_toOutput _ _ := rfl

end Storage
end SourceBundle
