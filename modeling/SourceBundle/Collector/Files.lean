import SourceBundle.Collector.Entries
import SourceBundle.Log
/-!
# Collected files

The text files in sight that are not too large, in the order of the tree. A folder is searched where
it stands, and not where a link leads to it.
-/
namespace SourceBundle

/-- A file to bundle: its path as it is seen from the top folder, and the one it is read by. -/
structure Collected where
  relative : Text
  absolute : Text
  deriving DecidableEq, Repr

/-- A text file that was met. -/
inductive Finding where
  | collected (relative : Path) (absolute : Text)
  | oversized (relative : Path) (size : Nat)
  deriving DecidableEq, Repr

def Finding.file? : Finding → Option Collected
  | collected relative absolute => some ⟨relative.toText, absolute⟩
  | oversized .. => none

namespace Collector

variable (c : Collector)

/-- Whether the extension of a path counts as text. -/
def countsAsText (p : Path) : Bool := c.config.allows p.extension

/-- What to make of a file: nothing when it is no text file. -/
def weigh (relative : Path) (absolute : Text) (size : Nat) : List Finding :=
  if !c.countsAsText (.ofText absolute) then []
  else if 0 < c.config.maxFileBytes && c.config.maxFileBytes < size then [.oversized relative size]
  else [.collected relative absolute]

/-- What is found in the folder at a path and in the folders below it. -/
def scan (dir : Text) (f : Folder) : List Finding :=
  (c.visibleEntries dir f).attach.flatMap fun ⟨e, _⟩ =>
    if c.isDirectory e then
      -- A linked folder is in sight, but what is in it is not.
      if e.isLink then [] else scan e.path e.inside
    else
      match c.fileSize? e with
      | some size => c.weigh (c.relativeOf e.path) e.path size
      | none => []
termination_by f.count
decreasing_by exact count_inside_lt_of_mem ‹_›

def eventOf? : Finding → Option Event
  | .collected .. => none
  | .oversized p size => some (.skipped p.toText size c.config.maxFileBytes)

/-- The files to bundle. -/
def files : List Collected :=
  match c.top with
  | .ok f => (c.scan c.root f).filterMap Finding.file?
  | .error _ => []

/-- The report of a scan, from its start to the count of files. -/
def scanLog : Log :=
  .scanning c.root c.rules.length ::
    (match c.top with
      | .ok f => (c.scan c.root f).filterMap c.eventOf?
      | .error r => [.scanFailed c.root r]) ++ [.found c.files.length]

end Collector
end SourceBundle
