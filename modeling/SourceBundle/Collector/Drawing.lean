import SourceBundle.Collector.Entries
import SourceBundle.Log
/-!
# Drawings of folders

Each entry in sight has a line: a connector and its name, behind one bar or blank for every folder
it is in. The last entry of a folder closes its corner.
-/
namespace SourceBundle

open Text

namespace Collector

/-- What stands in front of an entry's name. -/
def connector (isLast : Bool) : Text := if isLast then "└── " else "├── "

/-- What stands in front of the lines of what is in an entry. -/
def bar (isLast : Bool) : Text := if isLast then "    " else "│   "

variable (c : Collector)

/-- The lines of the folder at a path, each behind a text. A linked folder is not entered. -/
def drawTree (before dir : Text) (f : Folder) : Text :=
  let entries := c.visibleEntries dir f
  entries.attach.zipIdx.flatMap fun (⟨e, _⟩, i) =>
    let isLast := i + 1 == entries.length
    before ++ connector isLast ++ e.name ++ [newline] ++
      if c.isDirectory e && !e.isLink then drawTree (before ++ bar isLast) e.path e.inside else []
termination_by f.count
decreasing_by exact count_inside_lt_of_mem ‹_›

/-- The drawing of the top folder; empty when it cannot be read. -/
def drawing : Text :=
  match c.top with
  | .ok f => c.drawTree [] c.root f
  | .error _ => []

def drawingLog : Log :=
  match c.top with
  | .ok _ => []
  | .error r => [.scanFailed c.root r]

end Collector
end SourceBundle
