import SourceBundle.FileTree.System
import SourceBundle.Mode
/-!
# The log

What a run reports as it goes, each event with its level and its wording.
-/
namespace SourceBundle

inductive Level where
  | info
  | warn
  | error
  deriving DecidableEq, Repr

def Level.name : Level → Text
  | info => "info"
  | warn => "warn"
  | error => "error"

/-- Why a run cannot go on. -/
inductive Failure where
  | cannotOpen (path : Text)
  | cannotWrite (path : Text)
  /-- An open file has not taken all that was written to it. -/
  | writeFailed (path : Text)
  | outputFailed
  /-- It cannot be told whether there is anything at a path. -/
  | cannotLookUp (path : Text) (why : FileSystem.Refusal)
  deriving DecidableEq, Repr

def Failure.message : Failure → Text
  | cannotOpen path => "Cannot open " ++ path
  | cannotWrite path => "Cannot open " ++ path ++ " for writing"
  | writeFailed path => "Failed to write " ++ path
  | outputFailed => "Failed to write to stdout"
  | cannotLookUp path why => "Cannot look up " ++ path ++ ": " ++ why.reason

inductive Event where
  /-- An ignore pattern that does not compile. -/
  | unusablePattern (source : Text)
  | configLoaded (path : Text) (extensions patterns : Nat)
  /-- A configuration that is no JSON, or has a value of the wrong type. -/
  | configCorrupted (path : Text)
  | configRejected (path reason : Text)
  | scanning (root : Text) (patterns : Nat)
  | scanFailed (root : Text) (why : FileSystem.Refusal)
  /-- A file above the limit of size. -/
  | skipped (path : Text) (size limit : Nat)
  | found (files : Nat)
  | noFolder
  | noFiles
  | failed (why : Failure)
  | folderDelivered (mode : Mode) (sink : Text) (files : Nat)
  | listDelivered (mode : Mode) (sink : Text) (files : Nat)
  deriving DecidableEq, Repr

namespace Event

def level : Event → Level
  | unusablePattern .. | skipped .. | noFiles => .warn
  | configCorrupted .. | configRejected .. | scanFailed .. | noFolder | failed .. => .error
  | configLoaded .. | scanning .. | found .. | folderDelivered .. | listDelivered .. => .info

def message : Event → Text
  | unusablePattern source => "Skipping unusable ignore pattern \x27" ++ source ++ "\x27"
  | configLoaded path extensions patterns =>
    "⚙️  Config loaded: " ++ Text.ofNat extensions ++ " extensions, " ++ Text.ofNat patterns ++
      " ignore patterns (" ++ path ++ ")"
  | configCorrupted path => "❌ Config corrupted at " ++ path
  | configRejected path reason => "❌ Config rejected at " ++ path ++ ": " ++ reason
  | scanning root patterns =>
    "🔍 Scanning " ++ root ++ " | Ignore patterns: " ++ Text.ofNat patterns
  | scanFailed root why => "Scanner error at " ++ root ++ ": " ++ why.reason
  | skipped path size limit =>
    "FILE | " ++ path ++ " | Action: SKIP (" ++ Text.ofNat size ++ " bytes > limit " ++
      Text.ofNat limit ++ ")"
  | found files => "Found " ++ Text.ofNat files ++ " text files"
  | noFolder => "Please select a valid folder."
  | noFiles => "No text files found in the selected folder and its subfolders."
  | failed why => "❌ Failed to build context: " ++ why.message
  | folderDelivered mode sink files =>
    "✅ Folder contents " ++ mode.label ++ "copied to " ++ sink ++ "! (" ++ Text.ofNat files ++
      " files)"
  | listDelivered mode sink files =>
    "✅ Contents of " ++ Text.ofNat files ++ " listed files " ++ mode.label ++ "copied to " ++
      sink ++ "!"

end Event

abbrev Log := List Event

/-- The warnings for the lines of an ignore file whose patterns do not compile. -/
def Log.ofUnusable (sources : List Text) : Log := sources.map .unusablePattern

end SourceBundle
