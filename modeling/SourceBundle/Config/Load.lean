import SourceBundle.Config.Decode
import SourceBundle.Log
/-!
# The settings of a folder

A folder may hold settings in one of two places. Settings that cannot be used are reported, and the
built-in ones stand in for them.
-/
namespace SourceBundle.Config

open FileSystem

/-- Where a folder's settings may stand; the first that exists counts. -/
def placesIn (folder : Text) : List Text :=
  [Path.join (Path.join folder ".smart_context") "config.json",
    Path.join folder ".smart_context.json"]

/-- The first of some paths that leads to something, and what it leads to. -/
def firstOf (fs : FileSystem) : List Text → Except Failure (Option (Text × Entry))
  | [] => .ok none
  | path :: paths =>
    match fs.find path with
    | .ok e => .ok (some (path, e))
    | .error .missing | .error .notFolder => firstOf fs paths
    | .error why => .error (.cannotLookUp path why)

/-- Settings that were read, with the report of it. -/
def accepted (path : Text) (c : Config) : Config × Log :=
  ({ c with source := path },
    [.configLoaded path c.extensions.length c.ignorePatterns.length])

/-- What the entry at a path says. -/
def ofEntry [JsonLibrary] (path : Text) : Entry → Config × Log
  | .file content =>
    match ofText content with
    | .ok c => accepted path c
    | .error (.unknownMode name) => (builtIn, [.configRejected path (Mode.unknown name)])
    | .error _ => (builtIn, [.configCorrupted path])
  | _ => (builtIn, [.configRejected path "Is a directory"])

/-- The settings of a folder, and what there is to report. -/
def load [JsonLibrary] (fs : FileSystem) (folder : Text) : Except Failure (Config × Log) := do
  match ← firstOf fs (placesIn folder) with
  | none => return (builtIn, [])
  | some (path, e) => return ofEntry path e

end SourceBundle.Config
