import SourceBundle.CommandLine.Run
import SourceBundle.FileTree.Build
import SourceBundle.Json.Parser
/-!
# The program

The outer layer around `CommandLine.run`: it gathers the files that the arguments name, writes out
what a run leaves where everything is taken, and runs once more with what has become of the write.
Folders cannot be listed from here, so a run on a folder reads the paths below it from standard
input, one a line, with a slash after each folder's.
-/
namespace SourceBundle.Main

open Text

/-! ## Reading -/

def pathString? (path : Text) : Option String := String.fromUTF8? ⟨path.toArray⟩

/-- Everything a stream still holds. -/
partial def readAll (input : IO.FS.Stream) (done : ByteArray) : IO ByteArray := do
  let chunk ← input.read 65536
  if chunk.isEmpty then return done else readAll input (done ++ chunk)

/-- The file at a path, where there is one that can be read. -/
def readItem? (path : Text) : IO (Option FileSystem.Item) := do
  match pathString? path with
  | none => return none
  | some name =>
    try
      let content ← IO.FS.readBinFile name
      return some ⟨path, .file content.data.toList⟩
    catch _ => return none

/-- The working folder's names. -/
def workingNames : IO (List Text) := do
  return (Path.ofText ((← IO.getEnv "PWD").getD "/")).dropTrailing.names

/-- The paths to read for these options: listed files, or a folder's files, its ignore files and
its settings. -/
def wanted (fs : FileSystem) (o : Options) (listing : List Text) : List Text :=
  match o.folder with
  | none => o.files
  | some folder =>
    let ignoreFiles := (Ignore.ancestors fs folder).flatMap fun dir =>
      Ignore.fileNames.map (Path.join dir)
    listing.filter (·.getLast? != some slash) ++ ignoreFiles ++ Config.placesIn folder

/-- The folders that are known to exist: the listed ones and the one the output goes to. -/
def folders (o : Options) (listing : List Text) : List FileSystem.Item :=
  let above := o.output.toList.map fun p =>
    let p := Path.ofText p
    Path.toText { p with names := p.names.dropLast }
  ((listing.filter (·.getLast? == some slash)) ++ above).map fun p => ⟨p, .folder .empty⟩

/-- The file system as far as these options ask for it. -/
def gather (o : Options) (listing : List Text) : IO FileSystem := do
  let names ← workingNames
  let bare : FileSystem :=
    FileSystem.addFolders ⟨.empty, names⟩ ⟨true, names⟩
  let items ← (wanted bare o listing).filterMapM readItem?
  return (folders o listing ++ items).foldl FileSystem.add bare

/-! ## Writing -/

def writeText (output : IO.FS.Stream) (t : Text) : IO Unit := do
  output.write ⟨t.toArray⟩
  output.flush

def writeLog (log : Log) : IO Unit := do
  let err ← IO.getStderr
  for e in log do
    writeText err ("[" ++ e.level.name ++ "] " ++ e.message ++ "\n")

/-- A storage of which it is known whether its files open and whether a write is completed. -/
@[reducible] def storageOf (opens complete : Bool) : Storage where
  opens _ := opens
  toFile _ text := ⟨text, complete⟩
  toOutput text := ⟨text, complete⟩
  held_toOutput _ _ := rfl

/-- Whether something can be done. -/
def succeeds (action : IO Unit) : IO Bool := do
  try
    action
    return true
  catch _ => return false

def openFile? (path : Text) : IO (Option IO.FS.Handle) := do
  match pathString? path with
  | none => return none
  | some name =>
    try return some (← IO.FS.Handle.mk name .write)
    catch _ => return none

/-- Writes a file, and tells what became of that. -/
def writeFile (path content : Text) : IO Storage := do
  match ← openFile? path with
  | none => return storageOf false true
  | some file =>
    return storageOf true (← succeeds do
      file.write ⟨content.toArray⟩
      file.flush)

/-- Prints a text, and tells what became of that. -/
def printText (text : Text) : IO Storage := do
  return storageOf true (← succeeds do writeText (← IO.getStdout) text)

/-! ## A run -/

/-- A run of options that name a source. Whether it delivers a text to its output path is told by
whether it minds that no file opens. -/
def runOptions (o : Options) (args : List Text) : IO UInt32 := do
  let input ← if o.stdin || o.folder.isSome then readAll (← IO.getStdin) .empty else pure .empty
  let input := input.data.toList
  let listing := if o.folder.isSome then (lines input).filter (!·.isEmpty) else []
  let fs ← gather o listing
  let runOn (storage : Storage) : CommandLine.Outcome :=
    letI := storage
    CommandLine.run fs args input
  let planned := runOn (storageOf true true)
  let delivers := (runOn (storageOf false true)).exitCode != planned.exitCode
  let storage ← match o.output with
    | none => printText planned.out
    | some path =>
      match planned.fs.contentOf? path with
      | some content => if delivers then writeFile path content else pure (storageOf true true)
      | none => pure (storageOf true true)
  let outcome := runOn storage
  writeLog outcome.log
  return outcome.exitCode.toUInt32

/-- A whole run, with its exit code. -/
def program (args : List Text) : IO UInt32 := do
  match Options.ofArguments args with
  | .ok o =>
    if !(o.help || o.version) then return ← runOptions o args
  | .error _ => pure ()
  let outcome := CommandLine.run ⟨.empty, []⟩ args []
  writeText (← IO.getStdout) outcome.out
  writeText (← IO.getStderr) outcome.err
  return outcome.exitCode.toUInt32

end SourceBundle.Main

def main (args : List String) : IO UInt32 :=
  SourceBundle.Main.program (args.map SourceBundle.Text.ofString)
