import SourceBundle.Bundle
import SourceBundle.Collector.Drawing
import SourceBundle.Collector.Files
import SourceBundle.CommandLine.Options
import SourceBundle.Config.Load
import SourceBundle.FileTree.Storage
import SourceBundle.Ignore.Ancestors
/-!
# Runs

A run reads its arguments, its standard input and a file system, and leaves an outcome. All reading
comes before the one write, so a run that fails has written nothing, unless it is the write that has
failed.
-/
namespace SourceBundle.CommandLine

open Text

/-! ## Outcomes -/

structure Outcome where
  exitCode : Nat
  out : Text
  err : Text
  log : Log
  /-- The file system afterwards. -/
  fs : FileSystem

/-- Nothing written, only reported. -/
def Outcome.quiet (exitCode : Nat) (log : Log) (fs : FileSystem) : Outcome :=
  ⟨exitCode, [], [], log, fs⟩

/-- What is left of a text once it has been delivered, or should have been. -/
structure Delivery where
  /-- The name of the place it went to, or why it did not go there. -/
  sink : Except Failure Text
  out : Text
  fs : FileSystem

section

variable [Storage]

/-- Puts a text into a file, or on standard output. -/
def deliver (fs : FileSystem) (output : Option Text) (text : Text) : Delivery :=
  match output with
  | none =>
    let w := Storage.toOutput text
    ⟨if w.complete then .ok "stdout" else .error .outputFailed, w.held, fs⟩
  | some path =>
    match (fs.target? path).filter Storage.opens with
    | none => ⟨.error (.cannotWrite path), [], fs⟩
    | some names =>
      let w := Storage.toFile names text
      ⟨if w.complete then .ok path else .error (.writeFailed path), [], fs.store names w.held⟩

/-- The end of a run: the text that it has come to is delivered, and what came of it is reported. -/
def conclude (fs : FileSystem) (output : Option Text) (log : Log) (report : Text → Log) :
    Except Failure Text → Outcome
  | .error why => .quiet 1 (log ++ [.failed why]) fs
  | .ok text =>
    let d := deliver fs output text
    match d.sink with
    | .ok sink => ⟨0, d.out, [], log ++ report sink, d.fs⟩
    | .error why => ⟨1, d.out, [], log ++ [.failed why], d.fs⟩

end

/-- The content of a listed file. -/
def readFile (fs : FileSystem) (path : Text) : Except Failure Text :=
  match fs.read? path with
  | some content => .ok content
  | none => .error (.cannotOpen path)

/-! ## What there is to bundle -/

/-- The bundle of files given one by one. -/
def bundleOfFiles (fs : FileSystem) (mode : Mode) (files : List Text) : Except Failure Text := do
  let source (file : Text) : Except Failure Bundle.Source := do
    return ⟨Path.shownFrom (Ignore.workingPath fs) file, ← readFile fs file⟩
  return Bundle.ofList mode (← files.mapM source)

/-- The lines of patterns that count for a folder: those of its ignore files, then its settings. -/
def patternLines (fs : FileSystem) (folder : Text) (config : Config) : List Text :=
  Ignore.linesFor fs folder ++ config.ignorePatterns

/-- The collector of a folder. -/
def collectorOf (fs : FileSystem) (folder : Text) (config : Config) (patterns : List Text) :
    Collector :=
  ⟨fs, Collector.rootOf folder, config, Ignore.Rules.ofLines patterns⟩

/-- The name a folder is shown by. -/
def folderName (fs : FileSystem) (root : Text) : Text :=
  (Path.absolute (Ignore.workingPath fs) root).dropTrailing.fileName

/-- The bundle of what a collector finds. -/
def bundleOf (c : Collector) (mode : Mode) : Except Failure Text := do
  let source (f : Collected) : Except Failure Bundle.Source := do
    return ⟨f.relative, ← readFile c.fs f.absolute⟩
  return Bundle.ofFolder mode (folderName c.fs c.root) c.drawing (← c.files.mapM source)

/-! ## The three sources -/

section

variable [Storage]

/-- Standard input, as the mode shows it. -/
def Outcome.ofStdin (fs : FileSystem) (o : Options) (input : Text) : Outcome :=
  conclude fs o.output [] (fun _ => []) (.ok ((o.mode.getD .skeleton).transform input))

/-- Files given one by one. -/
def Outcome.ofFiles (fs : FileSystem) (o : Options) : Outcome :=
  let mode := o.mode.getD .skeleton
  conclude fs o.output [] (fun sink => [.listDelivered mode sink o.files.length])
    (bundleOfFiles fs mode o.files)

/-- A folder with usable settings. -/
def Outcome.ofCollector (c : Collector) (o : Options) (log : Log) : Outcome :=
  let mode := o.mode.getD (c.config.mode.getD .skeleton)
  if c.files.isEmpty then .quiet 0 (log ++ [.noFiles]) c.fs
  else
    conclude c.fs o.output log (fun sink => [.folderDelivered mode sink c.files.length])
      (bundleOf c mode)

/-- A folder. -/
def Outcome.ofFolder [JsonLibrary] (fs : FileSystem) (o : Options) (folder : Text) : Outcome :=
  if !fs.isFolder folder then .quiet 1 [.noFolder] fs
  else
    match Config.load fs folder with
    | .error why => .quiet 1 [.failed why] fs
    | .ok (config, configLog) =>
      let patterns := patternLines fs folder config
      let c := collectorOf fs folder config patterns
      Outcome.ofCollector c o
        (configLog ++ Log.ofUnusable (patterns.filterMap Ignore.unusable?) ++ c.scanLog)

end

/-! ## A whole run -/

def usage : Text :=
  (["Usage:",
    "  smart_context [options] <folder>",
    "  smart_context [options] --files <file>...",
    "  smart_context [options] --stdin",
    "",
    "Options:",
    "  -m, --mode <full|min|skeleton>  content mode (default: config, else skeleton)",
    "  -o, --output <file>             write the result to a file instead of stdout",
    "      --files <file>...           bundle the listed files instead of a folder",
    "      --stdin                     transform standard input (no bundle headers)",
    "  -v, --verbose                   debug logging",
    "  -q, --quiet                     warnings and errors only",
    "      --version                   print the version",
    "  -h, --help                      show this help"] : List String).flatMap fun l =>
    ofString l ++ [newline]

def version : Text := "1.0.10"

/-- Whether an event is reported under these options. -/
def isShown (o : Options) (e : Event) : Bool := o.verbose || !o.quiet || e.level != .info

section

variable [JsonLibrary] [Storage]

/-- A run of options that name a source. -/
def Outcome.ofSource (fs : FileSystem) (o : Options) (input : Text) : Outcome :=
  let outcome :=
    if o.stdin then Outcome.ofStdin fs o input
    else
      match o.folder with
      | some folder => Outcome.ofFolder fs o folder
      | none => Outcome.ofFiles fs o
  { outcome with log := outcome.log.filter (isShown o) }

/-- A text that is printed and nothing else done. Whether all of it was taken is not asked. -/
def Outcome.printed (fs : FileSystem) (text : Text) : Outcome :=
  ⟨0, (Storage.toOutput text).held, [], [], fs⟩

def run (fs : FileSystem) (args : List Text) (input : Text) : Outcome :=
  match Options.ofArguments args with
  | .error e => ⟨2, [], "smart_context: " ++ e.message ++ "\n\n" ++ usage, [], fs⟩
  | .ok o =>
    if o.help then .printed fs usage
    else if o.version then .printed fs ("smart_context " ++ version ++ "\n")
    else Outcome.ofSource fs o input

end

end SourceBundle.CommandLine
