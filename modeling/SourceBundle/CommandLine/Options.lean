import SourceBundle.Mode
/-!
# Options

Reading an argument list. Arguments are taken from left to right; every operand after `--files` is a
file, and a run has exactly one source.
-/
namespace SourceBundle

/-- What a command line asks for. -/
structure Options where
  mode : Option Mode := none
  output : Option Text := none
  folder : Option Text := none
  files : List Text := []
  stdin : Bool := false
  verbose : Bool := false
  quiet : Bool := false
  help : Bool := false
  version : Bool := false
  deriving DecidableEq, Repr

inductive UsageError where
  | missingValue (option : Text)
  | unknownMode (name : Text)
  | unknownOption (option : Text)
  | unexpected (operand : Text)
  | noSource
  | manySources
  | noFiles
  deriving DecidableEq, Repr

def UsageError.message : UsageError → Text
  | missingValue option => "missing value for " ++ option
  | unknownMode name => Mode.unknown name
  | unknownOption option => "unknown option " ++ option
  | unexpected operand => "unexpected argument " ++ operand
  | noSource => "nothing to do: give a folder, --files or --stdin"
  | manySources => "a folder, --files and --stdin are mutually exclusive"
  | noFiles => "--files needs at least one file"

/-! ## Words -/

/-- An option that stands by itself. -/
inductive Flag where
  | help
  | version
  | verbose
  | quiet
  | stdin
  deriving DecidableEq, Repr

/-- What an argument is by its spelling. -/
inductive Word where
  | flag (f : Flag)
  /-- Takes the next argument as the mode. -/
  | mode
  /-- Takes the next argument as the output path. -/
  | output
  /-- Makes files of the operands that follow. -/
  | files
  | unknown
  | operand
  deriving DecidableEq, Repr

namespace Options

def spellings : List (Text × Word) :=
  [("-h", .flag .help), ("--help", .flag .help), ("--version", .flag .version),
    ("-v", .flag .verbose), ("--verbose", .flag .verbose), ("-q", .flag .quiet),
    ("--quiet", .flag .quiet), ("--stdin", .flag .stdin), ("-m", .mode), ("--mode", .mode),
    ("-o", .output), ("--output", .output), ("--files", .files)]

def wordOf (arg : Text) : Word :=
  match spellings.lookup arg with
  | some w => w
  | none => if arg.head? = some Text.dash then .unknown else .operand

def set (o : Options) : Flag → Options
  | .help => { o with help := true }
  | .version => { o with version := true }
  | .verbose => { o with verbose := true }
  | .quiet => { o with quiet := true }
  | .stdin => { o with stdin := true }

/-! ## Argument lists -/

/-- The options so far, and whether operands are files. -/
structure Draft where
  options : Options
  listing : Bool
  deriving DecidableEq, Repr

def Draft.addOperand (d : Draft) (arg : Text) : Except UsageError Draft :=
  if d.listing then
    .ok { d with options := { d.options with files := d.options.files ++ [arg] } }
  else if d.options.folder.isNone then
    .ok { d with options := { d.options with folder := some arg } }
  else .error (.unexpected arg)

def Draft.setMode (d : Draft) (name : Text) : Except UsageError Draft :=
  match Mode.ofName? name with
  | some m => .ok { d with options := { d.options with mode := some m } }
  | none => .error (.unknownMode name)

def Draft.setOutput (d : Draft) (path : Text) : Draft :=
  { d with options := { d.options with output := some path } }

/-- Takes the arguments one after another. -/
def Draft.read (d : Draft) : List Text → Except UsageError Draft
  | [] => .ok d
  | arg :: rest =>
    match wordOf arg, rest with
    | .flag f, rest => Draft.read { d with options := d.options.set f } rest
    | .files, rest => Draft.read { d with listing := true } rest
    | .unknown, _ => .error (.unknownOption arg)
    | .operand, rest => (d.addOperand arg).bind (Draft.read · rest)
    | .mode, name :: rest => (d.setMode name).bind (Draft.read · rest)
    | .output, path :: rest => Draft.read (d.setOutput path) rest
    | .mode, [] | .output, [] => .error (.missingValue arg)

/-- The sources a draft names. -/
def Draft.sources (d : Draft) : Nat :=
  d.options.folder.isSome.toNat + d.listing.toNat + d.options.stdin.toNat

/-- The options of a draft, which needs one source unless it asks for help or the version. -/
def Draft.finish (d : Draft) : Except UsageError Options :=
  if d.options.help || d.options.version then .ok d.options
  else if d.sources = 0 then .error .noSource
  else if 1 < d.sources then .error .manySources
  else if d.listing && d.options.files.isEmpty then .error .noFiles
  else .ok d.options

/-- The options of an argument list. -/
def ofArguments (args : List Text) : Except UsageError Options :=
  (Draft.read ⟨{}, false⟩ args).bind Draft.finish

end Options
end SourceBundle
