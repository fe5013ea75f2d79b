import LineShell.Run.Evaluation
import LineShell.Settings
/-!
# The command line

The program evaluates one line that its arguments give, or every line of its input. Arguments are
read from left to right; the first that asks for the version or that cannot be read decides.
-/

namespace LineShell

inductive ValueOption where
  | command
  | config
  | directory
  deriving DecidableEq, Repr

structure Options where
  command : Option Text := none
  config : Option Text := none
  directory : Option Text := none
  deriving DecidableEq, Repr

inductive Request where
  | evaluate (options : Options)
  | version
  | help
  /-- The arguments cannot be read. -/
  | misuse
  deriving DecidableEq, Repr

namespace Options

def get? (options : Options) : ValueOption → Option Text
  | .command => options.command
  | .config => options.config
  | .directory => options.directory

/-- Give an option a value: at most once, and no path is empty. -/
def set? (options : Options) (option : ValueOption) (value : Text) : Option Options :=
  if (options.get? option).isSome then none
  else
    match option with
    | .command => some { options with command := some value }
    | .config => if value = [] then none else some { options with config := some value }
    | .directory => if value = [] then none else some { options with directory := some value }

end Options

namespace Request

inductive Argument where
  | version
  | help
  /-- An option with its value. -/
  | valued (option : ValueOption) (value : Text)
  /-- An option whose value is the next argument. -/
  | awaiting (option : ValueOption)
  /-- No option follows. -/
  | finish
  | unknown

def longOption? (name : Text) : Option ValueOption :=
  if name = "command".toList then some .command
  else if name = "config".toList then some .config
  else if name = "dir".toList then some .directory
  else none

def shortOption? (letter : Char) : Option ValueOption :=
  if letter = 'c' then some .command
  else if letter = 'C' then some .directory
  else none

/-- Read an argument with two hyphens; an equals sign introduces a value. -/
def readLong (text : Text) : Argument :=
  let name := text.takeWhile (· ≠ '=')
  match longOption? name, text.dropWhile (· ≠ '=') with
  | some option, [] => .awaiting option
  | some option, _ :: value => .valued option value
  | none, [] =>
    if name = "version".toList then .version
    else if name = "help".toList then .help
    else .unknown
  | none, _ :: _ => .unknown

/-- Read an argument with one hyphen; a value may follow the letter, also after an equals sign. -/
def readShort (letter : Char) (text : Text) : Argument :=
  match shortOption? letter, text with
  | some option, [] => .awaiting option
  | some option, '=' :: value => .valued option value
  | some option, value => .valued option value
  | none, _ => if letter = 'V' then .version else if letter = 'h' then .help else .unknown

def readArgument : Text → Argument
  | ['-', '-'] => .finish
  | '-' :: '-' :: text => readLong text
  | '-' :: letter :: text => readShort letter text
  | _ => .unknown

def isValue : Text → Bool
  | '-' :: _ :: _ => false
  | _ => true

/-- Read the arguments that follow those which gave `options`. -/
def ofArgsFrom (options : Options) : List Text → Request
  | [] => .evaluate options
  | arg :: args =>
    match readArgument arg with
    | .version => .version
    | .help => .help
    | .finish => if args = [] then .evaluate options else .misuse
    | .unknown => .misuse
    | .valued option value =>
      match options.set? option value with
      | some options => ofArgsFrom options args
      | none => .misuse
    | .awaiting option =>
      match args with
      | [] => .misuse
      | value :: args =>
        if isValue value then
          match options.set? option value with
          | some options => ofArgsFrom options args
          | none => .misuse
        else .misuse

def ofArgs (args : List Text) : Request :=
  ofArgsFrom {} args

end Request

structure Outcome where
  code : Nat
  stdout : Bytes
  stderr : Text
  tree : FileTree

namespace CommandLine

def versionLine : Text := "pas 0.1.0-preview.2\n".toList

def helpText : Text :=
  ("Usage: pas [OPTIONS]\n\nOptions:\n" ++
    "  -c, --command <COMMAND>  Evaluate a single command line and exit\n" ++
    "      --config <CONFIG>    Read settings from this file instead of ./pas.toml\n" ++
    "  -C, --dir <DIR>          Resolve relative paths against this directory\n" ++
    "  -h, --help               Print help\n" ++
    "  -V, --version            Print version\n").toList

def misuseText : Text :=
  "error: invalid arguments\n\nUsage: pas [OPTIONS]\n\nFor more information, try '--help'.\n".toList

def fatalText (message : String) (cause : Option String) : Text :=
  match cause with
  | none => s!"Error: {message}\n".toList
  | some cause => s!"Error: {message}\n\nCaused by:\n    {cause}\n".toList

def errorText (error : ShellError) : Text :=
  s!"pas: {error.message}\n".toList

def runOnce (env : Environment) (line : Text) (stdin : Bytes) (tree : FileTree) : Outcome :=
  match runLine env line ⟨tree, some stdin, [], []⟩ with
  | .ok _ machine => ⟨0, machine.stdout, [], machine.tree⟩
  | .error error machine => ⟨1, machine.stdout, errorText error, machine.tree⟩

/-- Evaluate lines one after the other, whether or not those before them failed. The lines come from
the input, so applications have none. -/
def runLines (env : Environment) : List Bytes → Outcome → Outcome
  | [], outcome => outcome
  | bytes :: lines, outcome =>
    match Utf8.decode? bytes with
    | none =>
      let text := fatalText "Failed to read command line" (some IoError.invalidUtf8.message)
      { outcome with code := 1, stderr := outcome.stderr ++ text }
    | some line =>
      match runLine env line.chomp ⟨outcome.tree, none, outcome.stdout, []⟩ with
      | .ok _ machine =>
        runLines env lines { outcome with stdout := machine.stdout, tree := machine.tree }
      | .error error machine =>
        runLines env lines
          { outcome with
            stdout := machine.stdout
            stderr := outcome.stderr ++ errorText error
            tree := machine.tree }

/-- The cause of an error in the settings, as far as the file system gives it. -/
def settingsCause : SettingsError → Option String
  | .unreadable _ cause => some cause.message
  | _ => none

/-- The working directory: the given one with its links resolved, or the one where the program
starts. -/
def workingDirectory (tree : FileTree) (start : Location) : Option Text → Except IoError Text
  | none => .ok start.path
  | some path => do return Location.path (← tree.canonical start path)

/-- Evaluate as the options say, from a directory where the program starts. -/
def evaluate (now : Moment) (start : Location) (options : Options) (stdin : Bytes)
    (tree : FileTree) : Outcome :=
  match workingDirectory tree start options.directory with
  | .error cause =>
    let message := s!"Cannot enter {String.ofList (options.directory.getD [])}"
    ⟨1, [], fatalText message (some cause.message), tree⟩
  | .ok cwd =>
    match Settings.load tree start options.config cwd with
    | .error error => ⟨1, [], fatalText error.message (settingsCause error), tree⟩
    | .ok settings =>
      let env : Environment := ⟨⟨cwd, settings.includeHidden⟩, .builtin, now⟩
      match options.command with
      | some line => runOnce env line stdin tree
      | none => runLines env (splitAfter 10 stdin) ⟨0, [], [], tree⟩

def run (now : Moment) (start : Location) (args : List Text) (stdin : Bytes) (tree : FileTree) :
    Outcome :=
  match Request.ofArgs args with
  | .version => ⟨0, versionLine.utf8, [], tree⟩
  | .help => ⟨0, helpText.utf8, [], tree⟩
  | .misuse => ⟨2, [], misuseText, tree⟩
  | .evaluate options => evaluate now start options stdin tree

end CommandLine

end LineShell
