import LineShell.Toml.Document
import LineShell.Tree.Path
/-!
# Settings

The shell reads its settings from a TOML file: a prompt, and whether wildcards match hidden names.
The settings of each group may be given in a table or, in order, in an array; those that are not
given have defaults.
-/

namespace LineShell

structure Settings where
  prompt : Text := ['$', ' ']
  includeHidden : Bool := false
  deriving DecidableEq, Repr

inductive SettingsError where
  | missing (path : Text)
  | unreadable (path : Text) (cause : IoError)
  | invalid (path : Text)
  deriving DecidableEq, Repr

def SettingsError.message : SettingsError → String
  | .missing path => s!"Config file not found: {String.ofList path}"
  | .unreadable path _ => s!"Failed to read {String.ofList path}"
  | .invalid path => s!"Failed to parse {String.ofList path}"

namespace Settings

def text? : Toml.Value → Option Text
  | .string text => some text
  | _ => none

def boolean? : Toml.Value → Option Bool
  | .boolean value => some value
  | _ => none

/-- Read a group with a single setting, under its key in a table or as the first item of an
array. -/
def single? {α : Type} (key : Text) (read : Toml.Value → Option α) (default : α) :
    Toml.Value → Option α
  | .table _ entries =>
    if entries.all (·.1 = key) then
      match entries.lookup key with
      | some value => read value
      | none => some default
    else none
  | .array _ [] => some default
  | .array _ (value :: _) => read value
  | _ => none

/-- Read a group of a document; a group that is not there has its default. -/
def group? {α : Type} (entries : Toml.Entries) (name key : Text) (read : Toml.Value → Option α)
    (default : α) : Option α :=
  match entries.lookup name with
  | some value => single? key read default value
  | none => some default

def ofEntries? (entries : Toml.Entries) : Option Settings := do
  let defaults : Settings := {}
  if entries.all fun (name, _) => name = "shell".toList || name = "glob".toList then
    let prompt ← group? entries "shell".toList "prompt".toList text? defaults.prompt
    let includeHidden ← group? entries "glob".toList "include_hidden".toList boolean?
      defaults.includeHidden
    return ⟨prompt, includeHidden⟩
  else none

def fileName : Text := "pas.toml".toList

/-- Read the settings in a file, whose path is seen from `directory`. -/
def ofFile (tree : FileTree) (directory : Location) (path : Text) : Except SettingsError Settings :=
  match tree.readFile directory path with
  | .error cause => .error (.unreadable path cause)
  | .ok bytes =>
    match Utf8.decode? bytes with
    | none => .error (.unreadable path .invalidUtf8)
    | some text =>
      match Toml.parse? text >>= ofEntries? with
      | some settings => .ok settings
      | none => .error (.invalid path)

/-- Load the settings from a given file, or from the file in the working directory if there is
one. -/
def load (tree : FileTree) (directory : Location) (explicit : Option Text) (cwd : Text) :
    Except SettingsError Settings :=
  match explicit with
  | some path =>
    if tree.exists? directory path then ofFile tree directory path else .error (.missing path)
  | none =>
    let path := Path.join cwd fileName
    if tree.exists? directory path then ofFile tree directory path else .ok {}

end Settings

end LineShell
