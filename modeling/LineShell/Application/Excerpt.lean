import LineShell.Application.Program
import LineShell.Text.Lines
/-!
# Cat, head and tail

Cat copies the files that its arguments name to its output, one after the other, or its input if
there are none. Head writes the first lines of a file or of its input, tail the last ones. How many
is an argument; by default it is ten.
-/

namespace LineShell

namespace Application

/-- Copy files one after the other; each is read when the one before it has been written. -/
def copyFiles : List Text → Program
  | [] => .exit
  | name :: names => .readNamed name fun bytes => .write bytes (copyFiles names)

def copyInput (call : Invocation) : Program :=
  if call.hasInput then
    .read none fun
      | .ok bytes => .write bytes .exit
      | .error cause => .fail (.inputCopy cause)
  else .fail .noInput

def cat : Application := fun call =>
  .needsOutput call (if call.args = [] then copyInput call else copyFiles call.args)

/-- How many lines to select, and from which file if one is named. -/
structure Selection where
  count : Nat
  file : Option Text
  deriving DecidableEq, Repr

def readCount (text : Text) : Except Failure Nat :=
  match text.parseCount with
  | .ok count => .ok count
  | .error cause => .error (.lineCount text cause)

/-- Read the arguments: optionally the flag `-n` and a count, then optionally a file. -/
def Selection.ofArgs (default : Nat) : List Text → Except Failure Selection
  | [] => .ok ⟨default, none⟩
  | [file] => if file.head? = some '-' then .error .lineArguments else .ok ⟨default, some file⟩
  | [flag, count] =>
    if flag = ['-', 'n'] then do return ⟨← readCount count, none⟩ else .error .lineArguments
  | [flag, count, file] =>
    if flag = ['-', 'n'] then do return ⟨← readCount count, some file⟩ else .error .lineArguments
  | _ => .error .lineArguments

/-- The number of lines that are written if no count is given. -/
def defaultLines : Nat := 10

/-- Write the lines that `select` keeps of a text, given the count. -/
def excerpt (select : Nat → List Text → List Text) : Application := fun call =>
  .needsOutput call <|
    match Selection.ofArgs defaultLines call.args with
    | .error failure => .fail failure
    | .ok selection =>
      .readText call selection.file fun text =>
        .writeText (select selection.count (splitAfter '\n' text)).flatten .exit

def takeLast {α : Type} (count : Nat) (list : List α) : List α :=
  list.drop (list.length - count)

def head : Application := excerpt List.take

def tail : Application := excerpt takeLast

end Application

end LineShell
