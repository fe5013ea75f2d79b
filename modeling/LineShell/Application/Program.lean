import LineShell.Application.Moment
import LineShell.Error
import LineShell.Text.Utf8
/-!
# Programs

An application is what a command calls by its name. Given its arguments it is a program: a tree of
steps that read the input, write the output, look at files, write files or ask for the time, and
that end in success or in a failure. Every program ends, whatever the answers to its steps are.
-/

namespace LineShell

inductive Program where
  /-- End with success. -/
  | exit
  /-- End with a failure. -/
  | fail (failure : Failure)
  /-- Read at most so many bytes of the input, or all that is left. -/
  | read (limit : Option Nat) (next : Except IoError Bytes → Program)
  /-- Write to the output. -/
  | write (bytes : Bytes) (next : Program)
  /-- Ask whether a path names a directory. -/
  | isDirectory (path : Text) (next : Bool → Program)
  /-- Read a whole file. -/
  | readFile (path : Text) (next : Except IoError Bytes → Program)
  /-- Create a file or replace its content. -/
  | writeFile (path : Text) (bytes : Bytes) (next : Except IoError Unit → Program)
  /-- Ask for the time. -/
  | time (next : Moment → Program)

structure Invocation where
  args : List Text
  /-- Whether there is an input to read from. -/
  hasInput : Bool
  /-- Whether there is an output to write to. -/
  hasOutput : Bool
  deriving DecidableEq, Repr

/-- An application is a program for each way of calling it. -/
abbrev Application := Invocation → Program

namespace Program

def needsOutput (call : Invocation) (program : Program) : Program :=
  if call.hasOutput then program else .fail .noOutput

def writeText (text : Text) (next : Program) : Program :=
  .write text.utf8 next

def readNamed (name : Text) (next : Bytes → Program) : Program :=
  .isDirectory name fun directory =>
    if directory then .fail (.directory name)
    else
      .readFile name fun
        | .ok bytes => next bytes
        | .error cause => .fail (.file name cause)

/-- Read the whole input as text, which must be well-formed. -/
def readInputText (call : Invocation) (next : Text → Program) : Program :=
  if call.hasInput then
    .read none fun
      | .error cause => .fail (.inputText cause)
      | .ok bytes =>
        match Utf8.decode? bytes with
        | some text => next text
        | none => .fail (.inputText .invalidUtf8)
  else .fail .noInput

/-- Read the text of a named file, ill-formed parts replaced, or of the input if no file is
named. -/
def readText (call : Invocation) (file : Option Text) (next : Text → Program) : Program :=
  match file with
  | some name => readNamed name fun bytes => next (Utf8.decodeLossy bytes)
  | none => readInputText call next

end Program

end LineShell
