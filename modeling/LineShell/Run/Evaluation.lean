import LineShell.Line.Command
import LineShell.Run.Fields
import LineShell.Run.Stage
import LineShell.Text.Lines
/-!
# Evaluation of lines

A line is read as a whole. Then each of its pipelines is expanded, which runs the commands in
back-quotes from left to right, and run. The text between two back-quotes has none itself, so these
commands do not nest.
-/

namespace LineShell

/-- How the output of a command in back-quotes is obtained. -/
abbrev Capture := Text → ShellM Text

def Part.expand (capture : Capture) (fields : Fields) : Part → ShellM Fields
  | .literal text => pure (fields.add text)
  | .pattern text => pure (fields.add text)
  | .command text true => do return fields.add (← capture text)
  | .command text false => do return fields.addOutput (← capture text)

/-- The fields of a word. A pattern that is a whole word stands for its matches. -/
def Word.expand (scope : Scope) (capture : Capture) : Word → ShellM (List Text)
  | [.pattern text] => ShellM.ofTree fun tree => Glob.expandArgument scope tree text
  | word => do return (← word.foldlM (Part.expand capture) Fields.empty).toList

/-- The stage that a command stands for. Its first field names the application; without fields the
name is empty. -/
def Command.expand (scope : Scope) (capture : Capture) (command : Command) : ShellM Stage := do
  let fields := (← command.words.mapM (Word.expand scope capture)).flatten
  return ⟨fields.headD [], fields.tail, command.input, command.output⟩

def Pipeline.expand (scope : Scope) (capture : Capture) (pipeline : Pipeline) :
    ShellM (List Stage) :=
  pipeline.mapM (Command.expand scope capture)

def Pipeline.run (env : Environment) (capture : Capture) (pipeline : Pipeline) : ShellM Unit := do
  Stage.runAll env (← pipeline.expand env.toScope capture)

def runLineWith (env : Environment) (capture : Capture) (line : Text) : ShellM Unit := do
  let pipelines ← ShellM.ofTree fun tree => Pipeline.ofLine env.toScope tree line
  pipelines.forM (Pipeline.run env capture)

/-- Run a line without input and return its output on one line, if commands in back-quotes nest less
than `depth` deep. -/
def captureWithin (env : Environment) : (depth : Nat) → Capture
  | 0, _ => throw .malformed
  | depth + 1, line => do
    let output ← ShellM.collecting
      (ShellM.feeding none (runLineWith env (captureWithin env depth) line))
    return (Utf8.decodeLossy output).flattenLines

/-- A line may have commands in back-quotes, and these have none. -/
def maxDepth : Nat := 2

/-- Run a line without input and return its output on one line. -/
def capture (env : Environment) : Capture :=
  captureWithin env maxDepth

def runLine (env : Environment) (line : Text) : ShellM Unit :=
  runLineWith env (capture env) line

end LineShell
