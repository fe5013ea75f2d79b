import LineShell.Line.Quoting
import LineShell.Line.Redirection
import LineShell.Line.Word
/-!
# Commands and pipelines

A line is divided into segments, a segment into the commands of a pipeline, a command into its words
and its redirections. Only the first command of a pipeline may read a file and only the last may
write one.
-/

namespace LineShell

/-- A command as written: its words, not yet expanded, and its redirections. -/
structure Command where
  words : List Word
  input : Option Text
  output : Option Text
  deriving DecidableEq, Repr

/-- Commands each of which reads what the one before it writes. -/
abbrev Pipeline := List Command

def Command.ofText (scope : Scope) (tree : FileTree) (text : Text) : Except ShellError Command := do
  let (tokens, rest) ← text.trim.tokenize
  let redirections ← Redirections.ofText scope tree rest
  if tokens = [] then throw .malformed
  return ⟨tokens.map Word.ofToken, redirections.input, redirections.output⟩

namespace Pipeline

/-- Whether only the first command reads a file and only the last writes one. -/
def isPlaced (pipeline : Pipeline) : Bool :=
  pipeline.tail.all (·.input = none) && pipeline.dropLast.all (·.output = none)

def ofText (scope : Scope) (tree : FileTree) (text : Text) : Except ShellError Pipeline := do
  let texts ← text.splitUnquoted '|'
  let commands ← texts.mapM fun text =>
    if text.all Text.isBlank then .error .malformed else Command.ofText scope tree text
  if isPlaced commands then return commands else throw .pipedRedirection

def ofLine (scope : Scope) (tree : FileTree) (line : Text) : Except ShellError (List Pipeline) := do
  (← line.segments).mapM (ofText scope tree)

end Pipeline

end LineShell
