import LineShell.Line.Token
/-!
# Words

A word of a command is a sequence of parts: text that stands for itself, text in which `*` is a
wildcard, and commands whose output takes their place. Back-quotes divide a token's text into these
parts.
-/

namespace LineShell

inductive Part where
  /-- Text that stands for itself. -/
  | literal (text : Text)
  /-- Text in which `*` is a wildcard if the word has no other part. -/
  | pattern (text : Text)
  /-- A command whose output takes its place, in double quotes or not. -/
  | command (text : Text) (quoted : Bool)
  deriving DecidableEq, Repr

abbrev Word := List Part

namespace Word

/-- The parts of consecutive pieces, every second of which is a command. Empty pieces between
commands are left out. -/
def ofPieces (quoted : Bool) : (inCommand : Bool) → List Text → Word
  | _, [] => []
  | true, piece :: pieces => .command piece quoted :: ofPieces quoted false pieces
  | false, [] :: pieces => ofPieces quoted true pieces
  | false, piece :: pieces =>
    (if quoted then .literal piece else .pattern piece) :: ofPieces quoted true pieces

/-- The parts into which back-quotes divide a text. -/
def ofSpans (text : Text) (quoted : Bool) : Word :=
  ofPieces quoted false (text.splitOn '`')

def ofToken (token : Token) : Word :=
  match token.kind with
  | .word | .backQuoted => ofSpans token.raw false
  | .interpolated => ofSpans token.value true
  | .flag | .doubleQuoted | .singleQuoted => [.literal token.value]

end Word

end LineShell
