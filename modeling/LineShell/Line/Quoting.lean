import LineShell.Error
import LineShell.Text.Utf8
/-!
# Quoting

Each character of a line is read in a quoting state. Single quotes, double quotes and back-quotes
open and close such states, back-quotes also inside double quotes. A line must end as it began,
outside every quotation.
-/

namespace LineShell

inductive Quoting where
  | bare
  | single
  | double
  | back
  | backInDouble
  deriving DecidableEq, Repr

def Quoting.step : Quoting → Char → Quoting
  | .bare, '\'' => .single
  | .bare, '"' => .double
  | .bare, '`' => .back
  | .single, '\'' => .bare
  | .double, '"' => .bare
  | .double, '`' => .backInDouble
  | .back, '`' => .bare
  | .backInDouble, '`' => .double
  | quoting, _ => quoting

/-- A character with its byte offset and the state in which it is read. -/
structure Mark where
  offset : Nat
  char : Char
  quoting : Quoting
  deriving DecidableEq, Repr

namespace Text

/-- Whether every quotation that the text opens is closed. -/
def balanced (text : Text) : Bool :=
  text.foldl Quoting.step .bare = .bare

/-- The marks of a text that starts at an offset in a given state. -/
def marksFrom (offset : Nat) (quoting : Quoting) : Text → List Mark
  | [] => []
  | c :: rest => ⟨offset, c, quoting⟩ :: marksFrom (offset + c.utf8Size) (quoting.step c) rest

def scan (text : Text) : Except ShellError (List Mark) :=
  if text.balanced then .ok (marksFrom 0 .bare text) else .error .malformed

/-- The pieces between the separators that are read in the bare state. -/
def unquotedPieces (separator : Char) (quoting : Quoting) : Text → List Text
  | [] => [[]]
  | c :: rest =>
    let pieces := unquotedPieces separator (quoting.step c) rest
    if c = separator ∧ quoting = .bare then [] :: pieces else pieces.modifyHead (c :: ·)

/-- Split a balanced text at each separator outside quotations. -/
def splitUnquoted (separator : Char) (text : Text) : Except ShellError (List Text) :=
  if text.balanced then .ok (unquotedPieces separator .bare text) else .error .malformed

/-- The segments of a line, which `;` separates; a blank line has none and no segment is blank. -/
def segments (line : Text) : Except ShellError (List Text) :=
  if line.all isBlank then .ok []
  else do
    let segments ← splitUnquoted ';' line
    if segments.any (·.all isBlank) then .error .malformed else .ok segments

end Text

end LineShell
