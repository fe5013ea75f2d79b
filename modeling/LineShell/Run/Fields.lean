import LineShell.Text.Basic
/-!
# Fields

A word becomes fields. Text is added to the field in progress; the output of a command that is not
quoted is divided at its blanks, its first piece goes to the field in progress and its last piece
stays open for what follows.
-/

namespace LineShell

/-- The fields of a word that are complete, and the one in progress. -/
structure Fields where
  closed : List Text
  current : Option Text
  deriving DecidableEq, Repr

namespace Fields

def empty : Fields := ⟨[], none⟩

/-- Add text to the field in progress, or open one with it. -/
def add (fields : Fields) (text : Text) : Fields :=
  { fields with current := some (fields.current.getD [] ++ text) }

def close (fields : Fields) : Fields :=
  ⟨fields.closed ++ fields.current.toList, none⟩

/-- Add pieces, and close a field between any two. -/
def addPieces (fields : Fields) : List Text → Fields
  | [] => fields
  | [piece] => fields.add piece
  | piece :: pieces => (fields.add piece).close.addPieces pieces

def closeIf (fields : Fields) (condition : Bool) : Fields :=
  if condition then fields.close else fields

def addOutput (fields : Fields) (output : Text) : Fields :=
  ((fields.closeIf output.startsBlank).addPieces output.words).closeIf output.endsBlank

def toList (fields : Fields) : List Text :=
  fields.close.closed

end Fields

end LineShell
