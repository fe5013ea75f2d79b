import LineShell.Application.Program
import LineShell.Text.Decimal
import LineShell.Text.Lines
/-!
# Sort

Sort writes the lines of a file or of its input in order: by their bytes, or first by the numbers
they start with.
-/

namespace LineShell

namespace Application

/-- The longest start of a text that is made of digits and points, with an optional minus sign in
front. -/
def numberPart : Text → Text
  | '-' :: text => '-' :: text.takeWhile fun c => c.isDigit || c = '.'
  | text => text.takeWhile fun c => c.isDigit || c = '.'

/-- The place of the number that a line starts with; a line without one counts as zero. -/
def numberRank (line : Text) : Int :=
  match Decimal.ofText? (numberPart line.trimStart) with
  | some number => number.rank
  | none => 0

/-- The order of lines by their numbers, and by their bytes where the numbers agree. -/
def numberPrecedes (left right : Text) : Bool :=
  numberRank left < numberRank right || (numberRank left = numberRank right && left.precedes right)

def lineOrder (numeric : Bool) : Text → Text → Bool :=
  if numeric then numberPrecedes else Text.precedes

structure Sorting where
  numeric : Bool
  file : Option Text
  deriving DecidableEq, Repr

/-- Read the arguments: the flag `-n` any number of times and at most one file, in any order. -/
def Sorting.ofArgs (sorting : Sorting) : List Text → Except Failure Sorting
  | [] => .ok sorting
  | arg :: args =>
    if arg = ['-', 'n'] then { sorting with numeric := true }.ofArgs args
    else if arg.head? = some '-' then .error (.unknownOption arg)
    else if sorting.file.isSome then .error .secondFile
    else { sorting with file := some arg }.ofArgs args

/-- The lines of a text in order, each with a line feed at its end. -/
def sortLines (numeric : Bool) (text : Text) : Text :=
  ((text.lines.mergeSort (lineOrder numeric)).map (· ++ ['\n'])).flatten

def sort : Application := fun call =>
  .needsOutput call <|
    match Sorting.ofArgs ⟨false, none⟩ call.args with
    | .error failure => .fail failure
    | .ok sorting =>
      .readText call sorting.file fun text => .writeText (sortLines sorting.numeric text) .exit

end Application

end LineShell
