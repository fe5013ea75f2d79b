import LineShell.Text.Basic
/-!
# Counts

A count is an unsigned 64-bit number in decimal digits with an optional plus sign. Reading goes from
left to right and reports the first fault it meets.
-/

namespace LineShell

inductive CountError where
  | empty
  | invalidDigit
  | tooLarge
  deriving DecidableEq, Repr

def CountError.message : CountError → String
  | .empty => "cannot parse integer from empty string"
  | .invalidDigit => "invalid digit found in string"
  | .tooLarge => "number too large to fit in target type"

namespace Text

def maxCount : Nat := Nat.pow 2 64 - 1

/-- Read the digits after those that gave `value`. -/
def countDigits (value : Nat) : Text → Except CountError Nat
  | [] => .ok value
  | c :: rest =>
    if c.isDigit then
      let value := value * 10 + (c.toNat - '0'.toNat)
      if value ≤ maxCount then countDigits value rest else .error .tooLarge
    else .error .invalidDigit

def parseCount : Text → Except CountError Nat
  | [] => .error .empty
  | ['+'] => .error .invalidDigit
  | '+' :: digits => countDigits 0 digits
  | digits => countDigits 0 digits

end Text

end LineShell
