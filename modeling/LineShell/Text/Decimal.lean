import LineShell.Text.Basic
/-!
# Decimal numbers

A decimal number is written with an optional minus sign, digits and at most one point. Numbers are
compared after rounding to binary64, to nearest with ties to even; the place of a rounded number in
the total order of binary64 is an integer, so comparing numbers is comparing integers.
-/

namespace LineShell

/-- The number `digits / 10 ^ places` with its sign. -/
structure Decimal where
  negative : Bool
  digits : Nat
  places : Nat
  deriving DecidableEq, Repr

namespace Decimal

def ofDigits (digits : Text) : Nat :=
  digits.foldl (fun value c => value * 10 + (c.toNat - '0'.toNat)) 0

/-- Read digits with at most one point among them; there must be a digit. -/
def unsigned? (negative : Bool) (text : Text) : Option Decimal :=
  let whole := text.takeWhile Char.isDigit
  let fraction := (text.dropWhile Char.isDigit).tail
  let pointed := (text.dropWhile Char.isDigit).head?.all (· = '.')
  if pointed && fraction.all Char.isDigit && (whole ++ fraction) ≠ [] then
    some ⟨negative, ofDigits (whole ++ fraction), fraction.length⟩
  else none

def ofText? : Text → Option Decimal
  | '-' :: text => unsigned? true text
  | text => unsigned? false text

end Decimal

namespace Binary64

/-- The quotient rounded to the nearest integer, with ties to even. -/
def roundQuotient (num den : Nat) : Nat :=
  let low := num / den
  let rest := num % den
  if 2 * rest < den then low
  else if den < 2 * rest then low + 1
  else low + low % 2

/-- The exponent of the largest power of two that is at most `num / den`, for positive numbers. -/
def exponent (num den : Nat) : Int :=
  let guess : Int := (num.log2 : Int) - den.log2
  if den * Nat.pow 2 guess.toNat ≤ num * Nat.pow 2 (-guess).toNat then guess else guess - 1

def infinity : Nat := 0x7FF * Nat.pow 2 52

/-- The bits of the binary64 number nearest to `num / den`, with ties to even; too large a quotient
is infinity. -/
def nearest (num den : Nat) : Nat :=
  if num = 0 then 0
  else
    let scale : Int := max (exponent num den - 52) (-1074)
    let mantissa := roundQuotient (num * Nat.pow 2 (-scale).toNat) (den * Nat.pow 2 scale.toNat)
    min ((scale + 1074).toNat * Nat.pow 2 52 + mantissa) infinity

/-- The place in the total order: negative zero comes right before zero. -/
def rank (negative : Bool) (bits : Nat) : Int :=
  if negative then -(bits : Int) - 1 else bits

end Binary64

def Decimal.rank (number : Decimal) : Int :=
  Binary64.rank number.negative (Binary64.nearest number.digits (Nat.pow 10 number.places))

end LineShell
