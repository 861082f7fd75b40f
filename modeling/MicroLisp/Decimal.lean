/-!
# Decimal numbers

A decimal number is a natural number of digits scaled by a power of ten, with a
sign that zero keeps too.  `1500`, `1.5e+3` and `15e+2` denote the same number
with different digits; `Decimal.trim` leaves the fewest.
-/

namespace MicroLisp

/-- A decimal number: `digits * 10 ^ exponent`, with a sign. -/
structure Decimal where
  negative : Bool
  digits : Nat
  exponent : Int
deriving DecidableEq

/-- The same number without zeros at the end of its digits. -/
def Decimal.trim (d : Decimal) : Decimal :=
  if _h : d.digits ≠ 0 ∧ d.digits % 10 = 0 then
    Decimal.trim { d with digits := d.digits / 10, exponent := d.exponent + 1 }
  else d
termination_by d.digits
decreasing_by omega

end MicroLisp
