import MicroLisp.Binary64.Basic
import MicroLisp.Decimal

/-!
# Rounding to the nearest double

Quotients of natural numbers are rounded to the nearest double; of two equally
near ones the one with the even significand is taken.  The exact quotient is
never cut short before that one rounding, so decimals of any length and products
and quotients of doubles come out correctly rounded.
-/

namespace MicroLisp
namespace Binary64

/-- `num / den` as the nearest natural number, a half going to the even neighbour. -/
def roundHalfEven (num den : Nat) : Nat :=
  let q := num / den
  let r := num % den
  if 2 * r < den then q
  else if den < 2 * r then q + 1
  else q + q % 2

/-- The rank of the double nearest to `num / den`.  The quotient is rounded to a
whole number of steps of `2 ^ shift` quanta, where the shift leaves at most
fifty-three bits; a carry out of them runs into the exponent bits, which is the
next binade and at last infinity. -/
def nearestRank (num den : Nat) : Nat :=
  let scaled := num * Nat.pow 2 1074
  let shift := (scaled / den).log2 - 52
  min infinityRank (shift * Nat.pow 2 52 + roundHalfEven scaled (den * Nat.pow 2 shift))

/-- The double nearest to `num / den` with the given sign. -/
def nearest (negative : Bool) (num den : Nat) : Binary64 :=
  ⟨negative, nearestRank num den,
    Nat.lt_of_le_of_lt (Nat.min_le_left ..) infinityRank_lt⟩

/-- The double nearest to a natural number. -/
def ofNat (n : Nat) : Binary64 := nearest false n 1

/-- The double nearest to a decimal number.  Exponents so large or so small that
the answer is infinity or zero whatever the digits are answered at once; for the
small ones, `digits < 2 ^ (log2 digits + 1)` and `10 ^ k > 2 ^ (3 * k)` put the
number below half a quantum. -/
def ofDecimal (d : Decimal) : Binary64 :=
  if d.digits = 0 then zero d.negative
  else match d.exponent with
    | .ofNat k =>
      if 310 ≤ k then infinity d.negative else nearest d.negative (d.digits * Nat.pow 10 k) 1
    | .negSucc k =>
      if d.digits.log2 + 1077 ≤ 3 * (k + 1) then zero d.negative
      else nearest d.negative d.digits (Nat.pow 10 (k + 1))

/-! ### Products and quotients -/

/-- The product of two finite doubles, rounded once. -/
def mul (x y : Binary64) : Binary64 :=
  nearest (x.negative != y.negative) (quanta x.rank * quanta y.rank) (Nat.pow 2 2148)

/-- The quotient of a finite double by a finite double other than zero, rounded once. -/
def div (x y : Binary64) : Binary64 :=
  nearest (x.negative != y.negative) (quanta x.rank) (quanta y.rank)

end Binary64
end MicroLisp
