/-!
# IEEE binary64 numbers

A double is a sign and a *rank*: the sixty-three bits below the sign, read as
one natural number.  Ranks order the magnitudes, from zero over the subnormal
and normal numbers to infinity and then the NaNs, so neighbouring ranks are
neighbouring doubles.  Each finite magnitude is a whole number of *quanta* of
`2 ^ -1074`, the least positive double; all arithmetic here is exact arithmetic
on such numbers.
-/

namespace MicroLisp

/-- A double, given by its sign and its rank. -/
structure Binary64 where
  negative : Bool
  rank : Nat
  rank_lt : rank < Nat.pow 2 63
deriving DecidableEq

namespace Binary64

/-- The rank of infinity: an exponent field of ones and an empty fraction. -/
def infinityRank : Nat := 2047 * Nat.pow 2 52

theorem infinityRank_lt : infinityRank < Nat.pow 2 63 := by decide

def isNaN (x : Binary64) : Bool := infinityRank < x.rank

def isInfinite (x : Binary64) : Bool := x.rank = infinityRank

def isFinite (x : Binary64) : Bool := x.rank < infinityRank

def isZero (x : Binary64) : Bool := x.rank = 0

def zero (negative : Bool) : Binary64 := ⟨negative, 0, by decide⟩

def infinity (negative : Bool) : Binary64 := ⟨negative, infinityRank, infinityRank_lt⟩

/-! ### Bit patterns -/

/-- The double as its sixty-four bits, the sign on top. -/
def toBits (x : Binary64) : Nat := (if x.negative then Nat.pow 2 63 else 0) + x.rank

/-- The double with the low sixty-four bits of `bits`. -/
def ofBits (bits : Nat) : Binary64 :=
  ⟨bits / Nat.pow 2 63 % 2 = 1, bits % Nat.pow 2 63, Nat.mod_lt _ (by decide)⟩

/-! ### Magnitudes -/

/-- The magnitude of a finite rank, in quanta.  Below `2 ^ 52` ranks count quanta;
from there on the upper bits are an exponent and the lower ones a fraction behind
a leading one. -/
def quanta (rank : Nat) : Nat :=
  if rank < Nat.pow 2 52 then rank
  else (Nat.pow 2 52 + rank % Nat.pow 2 52) * Nat.pow 2 (rank / Nat.pow 2 52 - 1)

/-- Equality of numbers: a NaN equals nothing, and the two zeros are equal. -/
def eqv (x y : Binary64) : Bool :=
  !x.isNaN && !y.isNaN && (x == y || x.isZero && y.isZero)

end Binary64
end MicroLisp
