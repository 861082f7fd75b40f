import MicroLisp.Binary64.Rounding

/-!
# Shortest decimals

The shortest decimal of a finite double is one with the fewest digits that reads
back as that double; among those it is one nearest to the double.  For each
number of digits only two decimals can qualify, the double's neighbours on the
decimal grid of that many digits, and "reads back" is tested with the reader
itself.
-/

namespace MicroLisp

/-- Which of two equally near decimals is taken: the one with the even last digit,
or the one that is greater in magnitude. -/
inductive Tie
  | toEven
  | up
deriving DecidableEq

namespace Binary64

/-- Length of the decimal numeral of a natural number. -/
def digitCount (n : Nat) : Nat := (Nat.toDigits 10 n).length

/-- The least `k` with `num / den < 10 ^ k`, for a positive quotient. -/
def pointPosition (num den : Nat) : Int :=
  if den ≤ num then digitCount (num / den) else 1 - digitCount ((den - 1) / num)

/-- The two decimals with exponent `grid` on either side of a double, the nearer
one first.  A double on the grid is the first of them itself. -/
def neighbours (tie : Tie) (x : Binary64) (grid : Int) : List Decimal :=
  let (num, den) := match grid with
    | .ofNat k => (quanta x.rank, Nat.pow 2 1074 * Nat.pow 10 k)
    | .negSucc k => (quanta x.rank * Nat.pow 10 (k + 1), Nat.pow 2 1074)
  let low := num / den
  let below : Decimal := ⟨x.negative, low, grid⟩
  let above : Decimal := ⟨x.negative, low + 1, grid⟩
  let twice := 2 * (num % den)
  let belowFirst := twice < den || (twice = den && tie = .toEven && low % 2 = 0)
  if belowFirst then [below, above] else [above, below]

/-- All digits of a finite double: a quantum is `5 ^ 1074` units of `10 ^ -1074`. -/
def exact (x : Binary64) : Decimal := ⟨x.negative, quanta x.rank * Nat.pow 5 1074, -1074⟩

/-- The decimal on the coarsest grid of at most seventeen digits that reads back
as the double, if there is one. -/
def shortest? (tie : Tie) (x : Binary64) : Option Decimal :=
  let point := pointPosition (quanta x.rank) (Nat.pow 2 1074)
  (List.range 17).findSome? fun (n : Nat) =>
    (neighbours tie x (point - (n + 1))).find? fun d => ofDecimal d = x

/-- A shortest decimal of a finite double, without zeros at its end. -/
def shortest (tie : Tie) (x : Binary64) : Decimal :=
  if x.isZero then ⟨x.negative, 0, 0⟩ else ((shortest? tie x).getD (exact x)).trim

theorem ofDecimal_of_shortest? {tie : Tie} {x : Binary64} {d : Decimal}
    (h : shortest? tie x = some d) : ofDecimal d = x := by
  obtain ⟨n, -, hn⟩ := List.exists_of_findSome?_eq_some h
  simpa using List.find?_some hn

end Binary64
end MicroLisp
