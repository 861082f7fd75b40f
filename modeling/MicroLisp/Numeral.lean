import MicroLisp.Decimal

/-!
# Numerals

The two languages of numerals that words are tried against.  An integer numeral
is an optional sign and one or more digits.  A decimal numeral is an optional
sign, digits with at most one point among or beside them, and an optional
exponent, a lowercase `e` with a sign that cannot be left out.  Digits are the
ten ASCII digits, leading zeros are free, and the whole word has to match.
-/

namespace MicroLisp.Numeral

/-- An optional sign, as "is it a minus?", and what follows it. -/
def splitSign : List Char → Bool × List Char
  | '-' :: cs => (true, cs)
  | '+' :: cs => (false, cs)
  | cs => (false, cs)

theorem splitSign_suffix (cs : List Char) : (splitSign cs).2 <:+ cs := by
  unfold splitSign
  split
  · exact List.suffix_cons _ _
  · exact List.suffix_cons _ _
  · exact List.suffix_refl _

/-- A natural number with a sign. -/
def signed (negative : Bool) (n : Nat) : Int := if negative then -n else n

/-- An integer as a sixty-four bit one, if it fits. -/
def fit? (n : Int) : Option Int64 :=
  if Int64.minValue.toInt ≤ n ∧ n ≤ Int64.maxValue.toInt then some (Int64.ofInt n) else none

/-- The value of an integer numeral. -/
def integer? (word : List Char) : Option Int :=
  let (negative, digits) := splitSign word
  if digits ≠ [] ∧ digits.all Char.isDigit then
    some (signed negative (Nat.ofDigitChars 10 digits 0))
  else none

/-- The value of an optional exponent. -/
def exponent? : List Char → Option Int
  | [] => some 0
  | 'e' :: sign :: digits =>
    if sign = '+' ∨ sign = '-' then integer? (sign :: digits) else none
  | _ => none

/-- The digits behind an optional point, and what follows them. -/
def splitFraction : List Char → List Char × List Char
  | '.' :: cs => (cs.takeWhile Char.isDigit, cs.dropWhile Char.isDigit)
  | cs => ([], cs)

/-- The value of a decimal numeral, if exponents are read by `exponent?`. -/
def decimalBy? (exponent? : List Char → Option Int) (word : List Char) : Option Decimal :=
  let (negative, body) := splitSign word
  let whole := body.takeWhile Char.isDigit
  let (fraction, rest) := splitFraction (body.dropWhile Char.isDigit)
  if whole = [] ∧ fraction = [] then none
  else (exponent? rest).map fun e =>
    ⟨negative, Nat.ofDigitChars 10 (whole ++ fraction) 0, e - fraction.length⟩

/-- The value of a decimal numeral. -/
def decimal? (word : List Char) : Option Decimal := decimalBy? exponent? word

end MicroLisp.Numeral
