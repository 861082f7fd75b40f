import MicroLisp.Binary64.Shortest

/-!
# Written forms of finite doubles

A finite double is written with its shortest digits, in positional or in
scientific form.  The positional form always has a digit on either side of the
point; the scientific form has one digit before the point, and a point only when
more digits follow.  Where one form gives way to the other, and whether a
positive exponent carries its sign, is a `Style`.
-/

namespace MicroLisp

/-- The choices between the ways to write a double. -/
structure Style where
  /-- Which of two equally short and equally near decimals is written. -/
  tie : Tie
  /-- The least exponent of the leading digit that is written positionally. -/
  leastPositional : Int
  /-- The greatest exponent of the leading digit that is written positionally. -/
  greatestPositional : Int
  /-- Whether a positive exponent is written with a plus sign. -/
  plusSign : Bool

namespace Style

/-- Digits with the point behind the digit of exponent zero, when the leading
digit has exponent `e`; zeros fill up either side. -/
def positional (digits : List Char) (e : Int) : List Char :=
  match e with
  | .ofNat k =>
    let whole := digits.take (k + 1)
    let fraction := digits.drop (k + 1)
    whole ++ List.replicate (k + 1 - whole.length) '0' ++ '.' ::
      (if fraction = [] then ['0'] else fraction)
  | .negSucc k => '0' :: '.' :: (List.replicate k '0' ++ digits)

/-- An exponent with its sign; a plus sign is optional. -/
def exponent (plusSign : Bool) (e : Int) : List Char :=
  match e with
  | .ofNat k => (if plusSign then ['+'] else []) ++ Nat.toDigits 10 k
  | .negSucc k => '-' :: Nat.toDigits 10 (k + 1)

/-- Digits with the point behind the first one, and the exponent of that one. -/
def scientific (plusSign : Bool) (digits : List Char) (e : Int) : List Char :=
  digits.take 1 ++ (if digits.drop 1 = [] then [] else '.' :: digits.drop 1) ++
    'e' :: exponent plusSign e

def magnitude (style : Style) (d : Decimal) : List Char :=
  let digits := Nat.toDigits 10 d.digits
  let e : Int := d.exponent + digits.length - 1
  if style.leastPositional ≤ e ∧ e ≤ style.greatestPositional then positional digits e
  else scientific style.plusSign digits e

def decimal (style : Style) (d : Decimal) : List Char :=
  (if d.negative then ['-'] else []) ++ style.magnitude d

def write (style : Style) (x : Binary64) : List Char :=
  style.decimal (x.shortest style.tie)

end Style
end MicroLisp
