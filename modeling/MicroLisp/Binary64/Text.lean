import MicroLisp.Binary64.Rounding
import MicroLisp.Numeral

/-!
# Doubles as texts

What denotes a double in general use.  Next to decimal numerals these are numerals whose
exponent has a capital letter or no sign, and names for infinity and NaN, in letters of
either case.
-/

namespace MicroLisp

/-- The value of an exponent, whose sign can be left out. -/
def Numeral.freeExponent? : List Char → Option Int
  | [] => some 0
  | letter :: digits => if letter = 'e' ∨ letter = 'E' then integer? digits else none

namespace Binary64

/-- The quiet NaN without any other bits. -/
def nan (negative : Bool) : Binary64 := ⟨negative, infinityRank + Nat.pow 2 51, by decide⟩

def named? (negative : Bool) (name : List Char) : Option Binary64 :=
  match String.ofList (name.map Char.toLower) with
  | "inf" | "infinity" => some (infinity negative)
  | "nan" => some (nan negative)
  | _ => none

/-- The double that a text denotes. -/
def ofText? (text : List Char) : Option Binary64 :=
  match Numeral.decimalBy? Numeral.freeExponent? text with
  | some d => some (ofDecimal d)
  | none =>
    let (negative, name) := Numeral.splitSign text
    named? negative name

end Binary64
end MicroLisp
