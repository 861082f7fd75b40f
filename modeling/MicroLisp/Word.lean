import MicroLisp.Binary64.Text
import MicroLisp.Token.Basic

/-!
# Words

What a bare word means: one of the two booleans, else an integer, else a float,
and a symbol if nothing else fits.  An integer numeral outside the range of the
integers is read as a float; `Word.outOfRange` says when that happens.
-/

namespace MicroLisp.Word

/-- True for an integer numeral whose value does not fit. -/
def outOfRange (word : List Char) : Bool :=
  (Numeral.integer? word).any fun n => (Numeral.fit? n).isNone

/-- The token that a word, taken as a whole, stands for.  A decimal numeral is a float if it denotes a
double. -/
def classify (word : List Char) : Token :=
  if word = ['#', 't'] then .boolean true
  else if word = ['#', 'f'] then .boolean false
  else match (Numeral.integer? word).bind Numeral.fit? with
    | some n => .int n
    | none =>
      match if (Numeral.decimal? word).isSome then Binary64.ofText? word else none with
      | some x => .float x
      | none => .symbol (String.ofList word)

end MicroLisp.Word
