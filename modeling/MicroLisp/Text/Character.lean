/-!
# Character classes of the source text

Blank characters separate lexemes; the characters that end a word are the
blanks, the two parentheses, the quote mark and the comment mark.  Both classes
are finite sets of ASCII characters: no other Unicode space belongs to them.
-/

namespace MicroLisp

/-- Space, form feed, newline, carriage return, tab and vertical tab. -/
def isBlank (c : Char) : Bool :=
  c = ' ' || c = '\x0c' || c = '\n' || c = '\r' || c = '\t' || c = '\x0b'

/-- The characters that end a word without belonging to it. -/
def endsWord (c : Char) : Bool :=
  isBlank c || c = '(' || c = ')' || c = '\'' || c = ';'

theorem endsWord_of_isBlank {c : Char} (h : isBlank c = true) : endsWord c = true := by
  simp [endsWord, h]

end MicroLisp
