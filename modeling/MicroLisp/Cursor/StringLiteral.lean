import MicroLisp.Cursor.Basic
import MicroLisp.Escape

/-!
# String literals in front of a cursor

Between its quotes a string literal holds characters that stand for themselves,
newlines included, and escapes.  It fails at an unknown escape, right behind the
offending character, and at the end of the text.
-/

namespace MicroLisp.Cursor

/-- Reads on to the closing quote of the literal that starts on line `opening`;
`taken` holds, in reverse, what has been decoded of it. -/
def readStringFrom (opening : Nat) (taken : List Char) (c : Cursor) :
    Except Error String × Cursor :=
  match _h : c.read with
  | (none, rest) => (.error (.unterminatedString opening), rest)
  | (some a, rest) =>
    if a = '"' then (.ok (String.ofList taken.reverse), rest)
    else if a = '\\' then
      match _h' : rest.read with
      | (none, rest') => (.error (.unterminatedString opening), rest')
      | (some e, rest') =>
        match unescape e rest'.line with
        | .ok b => readStringFrom opening (b :: taken) rest'
        | .error err => (.error err, rest')
    else readStringFrom opening (a :: taken) rest
termination_by c.content.length
decreasing_by
  · exact Nat.lt_trans (length_content_read _h') (length_content_read _h)
  · exact length_content_read _h

theorem length_content_readStringFrom_le (opening : Nat) (taken : List Char) (c : Cursor) :
    (readStringFrom opening taken c).2.content.length ≤ c.content.length := by
  fun_induction readStringFrom opening taken c with
  | case1 taken c rest h => exact Nat.le_of_eq (congrArg List.length (content_of_read_eq_none h))
  | case2 taken c rest h => exact Nat.le_of_lt (length_content_read h)
  | case3 taken c rest rest' h' h hq =>
    rw [content_of_read_eq_none h']
    exact Nat.le_of_lt (length_content_read h)
  | case4 taken c rest e rest' h' b hb h hq ih =>
    exact Nat.le_trans ih
      (Nat.le_of_lt (Nat.lt_trans (length_content_read h') (length_content_read h)))
  | case5 taken c rest e rest' h' err herr h hq =>
    exact Nat.le_of_lt (Nat.lt_trans (length_content_read h') (length_content_read h))
  | case6 taken c a rest h hq hb ih => exact Nat.le_trans ih (Nat.le_of_lt (length_content_read h))

/-- Reads a string literal whose opening quote has been read already. -/
def readString (c : Cursor) : Except Error String × Cursor := readStringFrom c.line [] c

end MicroLisp.Cursor
