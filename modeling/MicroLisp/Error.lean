/-!
# Reading errors

What can go wrong between the input bytes and the table of names, with the one
wording of each.
-/

namespace MicroLisp

inductive Error
  /-- The text ended inside the string literal that starts on `line`. -/
  | unterminatedString (line : Nat)
  /-- A backslash on `line` stands before `escape`, which is no escape letter. -/
  | unsupportedEscape (escape : Char) (line : Nat)
  /-- A new name met an interner that holds `capacity` names already. -/
  | internerFull (capacity : Nat)
  /-- The input could not be read, or its bytes are no text. -/
  | io (message : String)
deriving DecidableEq

namespace Error

/-- True for the errors of the source text itself. -/
def isLexical : Error → Bool
  | .unterminatedString _ | .unsupportedEscape _ _ => true
  | .internerFull _ | .io _ => false

def message : Error → String
  | .unterminatedString line =>
    "found EOF while reading a string (string starts on line " ++ line.repr ++ ")"
  | .unsupportedEscape escape line =>
    "unsupported escape sequence in string: \\" ++ String.singleton escape ++
      " (line " ++ line.repr ++ ")"
  | .internerFull capacity => "symbol table overflow (capacity: " ++ capacity.repr ++ ")"
  | .io message => "I/O error: " ++ message

end Error
end MicroLisp
