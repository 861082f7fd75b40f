import MicroLisp.Error

/-!
# Escapes

An escape in a string literal is a backslash and one of eight characters.  Any
other character behind a backslash is an error.
-/

namespace MicroLisp

/-- The character that an escape stands for. -/
def unescape? : Char → Option Char
  | '\\' => some '\\'
  | '"' => some '"'
  | 'b' => some '\x08'
  | 'f' => some '\x0c'
  | 'n' => some '\n'
  | 'r' => some '\r'
  | 't' => some '\t'
  | 'v' => some '\x0b'
  | _ => none

/-- The character that an escape on the given line stands for, or why there is none. -/
def unescape (escape : Char) (line : Nat) : Except Error Char :=
  match unescape? escape with
  | some a => .ok a
  | none => .error (.unsupportedEscape escape line)

end MicroLisp
