import MicroLisp.Json.Number

/-!
# JSON values

Values as a document gives them: members of an object in order and repeated ones
included, numbers as they are written.
-/

namespace MicroLisp

/-- A JSON value that holds no other value. -/
inductive Json.Scalar
  | null
  | bool (value : Bool)
  | number (value : Json.Number)
  /-- The text of a string, or `none` if an escape in it names half a surrogate pair
  and so no text. -/
  | string (text? : Option String)
deriving DecidableEq

/-- A JSON value. -/
inductive Json
  | scalar (value : Json.Scalar)
  | array (items : List Json)
  /-- Keys, read like strings, with their values. -/
  | object (members : List (Option String × Json))

end MicroLisp
