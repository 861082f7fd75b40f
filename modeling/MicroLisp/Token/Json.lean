import MicroLisp.Json.Document
import MicroLisp.Token.Basic

/-!
# Tokens in JSON

A token is written as an object with its kind under `type` and its value under
`value`; delimiters have no value, and doubles that are no numbers have `null`.  On
the way back the two members may stand in either order among others, and the kind
may also be written as an object with the kind as its only key and `null` under it.
An array of the two does as well, with the kind as a text.
-/

namespace MicroLisp

/-- In JSON a double is positional from `1e-5` up to `1e16`, and an exponent always has
a sign. -/
def Binary64.jsonStyle : Style := ⟨.toEven, -5, 15, true⟩

def Binary64.jsonText (x : Binary64) : List Char :=
  if x.isFinite then jsonStyle.write x else ['n', 'u', 'l', 'l']

/-- The kind under `type`. -/
def Kind.ofJson? : Json → Option Kind
  | .scalar (.string (some name)) => ofName? name
  | .object [(some name, .scalar .null)] => ofName? name
  | _ => none

namespace Token

/-! ### Writing -/

def jsonValue? : Token → Option (List Char)
  | .int n => some (intText n.toInt).toList
  | .float x => some x.jsonText
  | .string s | .symbol s => some (Json.quoted s.toList)
  | .boolean b => some (if b then "true" else "false").toList
  | .leftParen | .rightParen | .quote => none

/-- A token in JSON, without any space. -/
def jsonText (t : Token) : String :=
  "\x7b\"type\":\"" ++ t.kind.name ++ "\"" ++
    (match t.jsonValue? with
      | some v => ",\"value\":" ++ String.ofList v
      | none => "") ++ "\x7d"

/-! ### Reading -/

def ofValue? : Kind → Json → Option Token
  | .int, .scalar (.number n) => n.toInt64?.map .int
  | .float, .scalar (.number n) => n.toBinary64?.map .float
  | .string, .scalar (.string (some s)) => some (.string s)
  | .boolean, .scalar (.bool b) => some (.boolean b)
  | .symbol, .scalar (.string (some s)) => some (.symbol s)
  | .leftParen, .scalar .null => some .leftParen
  | .rightParen, .scalar .null => some .rightParen
  | .quote, .scalar .null => some .quote
  | _, _ => none

/-- The token of a kind, with a value or without one; only delimiters can do without. -/
def ofParts? (k : Kind) : Option Json → Option Token
  | some v => ofValue? k v
  | none => if k.isDelimiter then ofValue? k (.scalar .null) else none

/-- The token that a JSON value stands for.  In an object every key has to be a text,
and neither of the two members may be repeated. -/
def ofJson? : Json → Option Token
  | .array [.scalar (.string (some name)), value] =>
    (Kind.ofName? name).bind fun k => ofValue? k value
  | .object members =>
    if members.any fun m => m.1.isNone then none
    else
      let valuesOf (key : String) := members.filterMap fun m =>
        if m.1 = some key then some m.2 else none
      match valuesOf "type", valuesOf "value" with
      | [kind], [] => (Kind.ofJson? kind).bind fun k => ofParts? k none
      | [kind], [value] => (Kind.ofJson? kind).bind fun k => ofParts? k (some value)
      | _, _ => none
  | _ => none

def ofJsonText? (text : String) : Option Token := (Json.parse? text.toList).bind ofJson?

end Token
end MicroLisp
