import MicroLisp.Binary64.Style

/-!
# Tokens

The lexemes of a program: five kinds of literals, each with its value, and three
delimiters without one; how each is shown in a dump.
-/

namespace MicroLisp

inductive Kind
  | int
  | float
  | string
  | boolean
  | symbol
  | leftParen
  | rightParen
  | quote
deriving DecidableEq

namespace Kind

def all : List Kind :=
  [.int, .float, .string, .boolean, .symbol, .leftParen, .rightParen, .quote]

def name : Kind → String
  | .int => "int"
  | .float => "float"
  | .string => "string"
  | .boolean => "boolean"
  | .symbol => "symbol"
  | .leftParen => "left_paren"
  | .rightParen => "right_paren"
  | .quote => "quote"

def ofName? (s : String) : Option Kind := all.find? fun k => k.name = s

/-- True for the kinds without a value. -/
def isDelimiter : Kind → Bool
  | .leftParen | .rightParen | .quote => true
  | _ => false

end Kind

/-- One lexeme of a program. -/
inductive Token
  | int (value : Int64)
  | float (value : Binary64)
  /-- A string literal, its escapes already decoded. -/
  | string (text : String)
  | boolean (value : Bool)
  /-- A word that is nothing else. -/
  | symbol (name : String)
  | leftParen
  | rightParen
  | quote
deriving DecidableEq

def intText (n : Int) : String :=
  if n < 0 then "-" ++ n.natAbs.repr else n.natAbs.repr

namespace Binary64

/-- In dumps a double is positional from `1e-4` up to `1e16`, and a positive exponent
has no sign. -/
def dumpStyle : Style := ⟨.up, -4, 15, false⟩

def dumpText (x : Binary64) : String :=
  if x.isNaN then "NaN"
  else if x.isInfinite then (if x.negative then "-inf" else "inf")
  else String.ofList (dumpStyle.write x)

end Binary64

namespace Token

def kind : Token → Kind
  | .int _ => .int
  | .float _ => .float
  | .string _ => .string
  | .boolean _ => .boolean
  | .symbol _ => .symbol
  | .leftParen => .leftParen
  | .rightParen => .rightParen
  | .quote => .quote

def symbolName? : Token → Option String
  | .symbol name => some name
  | _ => none

/-- The value of a literal as dumps show it: texts as they are. -/
def valueText? : Token → Option String
  | .int n => some (intText n.toInt)
  | .float x => some x.dumpText
  | .string s | .symbol s => some s
  | .boolean b => some (if b then "true" else "false")
  | .leftParen | .rightParen | .quote => none

def dumpText (t : Token) : String :=
  "<Lexeme, type: " ++ t.kind.name ++
    (match t.valueText? with
      | some v => ", value: " ++ v
      | none => "") ++ ">"

/-- Equality of tokens by value: floats compare as numbers, so a NaN differs from
itself and the two zeros are equal. -/
def eqv : Token → Token → Bool
  | .float x, .float y => x.eqv y
  | s, t => s == t

end Token
end MicroLisp
