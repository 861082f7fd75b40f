/-!
# JSON strings

The written form of a text in JSON and its reader.  Written strings escape the
quote, the backslash and the characters below the space, and nothing else.  The
reader also takes `\/` and any escaped code unit; two code units that form a
surrogate pair stand for one character, and half a pair stands for none.
-/

namespace MicroLisp.Json

/-! ### Writing -/

/-- A character as it is written inside a string. -/
def escape (c : Char) : List Char :=
  if c = '"' then ['\\', '"']
  else if c = '\\' then ['\\', '\\']
  else if c = '\x08' then ['\\', 'b']
  else if c = '\x0c' then ['\\', 'f']
  else if c = '\n' then ['\\', 'n']
  else if c = '\r' then ['\\', 'r']
  else if c = '\t' then ['\\', 't']
  else if c.toNat < 32 then
    ['\\', 'u', '0', '0', Nat.digitChar (c.toNat / 16), Nat.digitChar (c.toNat % 16)]
  else [c]

def quoted (text : List Char) : List Char := '"' :: text.flatMap escape ++ ['"']

/-! ### Reading -/

/-- A character of a string, or a code unit given by its number. -/
inductive Part
  | char (c : Char)
  | code (n : Nat)
deriving DecidableEq

/-- The character that a one-letter escape stands for. -/
def letter? : Char → Option Char
  | '"' => some '"'
  | '\\' => some '\\'
  | '/' => some '/'
  | 'b' => some '\x08'
  | 'f' => some '\x0c'
  | 'n' => some '\n'
  | 'r' => some '\r'
  | 't' => some '\t'
  | _ => none

/-- The value of a hexadecimal digit of either case. -/
def hexDigit? (c : Char) : Option Nat :=
  if '0' ≤ c ∧ c ≤ '9' then some (c.toNat - '0'.toNat)
  else if 'a' ≤ c ∧ c ≤ 'f' then some (c.toNat - 'a'.toNat + 10)
  else if 'A' ≤ c ∧ c ≤ 'F' then some (c.toNat - 'A'.toNat + 10)
  else none

def hex? (digits : List Char) : Option Nat :=
  digits.foldlM (fun n c => (hexDigit? c).map fun d => 16 * n + d) 0

/-- The parts of a string up to its closing quote, and what follows that. -/
def parts? : List Char → Option (List Part × List Char)
  | [] => none
  | '"' :: rest => some ([], rest)
  | '\\' :: 'u' :: a :: b :: c :: d :: rest =>
    (hex? [a, b, c, d]).bind fun n => (parts? rest).map fun (us, tail) => (.code n :: us, tail)
  | '\\' :: e :: rest =>
    (letter? e).bind fun c => (parts? rest).map fun (us, tail) => (.char c :: us, tail)
  | c :: rest =>
    if c.toNat < 32 then none else (parts? rest).map fun (us, tail) => (.char c :: us, tail)

def isHighSurrogate (n : Nat) : Bool := 0xD800 ≤ n && n < 0xDC00

def isLowSurrogate (n : Nat) : Bool := 0xDC00 ≤ n && n < 0xE000

def textOf? : List Part → Option (List Char)
  | [] => some []
  | .char c :: us => (textOf? us).map (c :: ·)
  | .code high :: .code low :: us =>
    if isHighSurrogate high && isLowSurrogate low then
      (textOf? us).map
        (Char.ofNat (0x10000 + (high - 0xD800) * 0x400 + (low - 0xDC00)) :: ·)
    else if isHighSurrogate high || isLowSurrogate high then none
    else (textOf? (.code low :: us)).map (Char.ofNat high :: ·)
  | .code n :: us =>
    if isHighSurrogate n || isLowSurrogate n then none
    else (textOf? us).map (Char.ofNat n :: ·)

end MicroLisp.Json
