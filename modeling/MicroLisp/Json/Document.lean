import MicroLisp.Json.Lexeme

/-!
# JSON documents

A document is one value with space around it.  Its lexemes are taken one by one by
a machine that remembers the open containers and what may come next; the strict
grammar, without trailing commas, is the machine's table of moves.
-/

namespace MicroLisp.Json

/-- A container that is not closed yet, with what it holds so far, the latest first. -/
inductive Open
  | array (items : List Json)
  /-- An object whose next member, of the given key, has no value yet. -/
  | object (members : List (Option String × Json)) (key : Option String)

/-- What may come next. -/
inductive Expect
  | value
  | firstItem
  | firstKey
  | key (members : List (Option String × Json))
  | colon (members : List (Option String × Json)) (key : Option String)
  | after (value : Json)

/-- A document read in part. -/
structure Reading where
  expect : Expect
  /-- The open containers, the innermost first. -/
  opened : List Open

namespace Reading

def empty : Reading := ⟨.value, []⟩

def beginValue (opened : List Open) : Lexeme → Option Reading
  | .scalar s => some ⟨.after (.scalar s), opened⟩
  | .beginArray => some ⟨.firstItem, opened⟩
  | .beginObject => some ⟨.firstKey, opened⟩
  | _ => none

/-- Takes a lexeme that is a key behind these members. -/
def takeKey (members : List (Option String × Json)) (opened : List Open) :
    Lexeme → Option Reading
  | .scalar (.string key) => some ⟨.colon members key, opened⟩
  | _ => none

/-- Takes a lexeme behind a complete value. -/
def continueWith (v : Json) : List Open → Lexeme → Option Reading
  | .array items :: opened, .comma => some ⟨.value, .array (v :: items) :: opened⟩
  | .array items :: opened, .endArray => some ⟨.after (.array (v :: items).reverse), opened⟩
  | .object members key :: opened, .comma => some ⟨.key ((key, v) :: members), opened⟩
  | .object members key :: opened, .endObject =>
    some ⟨.after (.object ((key, v) :: members).reverse), opened⟩
  | _, _ => none

def step (p : Reading) (l : Lexeme) : Option Reading :=
  match p.expect with
  | .value => beginValue p.opened l
  | .firstItem =>
    if l = .endArray then some ⟨.after (.array []), p.opened⟩
    else beginValue (.array [] :: p.opened) l
  | .firstKey =>
    if l = .endObject then some ⟨.after (.object []), p.opened⟩ else takeKey [] p.opened l
  | .key members => takeKey members p.opened l
  | .colon members key =>
    if l = .colon then some ⟨.value, .object members key :: p.opened⟩ else none
  | .after v => continueWith v p.opened l

def result? (p : Reading) : Option Json :=
  match p.expect, p.opened with
  | .after v, [] => some v
  | _, _ => none

end Reading

def ofLexemes? (ls : List Lexeme) : Option Json :=
  (ls.foldlM Reading.step Reading.empty).bind Reading.result?

def parse? (text : List Char) : Option Json := (lexemes? text).bind ofLexemes?

end MicroLisp.Json
