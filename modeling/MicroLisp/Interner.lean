import MicroLisp.Lexer

/-!
# Interning names

An interner gives names small numbers, so that names can be compared by number.
Numbers are handed out in the order in which names arrive and never change; number
zero is `nil`, and there is a greatest count of names.
-/

namespace MicroLisp

/-- Names that have a number, each at the place of its number. -/
structure Interner where
  names : List String
  capacity : Nat
deriving DecidableEq

namespace Interner

/-- The count of names that a usual interner can hold. -/
def defaultCapacity : Nat := 1000

/-- An interner that holds `nil` alone and can hold `capacity` names; `nil` has room
in any case. -/
def withCapacity (capacity : Nat) : Interner := ⟨["nil"], max capacity 1⟩

/-- The interner that holds `nil` alone, with the usual capacity. -/
def empty : Interner := withCapacity defaultCapacity

def size (t : Interner) : Nat := t.names.length

def isEmpty (t : Interner) : Bool := t.names.isEmpty

def find? (t : Interner) (name : String) : Option Nat := t.names.findIdx? (· = name)

def name? (t : Interner) (id : Nat) : Option String := t.names[id]?

/-- The number of a name, which is added if it is new and there is room. -/
def intern (t : Interner) (name : String) : Except Error Nat × Interner :=
  match t.find? name with
  | some id => (.ok id, t)
  | none =>
    if t.capacity ≤ t.size then (.error (.internerFull t.capacity), t)
    else (.ok t.size, { t with names := t.names ++ [name] })

/-- Interns names one after the other, going on when one is refused. -/
def internAll (t : Interner) : List String → List (Except Error Nat) × Interner
  | [] => ([], t)
  | name :: names =>
    let (answer, next) := t.intern name
    let (answers, last) := internAll next names
    (answer :: answers, last)

/-- Interns the symbols of a program in order.  An error that ends the program is the
last answer. -/
def internProgram (t : Interner) (program : String) : List (Except Error Nat) × Interner :=
  let run := (Lexer.ofText program).drain
  let (answers, last) := t.internAll (run.tokens.filterMap Token.symbolName?)
  (answers ++ (run.failure.map Except.error).toList, last)

end Interner
end MicroLisp
