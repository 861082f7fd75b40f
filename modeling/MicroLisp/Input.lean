import MicroLisp.Lexer

/-!
# Input streams

A stream is what successive reads deliver.  Nothing is lexed before the whole
stream has been read: a failing read fails the input whatever came before it, and
then the bytes put together have to be the UTF-8 form of a text.
-/

namespace MicroLisp

inductive Delivery
  /-- The next bytes; no bytes at all mark the end of the input. -/
  | bytes (data : ByteArray)
  /-- Nothing yet: the read was interrupted and is tried again. -/
  | interrupted
  | failure (message : String)

namespace Delivery

/-- The bytes up to the end of the input, behind those read before; a stream without
any more deliveries has ended too. -/
def collect (before : ByteArray) : List Delivery → Except Error ByteArray
  | [] => .ok before
  | .bytes data :: rest => if data.isEmpty then .ok before else collect (before ++ data) rest
  | .interrupted :: rest => collect before rest
  | .failure message :: _ => .error (.io message)

end Delivery

def decodeText (data : ByteArray) : Except Error String :=
  match String.fromUTF8? data with
  | some text => .ok text
  | none => .error (.io "stream did not contain valid UTF-8")

def readText (stream : List Delivery) : Except Error String := do
  decodeText (← Delivery.collect ByteArray.empty stream)

/-- A run over the text of a stream.  Its first event is that the input has been read. -/
def Lexer.ofStream (stream : List Delivery) : Except Error Lexer := do
  let text ← readText stream
  return Lexer.start text [.inputRead text.utf8ByteSize]

end MicroLisp
