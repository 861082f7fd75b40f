import MicroLisp.Command.Dump

/-!
# The command

Fetches arguments, settings and the program, and writes the report out.  What it says in
place of a dump is one line.
-/

namespace MicroLisp.Command

/-- The wording of a failed operation on a file. -/
def failureText : IO.Error → String
  | .noFileOrDirectory _ code _ => "No such file or directory (os error " ++ toString code ++ ")"
  | .permissionDenied _ code _ => "Permission denied (os error " ++ toString code ++ ")"
  | .inappropriateType _ 21 _ => "Is a directory (os error 21)"
  | e => toString e

def faultText : UsageError → String
  | .unexpectedArgument argument => "unexpected argument '" ++ argument ++ "' found"
  | .unexpectedValue value flag =>
    "unexpected value '" ++ value ++ "' for '" ++ flag.text ++ "' found; no more were expected"
  | .repeatedFlag flag => "the argument '" ++ flag.text ++ "' cannot be used multiple times"
  | .missingFile => "a value is required for '[FILE]' but none was supplied"
  | .missingValue flag => "a value is required for '" ++ flag.text ++ "' but none was supplied"
  | .invalidValue value flag => "invalid value '" ++ value ++ "' for '" ++ flag.text ++ "'"

def oneLine : Wording := fun _ _ exit =>
  match exit with
  | .version => "ulisp " ++ version ++ "\n"
  | .help => "Print the lexemes of a micro LISP program\n"
  | .usage fault => "error: " ++ faultText fault ++ "\n"

/-- The filter of a level name.  Other filters are not understood. -/
def readFilter : Option String → Except String (Option (Event → Bool))
  | none => .ok none
  | some name =>
    match LogLevel.ofName? name with
    | some level => .ok (some level.shows)
    | none => .error ("error: '" ++ name ++ "' is not a log level")

/-- Everything that a stream delivers. -/
partial def readAll (h : IO.FS.Stream) (delivered : List Delivery) : IO (List Delivery) := do
  match ← (h.read 65536).toBaseIO with
  | .ok data =>
    if data.isEmpty then return delivered.reverse else readAll h (.bytes data :: delivered)
  | .error e => return (.failure (failureText e) :: delivered).reverse

/-- The stream of a file, or the reason why it cannot be opened. -/
def openFile (name : String) : IO (Except String (List Delivery)) := do
  match ← (IO.FS.Handle.mk name .read).toBaseIO with
  | .ok h => return .ok (← readAll (.ofHandle h) [])
  | .error e => return .error (failureText e)

/-- Writes a report out and gives its exit code. -/
def writeOut (r : Report) : IO UInt32 := do
  for l in r.logs do
    IO.eprintln l
  IO.print r.output
  IO.eprint r.error
  return r.code.toUInt32

end MicroLisp.Command

open MicroLisp MicroLisp.Command

def main (arguments : List String) : IO UInt32 := do
  match readFilter (← IO.getEnv "RUST_LOG") with
  | .error text =>
    IO.eprintln text
    return 2
  | .ok log =>
    let env : Environment := ⟨← IO.getEnv "ULISP_VERBOSE", ← IO.getEnv "ULISP_NO_COLOR", log⟩
    let nothing : String → Except String (List Delivery) := fun _ => .ok []
    match options env arguments with
    | .error _ => writeOut (run oneLine env arguments [] nothing)
    | .ok o =>
      match o.file with
      | none => writeOut (run oneLine env arguments (← readAll (← IO.getStdin) []) nothing)
      | some name =>
        let opened ← openFile name
        writeOut (run oneLine env arguments [] fun _ => opened)
