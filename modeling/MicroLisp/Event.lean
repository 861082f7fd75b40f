/-!
# Events of a reading run

What a run notes down while it works, how severe each note is, and which
notes a given log level lets through.
-/

namespace MicroLisp

/-- How much an event matters, the least first. -/
inductive Severity
  | trace
  | debug
  | info
  | warn
  | error
deriving DecidableEq

def Severity.rank : Severity → Nat
  | .trace => 0
  | .debug => 1
  | .info => 2
  | .warn => 3
  | .error => 4

def Severity.name : Severity → String
  | .trace => "TRACE"
  | .debug => "DEBUG"
  | .info => "INFO"
  | .warn => "WARN"
  | .error => "ERROR"

inductive Event
  /-- The whole input, `bytes` long, was read. -/
  | inputRead (bytes : Nat)
  /-- Line number `line`, with `length` characters, became the current one. -/
  | lineLoaded (line length : Nat)
  | commentSkipped (line : Nat)
  /-- An integer literal does not fit and is read as a float. -/
  | outOfRange (word : String)
  /-- A program of `count` tokens was written out to its end. -/
  | finished (count : Nat)
deriving DecidableEq

inductive Event.Detail
  | number (n : Nat)
  | text (s : String)
deriving DecidableEq

namespace Event

def severity : Event → Severity
  | .inputRead _ | .commentSkipped _ | .finished _ => .debug
  | .lineLoaded _ _ => .trace
  | .outOfRange _ => .warn

def message : Event → String
  | .inputRead _ => "read input"
  | .lineLoaded _ _ => "restocked line buffer"
  | .commentSkipped _ => "skipping comment"
  | .outOfRange _ => "integer literal out of range, reading it as a float"
  | .finished _ => "done"

/-- The named details of an event, in the order in which they are shown. -/
def details : Event → List (String × Detail)
  | .inputRead bytes => [("bytes", .number bytes)]
  | .lineLoaded line length => [("line", .number line), ("len", .number length)]
  | .commentSkipped line => [("line", .number line)]
  | .outOfRange word => [("word", .text word)]
  | .finished count => [("count", .number count)]

/-- A detail as log lines show it: texts stand in double quotes. -/
def Detail.render : Detail → String
  | .number n => n.repr
  | .text s => "\"" ++ s ++ "\""

/-- An event as one log line: severity, wording, then each detail as `name=value`. -/
def logLine (e : Event) : String :=
  e.severity.name ++ " " ++ e.message ++
    String.join (e.details.map fun (name, d) => " " ++ name ++ "=" ++ d.render)

end Event

inductive LogLevel
  | off
  | atLeast (least : Severity)
deriving DecidableEq

namespace LogLevel

/-- A level shows the events of its severity and above. -/
def shows : LogLevel → Event → Bool
  | .off, _ => false
  | .atLeast least, e => least.rank ≤ e.severity.rank

def ofName? : String → Option LogLevel
  | "off" => some .off
  | "error" => some (.atLeast .error)
  | "warn" => some (.atLeast .warn)
  | "info" => some (.atLeast .info)
  | "debug" => some (.atLeast .debug)
  | "trace" => some (.atLeast .trace)
  | _ => none

end LogLevel
end MicroLisp
