import MicroLisp.Command.Options
import MicroLisp.Input
import MicroLisp.Token.Json

/-!
# The dump of a program

The command writes each token of a program on a line.  Tokens in front of an error
are written too.  The log is a selection from the events of the run and has no part
in the rest.
-/

namespace MicroLisp

/-- What dumping a program comes to, before any event is chosen for the log. -/
structure Dump where
  output : String
  events : List Event
  failure : Option Error

namespace Dump

def line (json : Bool) (t : Token) : String :=
  (if json then t.jsonText else t.dumpText) ++ "\n"

/-- The dump of the program that a stream delivers.  A run without an error ends with
one more event, the count of its tokens. -/
def ofStream (json : Bool) (stream : List Delivery) : Dump :=
  match Lexer.ofStream stream with
  | .error e => ⟨"", [], some e⟩
  | .ok l =>
    let run := l.drain
    let closing := if run.failure.isNone then [Event.finished run.tokens.length] else []
    ⟨String.join (run.tokens.map (line json)), run.last.events ++ closing, run.failure⟩

end Dump

namespace Command

def version : String := "0.1.0"

/-- What the command leaves behind: an exit code, the texts for both output channels,
and the log in between. -/
structure Report where
  code : Nat
  output : String
  logs : List String
  error : String

/-- What the log shows: what a filter of its own lets through, or else what matters for
debugging if the run is verbose, or else warnings. -/
def logFilter (env : Environment) (o : Options) : Event → Bool :=
  env.log.getD (LogLevel.atLeast (if o.verbose then .debug else .warn)).shows

def logLines (shows : Event → Bool) (events : List Event) : List String :=
  (events.filter shows).map Event.logLine

def reportDump (shows : Event → Bool) (d : Dump) : Report :=
  match d.failure with
  | none => ⟨0, d.output, logLines shows d.events, ""⟩
  | some e => ⟨1, d.output, logLines shows d.events, "error: " ++ e.message ++ "\n"⟩

def reportUnopened (file reason : String) : Report :=
  ⟨1, "", [], "error: cannot open " ++ file ++ ": " ++ reason ++ "\n"⟩

/-- A fault goes to the error channel, anything else is what was asked for. -/
def reportExit (exit : Exit) (text : String) : Report :=
  match exit with
  | .version | .help => ⟨0, text, [], ""⟩
  | .usage _ => ⟨2, "", [], text⟩

/-- Runs the command.  `files` gives the stream of a file, or the reason why it cannot
be opened. -/
def run (wording : Wording) (env : Environment) (arguments : List String) (stdin : List Delivery)
    (files : String → Except String (List Delivery)) : Report :=
  match options env arguments with
  | .error exit => reportExit exit (wording env arguments exit)
  | .ok o =>
    match o.file with
    | none => reportDump (logFilter env o) (Dump.ofStream o.json stdin)
    | some file =>
      match files file with
      | .ok stream => reportDump (logFilter env o) (Dump.ofStream o.json stream)
      | .error reason => reportUnopened file reason

end Command
end MicroLisp
