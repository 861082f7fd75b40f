import MicroLisp.Event

/-!
# Options of the command

What the command line and the environment ask for.  Arguments are taken from left
to right and the first fault ends it all; the environment is asked last, and only
about flags that are not given.  An empty file name is a fault as well, but one
that shows late: at the next flag, or at the end of the arguments.
-/

namespace MicroLisp.Command

inductive Flag
  | json
  | verbose
  | noColor
  | version
  | help
deriving DecidableEq

namespace Flag

def all : List Flag := [.json, .verbose, .noColor, .version, .help]

/-- The name of a flag behind its two dashes. -/
def name : Flag → String
  | .json => "json"
  | .verbose => "verbose"
  | .noColor => "no-color"
  | .version => "version"
  | .help => "help"

def ofName? (s : String) : Option Flag := all.find? fun f => f.name = s

/-- The flag of a letter behind one dash. -/
def ofLetter? : Char → Option Flag
  | 'v' => some .verbose
  | 'V' => some .version
  | 'h' => some .help
  | _ => none

def text (f : Flag) : String := "--" ++ f.name

end Flag

inductive UsageError
  | unexpectedArgument (argument : String)
  | unexpectedValue (value : String) (flag : Flag)
  | repeatedFlag (flag : Flag)
  | missingFile
  | missingValue (flag : Flag)
  | invalidValue (value : String) (flag : Flag)
deriving DecidableEq

/-- Settings of the environment that the command looks at. -/
structure Environment where
  verbose : Option String
  noColor : Option String
  /-- What the log's own filter lets through, if one is set. -/
  log : Option (Event → Bool)

structure Options where
  json : Bool
  verbose : Bool
  /-- Asks for log lines without colours.  The lines of a report never have any. -/
  noColor : Bool
  /-- The program's file; without one the program is the standard input. -/
  file : Option String
deriving DecidableEq

/-- Why the command ends without reading a program. -/
inductive Exit
  | version
  | help
  | usage (fault : UsageError)
deriving DecidableEq

/-- What is said in place of a dump.  The texts are those of the parser of arguments; its help shows
the settings of the environment. -/
def Wording : Type := Environment → List String → Exit → String

/-! ### Arguments -/

/-- What the arguments taken so far have given. -/
structure Given where
  flags : List Flag
  file : Option String

namespace Given

/-- Takes a flag.  What the arguments ask for is settled at once if the flag asks for a
text, or if it or the file name before it is at fault. -/
def takeFlag (g : Given) (f : Flag) : Except Exit Given :=
  if g.file = some "" then .error (.usage .missingFile)
  else if f = .version then .error .version
  else if f = .help then .error .help
  else if f ∈ g.flags then .error (.usage (.repeatedFlag f))
  else .ok { g with flags := f :: g.flags }

def takeFile (g : Given) (name : String) : Except Exit Given :=
  if g.file.isSome then .error (.usage (.unexpectedArgument name))
  else .ok { g with file := some name }

/-- Takes what stands behind two dashes.  No flag has a value. -/
def takeLong (g : Given) (text : List Char) : Except Exit Given :=
  let name := String.ofList (text.takeWhile (· ≠ '='))
  match Flag.ofName? name with
  | none => .error (.usage (.unexpectedArgument ("--" ++ name)))
  | some f =>
    match text.dropWhile (· ≠ '=') with
    | [] => g.takeFlag f
    | _ :: value => .error (.usage (.unexpectedValue (String.ofList value) f))

def takeLetter (g : Given) (letter : Char) : Except Exit Given :=
  match Flag.ofLetter? letter with
  | none => .error (.usage (.unexpectedArgument ("-" ++ String.singleton letter)))
  | some f => g.takeFlag f

/-- Takes an argument in front of any `--`; a dash alone is a file name. -/
def take (g : Given) (argument : String) : Except Exit Given :=
  match argument.toList with
  | '-' :: '-' :: text => g.takeLong text
  | '-' :: c :: letters => (c :: letters).foldlM takeLetter g
  | _ => g.takeFile argument

/-- Takes all arguments; behind `--` there are no flags. -/
def takeAll (g : Given) : List String → Except Exit Given
  | [] => .ok g
  | argument :: rest =>
    if argument = "--" then rest.foldlM takeFile g
    else
      match g.take argument with
      | .ok next => next.takeAll rest
      | .error exit => .error exit

end Given

/-! ### Arguments and environment together -/

/-- Whether a flag is set, by an argument or else by the environment. -/
def isSet (g : Given) (f : Flag) (setting : Option String) : Except Exit Bool :=
  if f ∈ g.flags then .ok true
  else
    match setting with
    | none => .ok false
    | some "true" => .ok true
    | some "false" => .ok false
    | some "" => .error (.usage (.missingValue f))
    | some value => .error (.usage (.invalidValue value f))

/-- The options of a dump, or why there is none. -/
def options (env : Environment) (arguments : List String) : Except Exit Options := do
  let g ← Given.takeAll ⟨[], none⟩ arguments
  if g.file = some "" then throw (.usage .missingFile)
  let verbose ← isSet g .verbose env.verbose
  let noColor ← isSet g .noColor env.noColor
  return ⟨Flag.json ∈ g.flags, verbose, noColor, g.file⟩

end MicroLisp.Command
