import Stylesheet.Definition

/-!
The arguments of the command line: which command is asked for, on which sheet, and what the sheet
can see of its host.
-/

namespace Stylesheet

/-- What becomes of the CSS. -/
inductive Mode where
  /-- It is written to a file, or to standard output where none is given. -/
  | build (output : Option String)
  /-- It is thrown away. -/
  | check
  deriving DecidableEq

structure Command where
  mode : Mode
  path : String
  definitions : List (String × Value)
  colorFunctions : Bool

inductive Request where
  | version
  | help
  | run (command : Command)

inductive Misuse where
  | noCommand
  | unknownCommand (name : String)
  | unknownOption (argument : String)
  | missingValue (option : String)
  | unwantedValue (option : String)
  | repeatedOption (option : String)
  | unwantedArgument (argument : String)
  | noPath
  | definition (refusal : Definition.Refusal)

def Misuse.message : Misuse → String
  | .noCommand => "a command is required: build or check"
  | .unknownCommand name => String.join ["unknown command: ", name]
  | .unknownOption argument => String.join ["unknown option: ", argument]
  | .missingValue option => String.join ["a value is required for ", option]
  | .unwantedValue option => String.join [option, " takes no value"]
  | .repeatedOption option => String.join [option, " cannot be given twice"]
  | .unwantedArgument argument => String.join ["unexpected argument: ", argument]
  | .noPath => "the path of a sheet is required"
  | .definition refusal => refusal.message

namespace Command

inductive Flag where
  | output
  | define
  | noBuiltins
  | help
  deriving DecidableEq

/-- The name of an option in messages. -/
def Flag.name : Flag → String
  | .output => "--output"
  | .define => "--define"
  | .noBuiltins => "--no-builtins"
  | .help => "--help"

/-- What was gathered from the arguments so far. -/
structure Draft where
  path : Option String := none
  output : Option String := none
  definitions : List (String × Value) := []
  noBuiltins : Bool := false

inductive Argument where
  /-- The mark after which no argument is an option. -/
  | mark
  /-- An option without a value attached. -/
  | option (flag : Flag)
  /-- An option with a value attached. -/
  | valued (flag : Flag) (value : String)
  | unknown
  | plain

/-- The option of a long name. Only `build` has an output. -/
def longFlag? (building : Bool) (name : List Char) : Option Flag :=
  if name = "define".toList then some .define
  else if name = "no-builtins".toList then some .noBuiltins
  else if name = "help".toList then some .help
  else if building && name = "output".toList then some .output
  else none

def shortFlag? (building : Bool) (letter : Char) : Option Flag :=
  if letter = 'D' then some .define
  else if letter = 'h' then some .help
  else if building && letter = 'o' then some .output
  else none

/-- Tells what an argument is. A value is attached to a long name by an equals sign, and to a letter
directly or by an equals sign. A single hyphen is no option. -/
def classify (building : Bool) (argument : String) : Argument :=
  match argument.toList with
  | ['-', '-'] => .mark
  | '-' :: '-' :: long =>
    match longFlag? building (long.takeWhile (· != '=')), long.dropWhile (· != '=') with
    | none, _ => .unknown
    | some flag, [] => .option flag
    | some flag, _ :: value => .valued flag (String.ofList value)
  | '-' :: letter :: attached =>
    match shortFlag? building letter, attached with
    | none, _ => .unknown
    | some .help, _ => .option .help
    | some flag, [] => .option flag
    | some flag, '=' :: value => .valued flag (String.ofList value)
    | some flag, value => .valued flag (String.ofList value)
  | _ => .plain

def setValue (draft : Draft) (flag : Flag) (value : String) : Except Misuse Draft :=
  match flag with
  | .output =>
    if draft.output.isSome then .error (.repeatedOption flag.name)
    else .ok { draft with output := some value }
  | .define =>
    match Definition.parse value with
    | .ok definition => .ok { draft with definitions := draft.definitions ++ [definition] }
    | .error refusal => .error (.definition refusal)
  | .noBuiltins | .help => .error (.unwantedValue flag.name)

def setPath (draft : Draft) (argument : String) : Except Misuse Draft :=
  if draft.path.isSome then .error (.unwantedArgument argument)
  else .ok { draft with path := some argument }

/-- Reads the arguments after the name of a command. An option that still needs its value is
`pending`; after the mark nothing is an option. The answer is `none` where help is asked for. -/
def gather (building : Bool) : Draft → Option Flag → Bool → List String →
    Except Misuse (Option Draft)
  | draft, none, _, [] => .ok (some draft)
  | _, some flag, _, [] => .error (.missingValue flag.name)
  | draft, none, true, argument :: rest => do
    gather building (← setPath draft argument) none true rest
  | draft, pending, _, argument :: rest =>
    match pending, classify building argument with
    | some flag, .plain => do gather building (← setValue draft flag argument) none false rest
    | some flag, _ => .error (.missingValue flag.name)
    | none, .plain => do gather building (← setPath draft argument) none false rest
    | none, .mark => gather building draft none true rest
    | none, .unknown => .error (.unknownOption argument)
    | none, .valued flag value => do gather building (← setValue draft flag value) none false rest
    | none, .option .help => .ok none
    | none, .option .noBuiltins =>
      if draft.noBuiltins then .error (.repeatedOption Flag.noBuiltins.name)
      else gather building { draft with noBuiltins := true } none false rest
    | none, .option flag => gather building draft (some flag) false rest

def ofDraft (mode : Option String → Mode) : Option Draft → Except Misuse Request
  | none => .ok .help
  | some draft =>
    match draft.path with
    | none => .error .noPath
    | some path =>
      .ok (.run ⟨mode draft.output, path, draft.definitions, !draft.noBuiltins⟩)

end Command

def Command.names : List String := ["build", "check", "help"]

/-- Reads what stands after `help`: nothing, or the name of one command. -/
def Request.ofHelp : List String → Except Misuse Request
  | [] => .ok .help
  | name :: rest =>
    if Command.names.contains name then
      match rest with
      | [] => .ok .help
      | extra :: _ => .error (.unknownCommand extra)
    else .error (.unknownCommand name)

/-- Reads a command line. Version and help may stand in place of a command. -/
def Request.parse : List String → Except Misuse Request
  | [] => .error .noCommand
  | "build" :: rest => do Command.ofDraft .build (← Command.gather true {} none false rest)
  | "check" :: rest => do
    Command.ofDraft (fun _ => .check) (← Command.gather false {} none false rest)
  | "help" :: rest => Request.ofHelp rest
  | "--help" :: _ => .ok .help
  | "--version" :: _ => .ok .version
  | first :: _ =>
    match first.toList with
    | '-' :: 'V' :: _ => .ok .version
    | '-' :: 'h' :: _ => .ok .help
    | '-' :: _ => .error (.unknownOption first)
    | _ => .error (.unknownCommand first)

end Stylesheet
