import Stylesheet.Command.Files
import Stylesheet.Command.Options
import Stylesheet.Render
import Stylesheet.Text.Utf8
import Stylesheet.Tree.Text

/-!
Carrying out a command. `build` renders a sheet to standard output or to a file, and `check` only
tells whether it renders. The sheet is read before any file is changed, and a file whose rendering
fails is removed. How deep the calls in a sheet are followed is a parameter.
-/

namespace Stylesheet

inductive Notice where
  | missing (path : String)
  | unreadable (path : String)
  | unloadable (path : String)
  | unwritable (path : String)
  | failed (path : String) (error : Error)
  | built (output : String)
  | fine (path : String)
  | misuse (cause : Misuse)

def usageText : String :=
  String.join ["Usage: zuss build PATH [-o FILE] [-D NAME=VALUE]... [--no-builtins]\n",
    "       zuss check PATH [-D NAME=VALUE]... [--no-builtins]\n"]

/-- The text of a notice. Where the reason is the system's own, the text ends before it. -/
def Notice.text : Notice → String
  | .missing path => String.join ["Error: file not found: ", path, "\n"]
  | .unreadable path => String.join ["Error reading ", path]
  | .unloadable path => String.join ["Error loading sheet tree from ", path]
  | .unwritable path => String.join ["Translation error in ", path, ": write failed"]
  | .failed path error => String.join ["Translation error in ", path, ": ", error.message, "\n"]
  | .built output => String.join ["Built: ", output, "\n"]
  | .fine path => String.join ["OK: ", path, "\n"]
  | .misuse cause => String.join ["error: ", cause.message, "\n\n", usageText]

/-- The outcome of a command: its exit code, and what it prints. -/
structure Report where
  exit : Nat
  stdout : ByteArray := .empty
  notice : Option Notice := none

def Report.stderr (report : Report) : String :=
  (report.notice.map Notice.text).getD ""

def versionText : String := "zuss 0.7.0\n"

namespace Command

def load (path : String) : Source → Except Notice Sheet
  | .missing => .error (.missing path)
  | .unreadable => .error (.unreadable path)
  | .bytes content =>
    match Text.decode? content with
    | none => .error (.unreadable path)
    | some text =>
      match Sheet.parse? text with
      | none => .error (.unloadable path)
      | some sheet => .ok sheet

def host (command : Command) : Host :=
  Definition.host command.definitions command.colorFunctions

/-- Renders a sheet for that host: the result, and the sink as it is left, also where it fails. -/
def render {σ : Type} [Sink σ] (command : Command) (allowance : Sheet → Nat) (sheet : Sheet)
    (sink : σ) : Except Error Unit × σ :=
  let rendering := sheet.renderIn ⟨command.host, allowance sheet⟩ sink
  (rendering.result, rendering.page.sink)

/-- Renders into a file, which is removed again where rendering fails. -/
def buildFile {m : Type → Type} [Monad m] [Files m] (command : Command)
    (allowance : Sheet → Nat) (output : String) (sheet : Sheet) : m Report := do
  if ← Files.create output then
    let (result, written) := command.render allowance sheet ({} : Buffer)
    Files.write output written.bytes
    match result with
    | .ok () => return { exit := 0, notice := some (.built output) }
    | .error error =>
      Files.remove output
      return { exit := 1, notice := some (.failed command.path error) }
  else return { exit := 1, notice := some (.unwritable command.path) }

def buildStdout (command : Command) (allowance : Sheet → Nat) (sheet : Sheet) : Report :=
  match command.render allowance sheet ({} : Buffer) with
  | (.ok (), written) => { exit := 0, stdout := written.bytes }
  | (.error error, written) =>
    { exit := 1, stdout := written.bytes, notice := some (.failed command.path error) }

def checkSheet (command : Command) (allowance : Sheet → Nat) (sheet : Sheet) : Report :=
  match command.render allowance sheet Discard.mk with
  | (.ok (), _) => { exit := 0, notice := some (.fine command.path) }
  | (.error error, _) => { exit := 1, notice := some (.failed command.path error) }

def run {m : Type → Type} [Monad m] [Files m] (command : Command) (allowance : Sheet → Nat) :
    m Report := do
  match load command.path (← Files.read command.path) with
  | .error notice => return { exit := 1, notice := some notice }
  | .ok sheet =>
    match command.mode with
    | .build (some output) => command.buildFile allowance output sheet
    | .build none => return command.buildStdout allowance sheet
    | .check => return command.checkSheet allowance sheet

end Command

/-- Carries out what a command line asks for. A command line that is refused exits with code 2. -/
def executeWithin {m : Type → Type} [Monad m] [Files m] (allowance : Sheet → Nat)
    (arguments : List String) : m Report :=
  match Request.parse arguments with
  | .error cause => pure { exit := 2, notice := some (.misuse cause) }
  | .ok .help => pure { exit := 0, stdout := usageText.toUTF8 }
  | .ok .version => pure { exit := 0, stdout := versionText.toUTF8 }
  | .ok (.run command) => command.run allowance

def execute {m : Type → Type} [Monad m] [Files m] (arguments : List String) : m Report :=
  executeWithin Sheet.allowance arguments

end Stylesheet
