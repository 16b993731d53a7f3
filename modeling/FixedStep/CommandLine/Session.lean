import FixedStep.Abort
import FixedStep.Catalog.Listing
import FixedStep.CommandLine.Arguments
import FixedStep.CommandLine.Files
import FixedStep.Settings
/-!
# Session — one use of the command line

The equations of a file become one group, which runs for a duration while monitors record; the outcome is a report in
JSON.  On request the generated program or the catalog's listing is printed instead.  A session that fails prints one
line and ends with code 1 when the equations or the run are at fault, with code 2 when the request is.
-/
namespace FixedStep
namespace CommandLine

structure Outcome where
  code : Nat
  output : String
  errorOutput : String
deriving DecidableEq, Repr

/-- What a session sees of its host. -/
structure Host where
  fileText : String → Except FileError String
  environment : String → Option String
  /-- The toolchain found for a compiler command and its flags. -/
  toolchain : CompilerSettings → Option Toolchain

inductive Failure where
  /-- With a code and a message. -/
  | report (code : Nat) (message : String)
  /-- An exponent left its eight bits. -/
  | overflow
  /-- The elements asked for are more than a column can hold. -/
  | capacity
deriving Repr

namespace Outcome

def success (output : String) : Outcome := ⟨0, output, ""⟩

def failure : Failure → Outcome
  | .report code message => ⟨code, "", "eqsim: error: " ++ message ++ "\n"⟩
  | .overflow => ⟨101, "", "exponent overflow\n"⟩
  | .capacity => ⟨101, "", "capacity overflow\n"⟩

def usage : String := "Usage: eqsim [OPTIONS] [SOURCE]\n"

end Outcome

/-- A name and a value around the first equals sign, the blanks cut off; the name may not be empty. -/
def assignment? (arg : String) : Option (String × String) :=
  match splitAtEquals arg.toList with
  | (_, none) => none
  | (name, some value) => if (Text.trim name).isEmpty then none else some (Text.trim name, Text.trim value)

def badArgument {α : Type} (option arg reason : String) : Except Failure α :=
  .error (.report 2 ("bad --" ++ option ++ " `" ++ arg ++ "`" ++ reason))

/-- The constants of `NAME=VALUE` arguments, later ones in place of earlier ones. -/
def readConstants : Constants → List String → Except Failure Constants
  | constants, [] => .ok constants
  | constants, arg :: args =>
    match assignment? arg with
    | none => badArgument "const" arg ", expected NAME=VALUE"
    | some (name, value) =>
      match readNumber value with
      | .error e => badArgument "const" arg (": " ++ e.message)
      | .ok x => readConstants (constants.insert name (.plain x)) args

/-- Numbers with commas between them. -/
def readNumbers (text : String) : Except NumberError (List Float) :=
  (text.splitOn ",").mapM fun item => readNumber (Text.trim item)

/-- A network's refusal, with the code it ends a session with. -/
def networkFailure (code : Nat) (e : NetworkError) : Failure := .report code e.message

/-- The group with the values of `VAR=VALUES` arguments; one value is for all elements. -/
def setValues : Group → List String → Except Failure Group
  | g, [] => .ok g
  | g, arg :: args =>
    match assignment? arg with
    | none => badArgument "set" arg ", expected VAR=VALUES"
    | some (name, text) =>
      match readNumbers text with
      | .error e => badArgument "set" arg (": " ++ e.message)
      | .ok [x] => do
        if g.fillAborts then throw .capacity
        let (result, after) := g.fill name x
        result.mapError (networkFailure 2)
        setValues after args
      | .ok values => do
        let (result, after) := g.set name values
        result.mapError (networkFailure 2)
        setValues after args

/-- Monitors added in order, with their numbers. -/
def addMonitors (group : Nat) : Network → List String → Except Failure (List Nat × Network)
  | n, [] => .ok ([], n)
  | n, name :: names => do
    let (result, n) := n.addMonitor group name
    let number ← result.mapError (networkFailure 2)
    let (numbers, n) ← addMonitors group n names
    return (number :: numbers, n)

def monitorReport (m : Monitor) : Json :=
  .object [
    ("times", .array (m.times.toList.map .number)),
    ("values", .array (m.rows.toList.map fun c => .array (c.map .number))),
    ("variable", .string m.variableName)]

/-- **The report of a run**, its fields in name order. -/
def report (backend : Backend) (dt : Float) (monitors : List Nat) (n : Network) : Json :=
  .object [
    ("backend", .string backend.tag),
    ("dt", .number dt),
    ("monitors", .array ((monitors.filterMap n.monitor?).map monitorReport)),
    ("t", .number n.clock.t)]

/-- A compilation's result within a session. -/
def compiled {α : Type} : Checked CompileError α → Except Failure α
  | .ok a => .ok a
  | .error (.refused e) => .error (.report 1 e.message)
  | .error .overflow => .error .overflow

/-- The settings of a session: those of the file if one is named, and the environment's compiler. -/
def loadSettings (host : Host) (o : Options) : Except Failure Settings := do
  let settings ← match o.config with
    | none => .ok .standard
    | some path =>
      match host.fileText path with
      | .error e => .error (.report 2 ("cannot read config " ++ path ++ ": " ++ e.message))
      | .ok text => (Settings.read text).mapError fun e => Failure.report 2 e.message
  return settings.override host.environment

/-- The network of one group, run for the duration asked for, and the report about it. -/
def simulate (o : Options) (dt : Float) (code : CodeObject) : Except Failure String := do
  let monitored := if o.monitors.isEmpty then code.targets else o.monitors
  if Group.startAborts o.len code then throw .capacity
  let group ← setValues (.start "group" o.len code) o.sets
  let clock ← (Clock.start dt).mapError fun e => Failure.report 2 e.message
  let (number, network) := (Network.start clock).addGroup group
  let (monitors, network) ← addMonitors number network monitored
  let done := network.run (o.duration.getD dt)
  match done.failure with
  | some e => .error (networkFailure 1 e)
  | none => return (report code.backend dt monitors done.network).indented 0 ++ "\n"

/-- **The output of a session.** -/
def output (host : Host) (o : Options) : Except Failure String := do
  let settings ← loadSettings host o
  let dt := o.dt.getD settings.dt
  let backend := o.backend.getD settings.backend
  if o.emit = .registry then return Catalog.standard.listing ++ "\n"
  else match o.source with
    | none => .error (.report 2 "no equation file given")
    | some path =>
      match host.fileText path with
      | .error e => .error (.report 2 (path ++ ": " ++ e.message))
      | .ok source => do
        let constants ← readConstants .empty o.constants
        let toolchain := if backend = .native then host.toolchain settings.compiler else none
        let compiler : Compiler := ⟨.standard, toolchain⟩
        if o.emit = .nativeSource then
          let code ← compiled (compiler.compileSource source constants .interpreted)
          return (Kernel.generate code.resolved).source
        else
          let code ← compiled (compiler.compileSource source constants backend)
          simulate o dt code

/-- **A session from its arguments.** -/
def run (host : Host) (args : List String) : Outcome :=
  match Request.ofArguments args with
  | .help => .success Outcome.usage
  | .version => .success "eqsim 0.1.0\n"
  | .misuse => ⟨2, "", Outcome.usage⟩
  | .run o =>
    match output host o with
    | .ok text => .success text
    | .error e => .failure e

end CommandLine
end FixedStep
