import FixedStep.Backend
import FixedStep.Decimal.Reading
/-!
# Arguments — the command line taken apart

Options are read from the left.  An option's value follows it, or stands behind an equals sign; a value that follows may
not look like an option.  An option with one value is given once.  After `--` there are no more options.
-/
namespace FixedStep
namespace CommandLine

inductive Emit where
  | values
  | nativeSource
  | registry
deriving DecidableEq, Repr

def Emit.ofWord? : String → Option Emit
  | "values" => some .values
  | "native-source" => some .nativeSource
  | "registry" => some .registry
  | _ => none

structure Options where
  source : Option String := none
  backend : Option Backend := none
  dt : Option Float := none
  duration : Option Float := none
  len : Nat := 1
  sets : List String := []
  constants : List String := []
  monitors : List String := []
  emit : Emit := .values
  config : Option String := none
deriving Repr

inductive Key where
  | backend
  | dt
  | duration
  | len
  | set
  | const
  | monitor
  | emit
  | config
deriving DecidableEq, Repr

namespace Key

def ofWord? : String → Option Key
  | "backend" => some backend
  | "dt" => some dt
  | "duration" => some duration
  | "len" => some len
  | "set" => some set
  | "const" => some const
  | "monitor" => some monitor
  | "emit" => some emit
  | "config" => some config
  | _ => none

/-- Whether an option may be given again, each value adding to the ones before. -/
def isRepeatable : Key → Bool
  | set => true
  | const => true
  | monitor => true
  | _ => false

/-- The greatest length that is accepted. -/
def lengthLimit : Nat := UInt64.size - 1

/-- **The options with one more value**, if the value is one of the option's kind. -/
def put? (key : Key) (value : String) (o : Options) : Option Options :=
  match key with
  | backend => (Backend.ofTag? value).map fun b => { o with backend := some b }
  | dt => (readNumber value).toOption.map fun x => { o with dt := some x }
  | duration => (readNumber value).toOption.map fun x => { o with duration := some x }
  | len => (readNatural value).bind fun n => if n ≤ lengthLimit then some { o with len := n } else none
  | set => some { o with sets := o.sets ++ [value] }
  | const => some { o with constants := o.constants ++ [value] }
  | monitor => some { o with monitors := o.monitors ++ [value] }
  | emit => (Emit.ofWord? value).map fun e => { o with emit := e }
  | config => if value.isEmpty then none else some { o with config := some value }

end Key

inductive Request where
  | run (options : Options)
  | help
  | version
  | misuse
deriving Repr

/-- What has been read: the options, the single-valued ones among them, and whether the verbose flag was given. -/
structure Progress where
  options : Options := {}
  given : List Key := []
  verbose : Bool := false

namespace Progress

/-- The one positional argument: the path of the equations. -/
def positional? (p : Progress) (arg : String) : Option Progress :=
  if p.options.source.isSome || arg.isEmpty then none
  else some { p with options := { p.options with source := some arg } }

def value? (p : Progress) (key : Key) (value : String) : Option Progress :=
  if key ∈ p.given then none
  else (key.put? value p.options).map fun o =>
    { p with options := o, given := if key.isRepeatable then p.given else key :: p.given }

def verbose? (p : Progress) : Option Progress := if p.verbose then none else some { p with verbose := true }

end Progress

/-- An argument with a hyphen in front and more behind it. -/
def looksLikeOption (arg : String) : Bool :=
  match arg.toList with
  | '-' :: _ :: _ => true
  | _ => false

def splitAtEquals (cs : List Char) : String × Option String :=
  let name := cs.takeWhile (· != '=')
  match cs.drop name.length with
  | _ :: value => (String.ofList name, some (String.ofList value))
  | [] => (String.ofList name, none)

/-- Arguments after which there are no more options. -/
def readPositionals : Progress → List String → Request
  | p, [] => .run p.options
  | p, arg :: args =>
    match p.positional? arg with
    | some p => readPositionals p args
    | none => .misuse

/-- **The arguments one by one.**  An option whose value is still to come is `pending`. -/
def readArguments : Progress → Option Key → List String → Request
  | p, none, [] => .run p.options
  | _, some _, [] => .misuse
  | p, some key, arg :: args =>
    if looksLikeOption arg then .misuse
    else match p.value? key arg with
      | some p => readArguments p none args
      | none => .misuse
  | p, none, arg :: args =>
    let next (q : Option Progress) : Request :=
      match q with
      | some q => readArguments q none args
      | none => .misuse
    match arg.toList with
    | ['-', '-'] => readPositionals p args
    | '-' :: '-' :: cs =>
      match splitAtEquals cs with
      | ("help", none) => .help
      | ("version", none) => .version
      | ("verbose", none) => next p.verbose?
      | (name, some value) =>
        match Key.ofWord? name with
        | some key => next (p.value? key value)
        | none => .misuse
      | (name, none) =>
        match Key.ofWord? name with
        | some key => readArguments p (some key) args
        | none => .misuse
    | '-' :: 'h' :: _ => .help
    | '-' :: 'V' :: _ => .version
    | '-' :: _ :: _ => .misuse
    | _ => next (p.positional? arg)

def Request.ofArguments (args : List String) : Request := readArguments {} none args

end CommandLine
end FixedStep
