import FixedStep.Backend
import FixedStep.Dimension.Rule
/-!
# Function — a function that expressions may call

A function has declared dimensions, an implementation over plain numbers, perhaps a rule for other dimensions, and the
code that lets generated programs call it.  Functions are made from drafts, which are checked.
-/
namespace FixedStep

/-- Code that makes a function known to a program. -/
structure Fragment where
  /-- Definitions placed before the program's own. -/
  supportCode : String
  /-- Textual substitutions placed before all definitions. -/
  defines : String
deriving DecidableEq, Repr

structure Signature where
  inputs : List Dimension
  output : Dimension
deriving DecidableEq, Repr

/-- Plain numbers throughout, for a number of arguments. -/
def Signature.plain (arity : Nat) : Signature := ⟨List.replicate arity .one, .one⟩

/-- Whether all declared dimensions are those of plain numbers. -/
def Signature.isPlain (s : Signature) : Bool := s.output.isOne && s.inputs.all Dimension.isOne

structure Function where
  name : String
  signature : Signature
  implementation : List Float → Float
  /-- How many arguments the implementation looks at, whatever it is given. -/
  leastArguments : Nat
  rule : Option UnitRule
  interpreted : Option Fragment
  native : Option Fragment

namespace Function

def arity (f : Function) : Nat := f.signature.inputs.length

def fragment (f : Function) : Backend → Option Fragment
  | .interpreted => f.interpreted
  | .native => f.native

/-- Every function can be interpreted; a generated program needs its code. -/
def supports (f : Function) : Backend → Bool
  | .interpreted => true
  | .native => f.native.isSome

/-- Arguments compared with the declared inputs, from a position on. -/
def matchInputs (name : String) (output : Dimension) : Nat → List Dimension → List Dimension →
    Except UnitError Dimension
  | i, found :: args, declared :: inputs =>
    if found = declared then matchInputs name output (i + 1) args inputs
    else .error (.mismatch (.argumentOf i name) declared found)
  | _, _, _ => .ok output

/-- **The dimension of a call's result**: by the rule if there is one, else by the declared dimensions. -/
def resultUnit (f : Function) (args : List Dimension) : Checked UnitError Dimension :=
  if args.length ≠ f.arity then refuse (.arity f.arity args.length)
  else match f.rule with
    | some rule => rule args
    | none => .ofExcept (matchInputs f.name f.signature.output 1 args f.signature.inputs)

def call (f : Function) (args : List Float) : Except UnitError Float :=
  if args.length ≠ f.arity then .error (.arity f.arity args.length) else .ok (f.implementation args)

/-- **A call on quantities**: the dimensions are judged first, and the value is that of the plain call. -/
def callQuantities (f : Function) (args : List Quantity) : Checked UnitError Quantity := do
  let d ← f.resultUnit (args.map (·.dimension))
  let v ← Checked.ofExcept (f.call (args.map (·.value)))
  return ⟨v, d⟩

def isCompatible (f g : Function) : Bool := f.name == g.name && f.signature == g.signature

end Function

/-- A function as it is proposed: dimensions, rule, implementation over quantities and code may all be left out. -/
structure Draft where
  name : String
  arity : Nat
  implementation : List Float → Float
  leastArguments : Nat := 0
  units : Option Signature := none
  rule : Option UnitRule := none
  overQuantities : Option QuantityFunction := none
  interpreted : Option Fragment := none
  native : Option Fragment := none

namespace Draft

/-- The declared dimensions, those of plain numbers where none are given. -/
def signature (d : Draft) : Signature := d.units.getD (.plain d.arity)

def function (d : Draft) : Function :=
  ⟨d.name, d.signature, d.implementation, d.leastArguments, d.rule, d.interpreted, d.native⟩

/-- **A draft becomes a function when its declared dimensions fit** the number of arguments, its rule and its
implementation over quantities; dimensions other than those of plain numbers need one of the two. -/
def build (d : Draft) : Checked UnitError Function := do
  let s := d.signature
  if s.inputs.length ≠ d.arity then refuse (.arity d.arity s.inputs.length)
  if let some rule := d.rule then UnitRule.check d.name rule s.inputs s.output
  if let some f := d.overQuantities then UnitRule.checkOperands d.name f s.inputs s.output
  if d.rule.isNone && d.overQuantities.isNone && !s.isPlain then refuse (.unchecked d.name)
  return d.function

end Draft
end FixedStep
