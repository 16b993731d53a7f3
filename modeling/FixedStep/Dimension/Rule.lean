import FixedStep.Dimension.Error
/-!
# Rule — how a function's result gets its dimension

A rule takes the dimensions of the arguments to the dimension of the result.  A function may also come with an
implementation over quantities; it is tried once on unit values, and the dimension it gives is compared.
-/
namespace FixedStep

structure Quantity where
  value : Float
  dimension : Dimension
deriving DecidableEq, Repr

def Quantity.plain (value : Float) : Quantity := ⟨value, .one⟩

/-- The dimension of a result, from those of the arguments. -/
abbrev UnitRule : Type := List Dimension → Checked UnitError Dimension

/-- A function over quantities. -/
abbrev QuantityFunction : Type := List Quantity → Checked UnitError Quantity

namespace UnitRule

/-- The arguments from a position on, which all have to be plain numbers. -/
def plainFrom : Nat → List Dimension → Except UnitError Dimension
  | _, [] => .ok .one
  | i, d :: ds => if d.isOne then plainFrom (i + 1) ds else .error (.mismatch (.argument i) .one d)

/-- Plain numbers go to plain numbers. -/
def dimensionless : UnitRule := fun args => .ofExcept (plainFrom 1 args)

/-- The result has the dimension of the one argument. -/
def preserve : UnitRule
  | [d] => .ok d
  | args => refuse (.arity 1 args.length)

/-- **The result has half the exponents of the one argument**, which have to be even. -/
def squareRoot : UnitRule := fun args => do
  let d ← preserve args
  match d.root 2 with
  | .exact r => .ok r
  | .inexact => refuse (.invalidExponent d 0.5)
  | .overflow => .error .overflow

/-- A declared result is compared with the one found. -/
def confirm (function : String) (declared found : Dimension) : Checked UnitError Unit :=
  if found = declared then .ok () else refuse (.mismatch (.result function) declared found)

/-- **A rule is checked** against the declared dimensions of a function. -/
def check (function : String) (rule : UnitRule) (inputs : List Dimension) (output : Dimension) :
    Checked UnitError Unit := do
  let found ← rule inputs
  confirm function output found

/-- **An implementation over quantities is checked** on the value one in every declared dimension. -/
def checkOperands (function : String) (f : QuantityFunction) (inputs : List Dimension) (output : Dimension) :
    Checked UnitError Unit := do
  let found ← f (inputs.map fun d => ⟨1.0, d⟩)
  confirm function output found.dimension

end UnitRule
end FixedStep
