import FixedStep.Decimal.Layout
import FixedStep.Dimension.Text
import FixedStep.Expr.Text
import FixedStep.Fault
/-!
# Error — why dimensions are refused
-/
namespace FixedStep

/-- Where two dimensions were compared. -/
inductive UnitPlace where
  /-- The argument at a position, counted from one. -/
  | argument (position : Nat)
  | argumentOf (position : Nat) (function : String)
  | result (function : String)
deriving DecidableEq, Repr

def UnitPlace.text : UnitPlace → String
  | argument i => "argument " ++ toString i
  | argumentOf i f => "argument " ++ toString i ++ " of `" ++ f ++ "`"
  | result f => "result of `" ++ f ++ "`"

inductive UnitError where
  | mismatch (place : UnitPlace) (expected found : Dimension)
  | unknownUnit (name : String)
  | invalidExponent (base : Dimension) (exponent : Float)
  | arity (expected found : Nat)
  /-- The text of what is no unit. -/
  | unsupported (text : String)
  | unchecked (function : String)
deriving DecidableEq, Repr

/-- The sentence about two dimensions that differ. -/
def mismatchMessage (place : String) (expected found : Dimension) : String :=
  "dimension mismatch in " ++ place ++ ": expected " ++ expected.text ++ ", found " ++ found.text

namespace UnitError

def message : UnitError → String
  | mismatch place expected found => mismatchMessage place.text expected found
  | unknownUnit name => "unknown unit `" ++ name ++ "`"
  | invalidExponent base exponent =>
    "cannot raise " ++ base.text ++ " to the non-integer power " ++ showNumber exponent
  | arity expected found =>
    "expected " ++ toString expected ++ " argument(s), found " ++ toString found
  | unsupported text => "unsupported unit expression: " ++ text
  | unchecked f => "`" ++ f ++ "` declares units but has no unit rule or unit-aware implementation"

end UnitError
end FixedStep
