import FixedStep.Backend
import FixedStep.Dimension.Error
import FixedStep.Expr.Parse
/-!
# CompileError — why a set of equations is refused
-/
namespace FixedStep

/-- Where two dimensions of a set of equations differ. -/
inductive MismatchPlace where
  /-- The operands of a sum or difference, in the expression with the given text. -/
  | operands (op : Operator) (expr : String)
  | exponent (expr : String)
  | call (place : UnitPlace) (function : String)
  | equation (target : String)
deriving DecidableEq, Repr

def MismatchPlace.text : MismatchPlace → String
  | operands op expr => "operands of `" ++ op.text ++ "` in `" ++ expr ++ "`"
  | exponent expr => "exponent in `" ++ expr ++ "`"
  | call place f => place.text ++ " of `" ++ f ++ "`"
  | equation target => "equation for `" ++ target ++ "`"

inductive UnitsPlace where
  | power (expr : String)
  | call (function : String)
deriving DecidableEq, Repr

def UnitsPlace.text : UnitsPlace → String
  | power expr => "`" ++ expr ++ "`"
  | call f => "call to `" ++ f ++ "`"

inductive CompileError where
  | parse (issues : List Issue)
  | undefinedIdentifier (name : String)
  | unknownFunction (name : String)
  | notCallable (name : String)
  | notAValue (name : String)
  | arity (name : String) (expected found : Nat)
  | mismatch (place : MismatchPlace) (expected found : Dimension)
  | units (place : UnitsPlace) (source : UnitError)
  | invalidUnit (target : String) (source : UnitError)
  | nonConstantExponent (base : Dimension)
  | duplicateTarget (name : String)
  | backendUnavailable (backend : Backend)
deriving Repr

namespace CompileError

def message : CompileError → String
  | parse issues => "parse error: " ++ "; ".intercalate (issues.map Issue.text)
  | undefinedIdentifier name => "undefined identifier `" ++ name ++ "`"
  | unknownFunction name => "unknown function `" ++ name ++ "`"
  | notCallable name => "`" ++ name ++ "` is not a function"
  | notAValue name => "function `" ++ name ++ "` cannot be used as a value"
  | arity name expected found =>
    "`" ++ name ++ "` expects " ++ toString expected ++ " argument(s), found " ++ toString found
  | mismatch place expected found => mismatchMessage place.text expected found
  | units place source => place.text ++ ": " ++ source.message
  | invalidUnit target source => "invalid unit for `" ++ target ++ "`: " ++ source.message
  | nonConstantExponent base => "exponent must be a constant when the base has units (" ++ base.text ++ ")"
  | duplicateTarget name => "`" ++ name ++ "` is defined more than once"
  | backendUnavailable b => "backend `" ++ b.tag ++ "` is not available on this host"

end CompileError
end FixedStep
