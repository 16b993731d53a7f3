import FixedStep.Catalog.Basic
/-!
# Builtin — the functions every catalog starts from

Sixteen functions of one plain argument.  Generated programs call them by the names of the mathematical library, which
three inverse functions and the absolute value are renamed to.
-/
namespace FixedStep
namespace Catalog

/-- A function of one number, applied to a row of arguments. -/
def unary (f : Float → Float) : List Float → Float
  | x :: _ => f x
  | [] => 0.0 / 0.0

/-- A function of one argument that generated programs reach by a substitution, or by its own name. -/
def builtin (name : String) (f : Float → Float) (rule : UnitRule) (defines : String) : Function where
  name := name
  signature := .plain 1
  implementation := unary f
  leastArguments := 1
  rule := some rule
  interpreted := none
  native := some ⟨"", defines⟩

def builtins : List Function := [
  builtin "sin" Float.sin .dimensionless "",
  builtin "cos" Float.cos .dimensionless "",
  builtin "tan" Float.tan .dimensionless "",
  builtin "sinh" Float.sinh .dimensionless "",
  builtin "cosh" Float.cosh .dimensionless "",
  builtin "tanh" Float.tanh .dimensionless "",
  builtin "arcsin" Float.asin .dimensionless "#define arcsin asin",
  builtin "arccos" Float.acos .dimensionless "#define arccos acos",
  builtin "arctan" Float.atan .dimensionless "#define arctan atan",
  builtin "exp" Float.exp .dimensionless "",
  builtin "log" Float.log .dimensionless "",
  builtin "log10" Float.log10 .dimensionless "",
  builtin "sqrt" Float.sqrt .squareRoot "",
  builtin "ceil" Float.ceil .preserve "",
  builtin "floor" Float.floor .preserve "",
  builtin "abs" Float.abs .preserve "#define abs fabs"]

/-- **The catalog to start from.** -/
def standard : Catalog := .ofList (builtins.map fun f => (f.name, f))

end Catalog
end FixedStep
