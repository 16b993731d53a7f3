import FixedStep.Dimension.Named
import FixedStep.Dimension.Power
/-!
# Annotation — the dimension that a unit expression states

Numbers are plain, names are units, and products, quotients and powers of units are units; the exponent of a power is
a number under signs.  Sums, negated units and calls state no unit.
-/
namespace FixedStep
namespace Expr

/-- The value of a number under signs. -/
def literal? : Expr → Option Float
  | number v _ => some v
  | signed .neg e _ => e.literal?.map Float.neg
  | signed .plus e _ => e.literal?
  | _ => none

/-- **The dimension a unit expression states.**  The left operand of every operator is judged first. -/
def unit : Expr → Checked UnitError Dimension
  | number _ _ => .ok .one
  | name n _ => .ofExcept (Dimension.ofName n)
  | signed .plus e _ => e.unit
  | signed .neg e s => refuse (.unsupported (signed .neg e s).text)
  | call f args s => refuse (.unsupported (call f args s).text)
  | binary op l r s => do
    let base ← l.unit
    match op with
    | .mul => do
      let d ← r.unit
      Checked.ofOption (base.mul? d)
    | .div => do
      let d ← r.unit
      Checked.ofOption (base.div? d)
    | .pow =>
      match r.literal? with
      | some k => .ofExcept (base.power k)
      | none => refuse (.unsupported r.text)
    | .add | .sub => refuse (.unsupported (binary op l r s).text)

end Expr
end FixedStep
