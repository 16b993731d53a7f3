import FixedStep.Decimal.Binary
import FixedStep.Dimension.Error
/-!
# Power — a dimension raised to a number
-/
namespace FixedStep
namespace Dimension

/-- **A dimension to the power `exponent`.**  Plain numbers have every power; any other dimension has those whose
exponent is an integer of magnitude at most 127 and whose products fit. -/
def power (a : Dimension) (exponent : Float) : Except UnitError Dimension :=
  if a.isOne then .ok a
  else
    match integer? exponent with
    | some k =>
      if k.natAbs ≤ 127 then
        match a.scale? k with
        | some d => .ok d
        | none => .error (.invalidExponent a exponent)
      else .error (.invalidExponent a exponent)
    | none => .error (.invalidExponent a exponent)

end Dimension
end FixedStep
