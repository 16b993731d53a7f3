import FixedStep.Decimal.Layout
import FixedStep.Decimal.Whole
/-!
# Clock — time in steps of one length

The time is the number of steps times the step, so that it never drifts.  A duration is turned into whole steps with a
slack: a product of the step that rounding has moved still counts as that many steps, and anything else is rounded up.

The count of steps is 64 bits wide, and a tick beyond it aborts; what is said of steps is said of fewer than 2^64
(`Network.fits_after`).
-/
namespace FixedStep

/-- The arithmetic in which durations are turned into step counts. -/
class DurationArithmetic (α : Type) where
  one : α
  /-- The relative slack of a step count. -/
  slack : α
  sub : α → α → α
  mul : α → α → α
  div : α → α → α
  abs : α → α
  max : α → α → α
  /-- To the nearest whole number, halves away from zero. -/
  round : α → α
  ceil : α → α
  le : α → α → Bool
  /-- A number as a count of 64 bits, the greatest one if it is larger. -/
  toCount : α → Nat

instance : DurationArithmetic Float where
  one := 1.0
  slack := 1e-9
  sub := (· - ·)
  mul := (· * ·)
  div := (· / ·)
  abs := Float.abs
  max x y := if x ≤ y then y else x
  round := roundAway
  ceil := roundUp
  le x y := x ≤ y
  toCount x := x.toUInt64.toNat

open DurationArithmetic in
/-- **The whole number of steps in a duration**: the nearest one if the quotient is within the slack of it, else the
next one up. -/
def wholeSteps {α : Type} [DurationArithmetic α] (dt duration : α) : α :=
  let exact := div duration dt
  let nearest := round exact
  if le (abs (sub exact nearest)) (mul slack (max nearest one)) then nearest else ceil exact

/-- **The count of the steps in a duration.** -/
abbrev stepCount {α : Type} [DurationArithmetic α] (dt duration : α) : Nat :=
  DurationArithmetic.toCount (wholeSteps dt duration)

inductive ClockError where
  | invalidStep (dt : Float)
  | invalidDuration (duration : Float)
deriving DecidableEq, Repr

def invalidStepMessage (dt : Float) : String := "dt must be positive and finite, got " ++ showNumber dt

def ClockError.message : ClockError → String
  | invalidStep dt => invalidStepMessage dt
  | invalidDuration d => "duration must be non-negative and finite, got " ++ showNumber d

/-- A clock that has taken `step` steps of length `dt`. -/
structure Clock where
  dt : Float
  step : Nat
deriving DecidableEq, Repr

def isStepLength (dt : Float) : Bool := Binary.isFinite dt && 0.0 < dt

namespace Clock

/-- **A clock at step zero.** -/
def start (dt : Float) : Except ClockError Clock :=
  if isStepLength dt then .ok ⟨dt, 0⟩ else .error (.invalidStep dt)

def t (c : Clock) : Float := Float.ofNat c.step * c.dt

def tick (c : Clock) : Clock := ⟨c.dt, c.step + 1⟩

def reset (c : Clock) : Clock := ⟨c.dt, 0⟩

/-- **The number of steps a duration takes**, at most the greatest count of 64 bits. -/
def stepsFor (c : Clock) (duration : Float) : Except ClockError Nat :=
  if Binary.isFinite duration && 0.0 ≤ duration then .ok (stepCount c.dt duration)
  else .error (.invalidDuration duration)

end Clock
end FixedStep
