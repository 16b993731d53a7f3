import FixedStep.Decimal.Binary
/-!
# Whole — the whole numbers next to a number

A number with a fraction is taken apart, and its fraction is dropped or filled up in naturals.  A number whose exponent
is not negative is whole as it stands; NaN and the infinities pass unchanged with these.
-/
namespace FixedStep

/-- A natural magnitude under the sign of a number. -/
def withSignOf (x : Float) (n : Nat) : Float := if Binary.isNegative x then -Float.ofNat n else Float.ofNat n

/-- **To the nearest whole number**, halves away from zero. -/
def roundAway (x : Float) : Float :=
  let b := Binary.ofFloat x
  match b.exponent with
  | .ofNat _ => x
  -- a half is `2 ^ k` of the significand's units
  | .negSucc k => withSignOf x ((b.significand + 1 <<< k) >>> (k + 1))

/-- **To the next whole number up.** -/
def roundUp (x : Float) : Float :=
  let b := Binary.ofFloat x
  match b.exponent with
  | .ofNat _ => x
  | .negSucc k =>
    let filled := if Binary.isNegative x then b.significand else b.significand + (1 <<< (k + 1) - 1)
    withSignOf x (filled >>> (k + 1))

end FixedStep
