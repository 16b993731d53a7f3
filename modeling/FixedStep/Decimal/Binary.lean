/-!
# Binary — a number taken apart

A finite number is a natural significand times a power of two.  The parts are read off its bits, so that questions of
size, integrality and nearest decimals are asked of naturals.
-/
namespace FixedStep

/-- A finite magnitude: `significand * 2 ^ exponent`. -/
structure Binary where
  significand : Nat
  exponent : Int
  /-- The gap to the next magnitude below is half the gap to the next above. -/
  narrow : Bool
deriving DecidableEq, Repr

namespace Binary

/-- The sign bit, set for `-0.0` too. -/
def isNegative (x : Float) : Bool := x.toBits.toNat / 0x8000000000000000 == 1

/-- The eleven bits of the biased exponent. -/
def exponentBits (x : Float) : Nat := x.toBits.toNat / 0x10000000000000 % 0x800

/-- The fifty-two bits of the fraction. -/
def fractionBits (x : Float) : Nat := x.toBits.toNat % 0x10000000000000

/-- Neither NaN nor an infinity: those have every exponent bit set. -/
def isFinite (x : Float) : Bool := exponentBits x != 2047

/-- **The magnitude of a finite number.**  An exponent field of zero marks the subnormal numbers, which have no hidden
bit; a power of two has a narrower gap below, the least normal one excepted. -/
def ofFloat (x : Float) : Binary :=
  if exponentBits x = 0 then ⟨fractionBits x, -1074, false⟩
  else ⟨0x10000000000000 + fractionBits x, exponentBits x - 1075, fractionBits x == 0 && exponentBits x != 1⟩

/-- The magnitude as a natural, if it is one. -/
def toNat? (b : Binary) : Option Nat :=
  match b.exponent with
  | .ofNat k => some (b.significand <<< k)
  | .negSucc k =>
    let n := b.significand >>> (k + 1)
    if n <<< (k + 1) = b.significand then some n else none

end Binary

/-- **The integer a number equals**, if it equals one. -/
def integer? (x : Float) : Option Int :=
  if Binary.isFinite x then
    (Binary.ofFloat x).toNat?.map fun n => if Binary.isNegative x then -(n : Int) else (n : Int)
  else none

end FixedStep
