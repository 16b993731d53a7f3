import FixedStep.Decimal.Binary
/-!
# Shortest — the fewest decimal digits that read back

A decimal reads back as a number when it lies among the reals that round to it.  For one digit, two digits and so on,
the two neighbours of the number on that decimal grid are tested; the first grid with a hit gives the digits, and of
two hits the nearer one wins.
-/
namespace FixedStep

/-- Which of two equally near decimals is taken. -/
inductive Tie where
  | toEven
  | up
deriving DecidableEq, Repr

/-- A decimal by its digits, the first one not zero, with the point after the first `point` of them. -/
structure Digits where
  digits : List Char
  point : Int
deriving DecidableEq, Repr

namespace Binary

/-- The comparison of `a * 10 ^ i` with `n * 2 ^ j`, in naturals. -/
def compareScaled (a : Nat) (i : Int) (n : Nat) (j : Int) : Ordering :=
  compare ((a * Nat.pow 10 i.toNat) <<< (-j).toNat) ((n * Nat.pow 10 (-i).toNat) <<< j.toNat)

/-- **`d * 10 ^ k` reads back as `b`**: it lies between the middles of the two gaps around `b`, which belong to `b`
when its significand is even. -/
def readsBack (b : Binary) (d : Nat) (k : Int) : Bool :=
  let low := compareScaled d k (4 * b.significand - if b.narrow then 1 else 2) (b.exponent - 2)
  let high := compareScaled d k (4 * b.significand + 2) (b.exponent - 2)
  if b.significand % 2 = 0 then low.isGE && high.isLE else low.isGT && high.isLT

/-- Numerator and denominator of `b / 10 ^ k`. -/
def quotient (b : Binary) (k : Int) : Nat × Nat :=
  ((b.significand * Nat.pow 10 (-k).toNat) <<< b.exponent.toNat, Nat.pow 10 k.toNat <<< (-b.exponent).toNat)

/-- The least `k` with `b < 10 ^ k`, for a magnitude that is not zero.  From one on it counts the digits before the
point; below one it counts those of the reciprocal, which is no power of ten. -/
def magnitude (b : Binary) : Int :=
  let (n, d) := b.quotient 0
  if d ≤ n then (Nat.toDigits 10 (n / d)).length else 1 - (Nat.toDigits 10 (d / n)).length

/-- The multiple of `10 ^ k` next to `b` that reads back, the nearer of two. -/
def onGrid (tie : Tie) (b : Binary) (k : Int) : Option Nat :=
  let (n, d) := b.quotient k
  let low := n / d
  match b.readsBack low k, b.readsBack (low + 1) k with
  | true, true =>
    match compare (2 * n) ((2 * low + 1) * d) with
    | .lt => some low
    | .gt => some (low + 1)
    | .eq => some (if tie = .toEven ∧ low % 2 = 0 then low else low + 1)
  | true, false => some low
  | false, true => some (low + 1)
  | false, false => none

/-- The decimal `d * 10 ^ k`, without the zeros at its end. -/
def digitsOf (d : Nat) (k : Int) : Digits :=
  let text := Nat.toDigits 10 d
  ⟨(text.reverse.dropWhile (· == '0')).reverse, text.length + k⟩

/-- The exact decimal value. -/
def exactDigits (b : Binary) : Digits :=
  digitsOf ((b.significand * Nat.pow 5 (-b.exponent).toNat) <<< b.exponent.toNat) (min b.exponent 0)

/-- **The shortest digits of a magnitude.**  Seventeen digits always suffice, and the exact value would follow. -/
def shortest (tie : Tie) (b : Binary) : Digits :=
  if b.significand = 0 then ⟨['0'], 1⟩
  else
    let top := b.magnitude
    let hit := (List.range 17).findSome? fun n : Nat =>
      (b.onGrid tie (top - (n + 1))).map fun d => (d, top - (n + 1))
    match hit with
    | some (d, k) => digitsOf d k
    | none => b.exactDigits

end Binary
end FixedStep
