import FixedStep.Decimal.Shortest
/-!
# Layout — a number written out

The digits are the shortest ones; a layout says where the point stands, when an exponent is written, and what the
values without digits are called.
-/
namespace FixedStep

structure Layout where
  /-- Leading digits worth `10 ^ e` are written without an exponent when `plainFrom ≤ e < plainBelow`. -/
  plainFrom : Int
  plainBelow : Int
  /-- A whole number ends in `.0`. -/
  pointZero : Bool
  /-- A positive exponent has a sign. -/
  plusSign : Bool
  tie : Tie
  nan : String
  infinity : String
deriving Repr

namespace Layout

/-- Digits with the point among, before or behind them, and no exponent. -/
def plain (layout : Layout) (d : Digits) : List Char :=
  if d.point ≤ 0 then '0' :: '.' :: List.replicate (-d.point).toNat '0' ++ d.digits
  else if (d.digits.length : Int) ≤ d.point then
    d.digits ++ List.replicate (d.point - d.digits.length).toNat '0' ++ if layout.pointZero then ['.', '0'] else []
  else d.digits.take d.point.toNat ++ '.' :: d.digits.drop d.point.toNat

/-- One digit, the point if more follow, and the exponent. -/
def scientific (layout : Layout) (d : Digits) : List Char :=
  let e := d.point - 1
  let mantissa :=
    match d.digits with
    | [] => []
    | [c] => [c]
    | c :: cs => c :: '.' :: cs
  let sign := if e < 0 then ['-'] else if layout.plusSign then ['+'] else []
  mantissa ++ 'e' :: sign ++ Nat.toDigits 10 e.natAbs

/-- A decimal without a sign. -/
def unsigned (layout : Layout) (d : Digits) : List Char :=
  if layout.plainFrom ≤ d.point - 1 ∧ d.point - 1 < layout.plainBelow then layout.plain d else layout.scientific d

/-- **The text of a number.**  A minus sign is written wherever the sign bit is set, NaN excepted. -/
def render (layout : Layout) (x : Float) : String :=
  if x.isNaN then layout.nan
  else
    let sign := if Binary.isNegative x then "-" else ""
    if Binary.isFinite x then
      sign ++ String.ofList (layout.unsigned ((Binary.ofFloat x).shortest layout.tie))
    else sign ++ layout.infinity

/-- Numbers in messages and printed expressions never have an exponent. -/
def message : Layout where
  plainFrom := -400
  plainBelow := 400
  pointZero := false
  plusSign := false
  tie := .up
  nan := "NaN"
  infinity := "inf"

end Layout

def showNumber (x : Float) : String := Layout.message.render x

end FixedStep
