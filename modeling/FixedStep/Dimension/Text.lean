import FixedStep.Dimension.Basic
/-!
# Text — a dimension written out

The base symbols with an exponent that is not zero, in order; an exponent of one is left out.
-/
namespace FixedStep
namespace Dimension

/-- The symbols of the base units, in the order of the exponents. -/
def symbols : List String := ["m", "kg", "s", "A", "K", "mol", "cd"]

/-- A base symbol raised to an exponent, nothing for zero. -/
def factor? (symbol : String) (e : Int8) : Option String :=
  if e = 0 then none else if e = 1 then some symbol else some (symbol ++ "^" ++ toString e.toInt)

def factors (d : Dimension) : List String :=
  (symbols.zip d.exponents).filterMap fun p => factor? p.1 p.2

/-- **The text of a dimension**: its factors, or `1` without any. -/
def text (d : Dimension) : String :=
  if d.isOne then "1" else " ".intercalate d.factors

/-- The exponents as a list in brackets. -/
def exponentText (d : Dimension) : String :=
  "[" ++ ",".intercalate (d.exponents.map fun e => toString e.toInt) ++ "]"

end Dimension
end FixedStep
