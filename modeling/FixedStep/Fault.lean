/-!
# Fault — how a computation over dimensions ends without a value

Exponents are eight bits wide.  A computation that would need a wider one has no answer to give and no cause to report:
it ends in `overflow`, apart from every refusal.  This is the program built with overflow checks, where such a sum aborts;
built without them the exponent would wrap around instead, and no result here speaks of that build.
-/
namespace FixedStep

/-- The end of a computation without a value. -/
inductive Fault (ε : Type) where
  /-- It was refused, with a cause. -/
  | refused (cause : ε)
  /-- An exponent left its eight bits. -/
  | overflow
deriving DecidableEq, Repr

/-- A value, a refusal or an overflow. -/
abbrev Checked (ε α : Type) : Type := Except (Fault ε) α

def refuse {ε α : Type} (cause : ε) : Checked ε α := .error (.refused cause)

/-- A value that may have overflowed. -/
def Checked.ofOption {ε α : Type} : Option α → Checked ε α
  | some a => .ok a
  | none => .error .overflow

/-- An ordinary result, in a computation that may overflow. -/
def Checked.ofExcept {ε α : Type} : Except ε α → Checked ε α
  | .ok a => .ok a
  | .error e => refuse e

/-- The same computation, its refusals restated. -/
def Checked.mapRefusal {ε δ α : Type} (f : ε → δ) : Checked ε α → Checked δ α
  | .ok a => .ok a
  | .error (.refused e) => refuse (f e)
  | .error .overflow => .error .overflow

end FixedStep
