/-!
# Dimension — products of powers of the seven base quantities

A dimension is seven signed exponents of eight bits.  Products, quotients and reciprocals add, subtract and negate
them, and are undefined where an exponent would leave its range: there the program, built with overflow checks, aborts.
-/
namespace FixedStep

/-- The exponents of length, mass, time, current, temperature, amount and luminous intensity. -/
structure Dimension where
  metre : Int8
  kilogram : Int8
  second : Int8
  ampere : Int8
  kelvin : Int8
  mole : Int8
  candela : Int8
deriving DecidableEq, Repr

namespace Dimension

def one : Dimension := ⟨0, 0, 0, 0, 0, 0, 0⟩

def exponents (d : Dimension) : List Int8 :=
  [d.metre, d.kilogram, d.second, d.ampere, d.kelvin, d.mole, d.candela]

def isOne (d : Dimension) : Bool := d == one

/-- An integer that fits eight bits. -/
def fit? (n : Int) : Option Int8 := if -128 ≤ n ∧ n ≤ 127 then some (Int8.ofInt n) else none

/-- **The exponents combined one by one**, if every result fits. -/
def zip? (f : Int → Int → Int) (a b : Dimension) : Option Dimension := do
  let m ← fit? (f a.metre.toInt b.metre.toInt)
  let kg ← fit? (f a.kilogram.toInt b.kilogram.toInt)
  let s ← fit? (f a.second.toInt b.second.toInt)
  let amp ← fit? (f a.ampere.toInt b.ampere.toInt)
  let k ← fit? (f a.kelvin.toInt b.kelvin.toInt)
  let mol ← fit? (f a.mole.toInt b.mole.toInt)
  let cd ← fit? (f a.candela.toInt b.candela.toInt)
  return ⟨m, kg, s, amp, k, mol, cd⟩

def mul? (a b : Dimension) : Option Dimension := zip? (· + ·) a b

def div? (a b : Dimension) : Option Dimension := zip? (· - ·) a b

def recip? (a : Dimension) : Option Dimension := one.div? a

/-- Every exponent times `k`, if the results fit. -/
def scale? (k : Int) (a : Dimension) : Option Dimension := zip? (fun e _ => e * k) a one

/-- How an attempt to take a root ends. -/
inductive Root where
  | exact (d : Dimension)
  | inexact
  | overflow
deriving DecidableEq, Repr

/-- **The root of order `n`**: every exponent divided by `n`, where `n` is not zero and divides them all.  Dividing the
least exponent by minus one overflows. -/
def root (a : Dimension) (n : Int8) : Root :=
  if n = 0 then .inexact
  else if n = -1 ∧ (-128 : Int8) ∈ a.exponents then .overflow
  else if a.exponents.all fun e => e.toInt.tmod n.toInt = 0 then
    match zip? (fun e _ => e.tdiv n.toInt) a one with
    | some d => .exact d
    | none => .overflow
  else .inexact

end Dimension
end FixedStep
