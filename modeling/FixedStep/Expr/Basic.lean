import FixedStep.Span
/-!
# Expr — expressions, equations and sets of equations

Every node carries the bytes it was read from.  A unit annotation is an expression like any other; an equation without
a right-hand side declares a free variable.
-/
namespace FixedStep

/-- A name where it stands. -/
structure Ident where
  name : String
  span : Span
deriving DecidableEq, Repr

inductive Sign where
  | neg
  | plus
deriving DecidableEq, Repr

inductive Operator where
  | add
  | sub
  | mul
  | div
  | pow
deriving DecidableEq, Repr

inductive Expr where
  | number (value : Float) (span : Span)
  | name (text : String) (span : Span)
  | signed (sign : Sign) (operand : Expr) (span : Span)
  | binary (op : Operator) (lhs rhs : Expr) (span : Span)
  | call (function : Ident) (args : List Expr) (span : Span)
deriving Repr

namespace Expr

/-- The bytes an expression was read from, without parentheses around it. -/
def span : Expr → Span
  | number _ s => s
  | name _ s => s
  | signed _ _ s => s
  | binary _ _ _ s => s
  | call _ _ s => s

end Expr

/-- `target = rhs : unit`, or `target : unit`. -/
structure Equation where
  target : Ident
  rhs : Option Expr
  unit : Expr
  span : Span
deriving Repr

/-- Equations compiled together, in the order they are written. -/
structure EquationSet where
  equations : List Equation
  span : Span
deriving Repr

def EquationSet.updates (set : EquationSet) : List Equation := set.equations.filter (·.rhs.isSome)

end FixedStep
