import FixedStep.Catalog.Basic
import FixedStep.CompileError
import FixedStep.Dimension.Annotation
/-!
# Scope — what the names of a set of equations stand for

A name is a state variable of the set, else a constant of the caller, else one of the clock's readings, else a function
that the set uses.  State variables are counted in the order of their equations; the count is the variable's slot.
-/
namespace FixedStep

abbrev Constants : Type := NameMap Quantity

/-- What the clock tells the equations. -/
inductive ClockReading where
  /-- The time of the tick, called `t`. -/
  | time
  /-- The length of the tick, called `dt`. -/
  | step
deriving DecidableEq, Repr

/-- A state variable: its dimension, and the place of its equation among the updates if it has a right-hand side. -/
structure Variable where
  name : String
  unit : Dimension
  definedBy : Option Nat
deriving DecidableEq, Repr

/-- Whether an update writes the variable. -/
def Variable.isTarget (v : Variable) : Bool := v.definedBy.isSome

/-- What a name stands for. -/
inductive Binding where
  | state (slot : Nat)
  | constant (q : Quantity)
  | clock (reading : ClockReading)
  | function (f : Function)

/-- The names of one set of equations. -/
structure Scope where
  stateVariables : List Variable
  constants : Constants
  functions : NameMap Function

namespace Scope

def slot? (s : Scope) (name : String) : Option Nat := s.stateVariables.findIdx? fun v => v.name == name

def reading? (name : String) : Option ClockReading :=
  if name = "t" then some .time else if name = "dt" then some .step else none

/-- **What a name stands for.** -/
def find? (s : Scope) (name : String) : Option Binding :=
  match s.slot? name, s.constants.find? name, reading? name with
  | some slot, _, _ => some (.state slot)
  | none, some q, _ => some (.constant q)
  | none, none, some r => some (.clock r)
  | none, none, none => (s.functions.find? name).map .function

def unitOf (s : Scope) (slot : Nat) : Dimension := (s.stateVariables[slot]?.map (·.unit)).getD .one

def nameOf (s : Scope) (slot : Nat) : String := (s.stateVariables[slot]?.map (·.name)).getD ""

/-! ## Building -/

/-- **The state variables of equations**, given the names taken and the updates counted before them.  No name is taken
twice, and every unit has to state a dimension. -/
def declare : List String → Nat → List Equation → Checked CompileError (List Variable)
  | _, _, [] => .ok []
  | taken, updates, eq :: eqs =>
    if eq.target.name ∈ taken then refuse (.duplicateTarget eq.target.name)
    else do
      let unit ← eq.unit.unit.mapRefusal (.invalidUnit eq.target.name)
      let rest ← declare (eq.target.name :: taken) (updates + if eq.rhs.isSome then 1 else 0) eqs
      return ⟨eq.target.name, unit, eq.rhs.map fun _ => updates⟩ :: rest

mutual

/-- The names an expression calls, in reading order. -/
def calledIn : Expr → List String
  | .number _ _ => []
  | .name _ _ => []
  | .signed _ e _ => calledIn e
  | .binary _ l r _ => calledIn l ++ calledIn r
  | .call f args _ => f.name :: calledInAll args

def calledInAll : List Expr → List String
  | [] => []
  | e :: es => calledIn e ++ calledInAll es

end

mutual

/-- The names an expression uses as values, in reading order. -/
def usedIn : Expr → List String
  | .number _ _ => []
  | .name n _ => [n]
  | .signed _ e _ => usedIn e
  | .binary _ l r _ => usedIn l ++ usedIn r
  | .call _ args _ => usedInAll args

def usedInAll : List Expr → List String
  | [] => []
  | e :: es => usedIn e ++ usedInAll es

end

/-- A called name is bound to its function, unless it stands for something already. -/
def bindCalled (catalog : Catalog) (s : Scope) (name : String) : Checked CompileError Scope :=
  if (s.find? name).isSome then .ok s
  else match catalog.find? name with
    | some f => .ok ⟨s.stateVariables, s.constants, s.functions.insert name f⟩
    | none => refuse (.unknownFunction name)

/-- A function's name used as a value is bound as well, so that the use can be refused by its kind. -/
def bindUsed (catalog : Catalog) (s : Scope) (name : String) : Scope :=
  if (s.find? name).isSome then s
  else match catalog.find? name with
    | some f => ⟨s.stateVariables, s.constants, s.functions.insert name f⟩
    | none => s

/-- **The scope of a set of equations.** -/
def build (set : EquationSet) (catalog : Catalog) (constants : Constants) : Checked CompileError Scope := do
  let vars ← declare [] 0 set.equations
  let sides := set.equations.filterMap (·.rhs)
  let called ← (sides.flatMap calledIn).foldlM (bindCalled catalog) ⟨vars, constants, .empty⟩
  return (sides.flatMap usedIn).foldl (bindUsed catalog) called

end Scope
end FixedStep
