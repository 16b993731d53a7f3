import FixedStep.Scope
/-!
# Lowering — expressions over slots, with their dimensions

An expression is lowered to a tree in which every name is resolved, and its dimension is found on the way.  Sums need
equal dimensions, an exponent is plain, and a base with units needs an exponent known beforehand.
-/
namespace FixedStep

/-- An expression in which every name is resolved. -/
inductive Node where
  | const (value : Float)
  | state (slot : Nat)
  | clock (reading : ClockReading)
  | neg (operand : Node)
  | binary (op : Operator) (lhs rhs : Node)
  | call (function : Function) (args : List Node)

namespace Node

/-- The value of a constant under signs. -/
def constant? : Node → Option Float
  | const v => some v
  | neg n => n.constant?.map Float.neg
  | _ => none

mutual

/-- The slots a tree reads, in reading order. -/
def slots : Node → List Nat
  | const _ => []
  | state slot => [slot]
  | clock _ => []
  | neg n => n.slots
  | binary _ l r => l.slots ++ r.slots
  | call _ args => slotsAll args

def slotsAll : List Node → List Nat
  | [] => []
  | n :: ns => n.slots ++ slotsAll ns

end

end Node

/-- One update: the slot it writes and what it writes there. -/
structure Update where
  target : Nat
  node : Node

/-- A set of equations bound to its scope. -/
structure Resolved where
  scope : Scope
  updates : List Update

namespace Resolved

/-- The names of the variables written, in the order of the updates. -/
def targets (r : Resolved) : List String := r.updates.map fun u => r.scope.nameOf u.target

end Resolved

namespace Scope

/-- The refusal of a call whose arguments have the wrong dimensions. -/
def callRefusal (name : String) : UnitError → CompileError
  | .mismatch place expected found => .mismatch (.call place name) expected found
  | source => .units (.call name) source

/-- The dimension of an operation, from its operands; messages show the whole expression. -/
def operationUnit (op : Operator) (expr : Expr) (l : Dimension) (right : Node) (r : Dimension) :
    Checked CompileError Dimension :=
  match op with
  | .add | .sub => if l = r then .ok l else refuse (.mismatch (.operands op expr.text) l r)
  | .mul => .ofOption (l.mul? r)
  | .div => .ofOption (l.div? r)
  | .pow =>
    if !r.isOne then refuse (.mismatch (.exponent expr.text) .one r)
    else if l.isOne then .ok l
    else match right.constant? with
      | some k => (Checked.ofExcept (l.power k)).mapRefusal (.units (.power expr.text))
      | none => refuse (.nonConstantExponent l)

def lowerName (s : Scope) (name : String) : Checked CompileError (Node × Dimension) :=
  match s.find? name with
  | some (.state slot) => .ok (.state slot, s.unitOf slot)
  | some (.constant q) => .ok (.const q.value, q.dimension)
  | some (.clock reading) => .ok (.clock reading, .time)
  | some (.function _) => refuse (.notAValue name)
  | none => refuse (.undefinedIdentifier name)

def callee (s : Scope) (name : String) (count : Nat) : Checked CompileError Function :=
  match s.find? name with
  | some (.function f) => if count = f.arity then .ok f else refuse (.arity name f.arity count)
  | some _ => refuse (.notCallable name)
  | none => refuse (.unknownFunction name)

mutual

/-- **An expression lowered, with its dimension.**  Operands and arguments are judged from the left. -/
def lower (s : Scope) : Expr → Checked CompileError (Node × Dimension)
  | .number v _ => .ok (.const v, .one)
  | .name n _ => s.lowerName n
  | .signed .neg e _ => do
    let (n, d) ← s.lower e
    return (.neg n, d)
  | .signed .plus e _ => s.lower e
  | .binary op l r sp => do
    let (ln, ld) ← s.lower l
    let (rn, rd) ← s.lower r
    let d ← operationUnit op (.binary op l r sp) ld rn rd
    return (.binary op ln rn, d)
  | .call f args _ => do
    let function ← s.callee f.name args.length
    let lowered ← s.lowerAll args
    let d ← (function.resultUnit (lowered.map (·.2))).mapRefusal (callRefusal f.name)
    return (.call function (lowered.map (·.1)), d)

def lowerAll (s : Scope) : List Expr → Checked CompileError (List (Node × Dimension))
  | [] => .ok []
  | e :: es => do
    let first ← s.lower e
    let rest ← s.lowerAll es
    return first :: rest

end

/-- **The updates of equations**: each right-hand side has to have the dimension its target declares. -/
def lowerEquations (s : Scope) : List Equation → Checked CompileError (List Update)
  | [] => .ok []
  | eq :: eqs =>
    match eq.rhs with
    | none => s.lowerEquations eqs
    | some rhs =>
      match s.slot? eq.target.name with
      | none => refuse (.undefinedIdentifier eq.target.name)
      | some target => do
        let (node, found) ← s.lower rhs
        if found ≠ s.unitOf target then
          refuse (.mismatch (.equation eq.target.name) (s.unitOf target) found)
        let rest ← s.lowerEquations eqs
        return ⟨target, node⟩ :: rest

end Scope

/-- **A set of equations bound and judged.** -/
def resolve (set : EquationSet) (catalog : Catalog) (constants : Constants) : Checked CompileError Resolved := do
  let scope ← Scope.build set catalog constants
  let updates ← scope.lowerEquations set.equations
  return ⟨scope, updates⟩

end FixedStep
