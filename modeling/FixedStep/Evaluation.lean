import FixedStep.Lowering
import FixedStep.Snapshot
/-!
# Evaluation — a set of equations over arrays

An expression is evaluated over all elements at once: every tree gives one column.  Updates run in order, each seeing
the columns that the ones before it wrote.
-/
namespace FixedStep

/-- What an update sees: the number of elements, the columns by slot, and the clock. -/
structure View where
  len : Nat
  columns : List Column
  t : Float
  dt : Float

def Operator.apply : Operator → Float → Float → Float
  | add, x, y => x + y
  | sub, x, y => x - y
  | mul, x, y => x * y
  | div, x, y => x / y
  | pow, x, y => Float.pow x y

/-- The first `n` rows of columns that stand side by side. -/
def rows : Nat → List Column → List (List Float)
  | 0, _ => []
  | n + 1, columns => columns.map (·.headD 0.0) :: rows n (columns.map List.tail)

namespace View

def column (v : View) (slot : Nat) : Column := v.columns[slot]?.getD []

def reading (v : View) : ClockReading → Float
  | .time => v.t
  | .step => v.dt

def write (v : View) (slot : Nat) (values : Column) : View := ⟨v.len, v.columns.set slot values, v.t, v.dt⟩

mutual

/-- **The column of an expression.** -/
def evaluate (v : View) : Node → Column
  | .const c => List.replicate v.len c
  | .state slot => v.column slot
  | .clock reading => List.replicate v.len (v.reading reading)
  | .neg n => (v.evaluate n).map Float.neg
  | .binary op l r => List.zipWith op.apply (v.evaluate l) (v.evaluate r)
  | .call f args => (rows v.len (v.evaluateAll args)).map f.implementation

def evaluateAll (v : View) : List Node → List Column
  | [] => []
  | n :: ns => v.evaluate n :: v.evaluateAll ns

end

def update (v : View) (u : Update) : View := v.write u.target (v.evaluate u.node)

def updateAll (v : View) (us : List Update) : View := us.foldl update v

end View

namespace Resolved

def outputs (r : Resolved) (v : View) : NameMap Column :=
  .ofList (r.updates.map fun u => (r.scope.nameOf u.target, v.column u.target))

/-- The targets' columns after all updates, from the columns by slot. -/
def runFrom (r : Resolved) (s : Snapshot) (columns : List Column) : NameMap Column :=
  r.outputs (View.updateAll ⟨s.len, columns, s.t, s.dt⟩ r.updates)

/-- **One execution**: the columns are gathered, the updates run, and the targets' columns are the outcome. -/
def execute (r : Resolved) (s : Snapshot) : Except ExecError (NameMap Column) := do
  let columns ← s.columns r.scope
  return r.runFrom s columns

end Resolved
end FixedStep
