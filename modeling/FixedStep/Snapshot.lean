import FixedStep.Scope
/-!
# Snapshot — the input of one execution

The state arrays by name, the number of elements and the clock.  An update's target may be left out and starts at zero;
a free variable may not.
-/
namespace FixedStep

/-- The values of one variable, one for each element. -/
abbrev Column : Type := List Float

/-- The input of one execution. -/
structure Snapshot where
  len : Nat
  t : Float
  dt : Float
  values : NameMap Column

/-- Why an execution fails. -/
inductive ExecError where
  | notImplemented (function : String) (backend : Backend)
  | missingVariable (name : String)
  | lengthMismatch (name : String) (expected found : Nat)
  /-- Building the program failed, for a reason the toolchain gives. -/
  | toolchain (reason : String)
  /-- The program did not answer as it should. -/
  | protocol (reason : String)
  /-- The host refused a file or a process. -/
  | host (reason : String)
deriving DecidableEq, Repr

namespace ExecError

def message : ExecError → String
  | notImplemented f b => f ++ " not available for backend " ++ b.tag
  | missingVariable name => "missing value for state variable `" ++ name ++ "`"
  | lengthMismatch name expected found =>
    "`" ++ name ++ "` has " ++ toString found ++ " values, expected " ++ toString expected
  | toolchain reason => "native compilation failed: " ++ reason
  | protocol reason => "native kernel protocol error: " ++ reason
  | host reason => reason

end ExecError

namespace Snapshot

/-- The column a variable starts from. -/
def column (s : Snapshot) (v : Variable) : Except ExecError Column :=
  match s.values.find? v.name with
  | some values =>
    if values.length = s.len then .ok values else .error (.lengthMismatch v.name s.len values.length)
  | none => if v.isTarget then .ok (List.replicate s.len 0.0) else .error (.missingVariable v.name)

/-- The columns of variables in their order; the first that has none decides. -/
def columnsOf (s : Snapshot) : List Variable → Except ExecError (List Column)
  | [] => .ok []
  | v :: vs => do
    let first ← s.column v
    let rest ← s.columnsOf vs
    return first :: rest

/-- **The columns by slot.** -/
def columns (s : Snapshot) (scope : Scope) : Except ExecError (List Column) := s.columnsOf scope.stateVariables

end Snapshot
end FixedStep
