import FixedStep.Clock
import FixedStep.CodeObject
/-!
# Group — elements that share one set of equations

A group keeps a column for every state variable, zeros at first.  A step runs the code once and writes its outcome back;
it counts the elements that became NaN although nothing read for them was.
-/
namespace FixedStep

inductive NetworkError where
  | execution (group : String) (cause : ExecError)
  | clock (cause : ClockError)
  | unknownVariable (group name : String)
  | unknownGroup (number : Nat)
  | lengthMismatch (name : String) (expected found : Nat)
deriving DecidableEq, Repr

namespace NetworkError

def message : NetworkError → String
  | execution g cause => "group `" ++ g ++ "`: " ++ cause.message
  | clock cause => cause.message
  | unknownVariable g name => "group `" ++ g ++ "` has no variable `" ++ name ++ "`"
  | unknownGroup n => "no group with id GroupId(" ++ toString n ++ ")"
  | lengthMismatch name expected found =>
    "`" ++ name ++ "` needs " ++ toString expected ++ " values, got " ++ toString found

end NetworkError

/-- Elements that share one set of equations. -/
structure Group where
  name : String
  len : Nat
  code : CodeObject
  state : NameMap Column
  /-- The state when the clock last left step zero, until a reset uses it. -/
  initial : Option (NameMap Column)

namespace Group

/-- **A group at rest**: every state variable is zero. -/
def start (name : String) (len : Nat) (code : CodeObject) : Group where
  name
  len
  code
  state := .ofList (code.resolved.scope.stateVariables.map fun v => (v.name, List.replicate len 0.0))
  initial := none

def get? (g : Group) (name : String) : Option Column := g.state.find? name

/-- A variable is given its values; the group after it comes with the answer. -/
def set (g : Group) (name : String) (values : Column) : Except NetworkError Unit × Group :=
  if !g.state.contains name then (.error (.unknownVariable g.name name), g)
  else if values.length ≠ g.len then (.error (.lengthMismatch name g.len values.length), g)
  else (.ok (), ⟨g.name, g.len, g.code, g.state.insert name values, g.initial⟩)

def fill (g : Group) (name : String) (value : Float) : Except NetworkError Unit × Group :=
  g.set name (List.replicate g.len value)

/-! ## Invalid values -/

/-- The elements that are NaN where none of the inputs is. -/
def invalidCount : Column → List Column → Nat
  | [], _ => 0
  | v :: vs, inputs =>
    (if v.isNaN && !inputs.any fun c => c.head?.any Float.isNaN then 1 else 0) +
      invalidCount vs (inputs.map List.tail)

/-- The counts of updates in order; `seen` are the columns an update reads, `outputs` what the updates wrote. -/
def invalidCountsFrom (scope : Scope) (outputs : NameMap Column) : NameMap Column → List Update → List (String × Nat)
  | _, [] => []
  | seen, u :: us =>
    let target := scope.nameOf u.target
    match outputs.find? target with
    | none => invalidCountsFrom scope outputs seen us
    | some values =>
      let count := invalidCount values (u.node.slots.filterMap fun slot => seen.find? (scope.nameOf slot))
      let rest := invalidCountsFrom scope outputs (seen.insert target values) us
      if count = 0 then rest else (target, count) :: rest

/-- **The targets with elements that became NaN**, in the order of the updates, and how many.  An update reads the
state before the step, except for the targets written before it. -/
def invalidCounts (g : Group) (outputs : NameMap Column) : List (String × Nat) :=
  invalidCountsFrom g.code.resolved.scope outputs g.state g.code.resolved.updates

/-! ## Steps -/

def snapshot (g : Group) (t dt : Float) : Snapshot := ⟨g.len, t, dt, g.state⟩

def withCode (g : Group) (code : CodeObject) : Group := ⟨g.name, g.len, code, g.state, g.initial⟩

/-- The work before the first step. -/
def prepare (g : Group) : Except NetworkError Unit × Group :=
  let (result, code) := g.code.prepare
  (result.mapError (.execution g.name), g.withCode code)

/-- **One step**: the invalid counts, and the group with the outcome written back. -/
def step (g : Group) (t dt : Float) : Except NetworkError (List (String × Nat)) × Group :=
  match g.code.execute (g.snapshot t dt) with
  | (.error e, code) => (.error (.execution g.name e), g.withCode code)
  | (.ok outputs, code) =>
    (.ok (g.invalidCounts outputs), ⟨g.name, g.len, code, g.state.insertAll outputs.entries, g.initial⟩)

/-- The state is kept for a reset. -/
def capture (g : Group) : Group := ⟨g.name, g.len, g.code, g.state, some g.state⟩

/-- The kept state comes back, and is no longer kept. -/
def restore (g : Group) : Group :=
  match g.initial with
  | some state => ⟨g.name, g.len, g.code, state, none⟩
  | none => g

end Group
end FixedStep
