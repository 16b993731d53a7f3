import FixedStep.Snapshot
/-!
# Monitor — the record of one variable

A monitor keeps one row for each tick: the time and the whole column of the watched variable, in two lists.
-/
namespace FixedStep

/-- The times and the columns recorded for a variable of a group, in order. -/
structure Monitor where
  group : Nat
  variableName : String
  times : Array Float
  rows : Array Column
deriving DecidableEq, Repr

namespace Monitor

def start (group : Nat) (variableName : String) : Monitor := ⟨group, variableName, #[], #[]⟩

def record (m : Monitor) (time : Float) (values : Column) : Monitor :=
  ⟨m.group, m.variableName, m.times.push time, m.rows.push values⟩

def clear (m : Monitor) : Monitor := ⟨m.group, m.variableName, #[], #[]⟩

/-- **Every recorded value**, row after row. -/
def flatten (m : Monitor) : List Float := m.rows.toList.flatten

def length (m : Monitor) : Nat := m.rows.size

end Monitor
end FixedStep
