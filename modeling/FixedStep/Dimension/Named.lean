import FixedStep.Dimension.Error
/-!
# Named — the units that have names

A name is a unit of the table, or a prefix and a unit of the table.  A name of the table is never split.  Prefixes are
tried in order, and the first that leaves a known unit decides.
-/
namespace FixedStep
namespace Dimension

/-- The units with a name of their own; several names may stand for one unit. -/
def unitTable : List (List String × Dimension) := [
  (["radian", "rad"], one),
  (["metre", "meter", "m"], ⟨1, 0, 0, 0, 0, 0, 0⟩),
  (["kilogram", "kg"], ⟨0, 1, 0, 0, 0, 0, 0⟩),
  (["gram", "g"], ⟨0, 1, 0, 0, 0, 0, 0⟩),
  (["second", "s"], ⟨0, 0, 1, 0, 0, 0, 0⟩),
  (["amp", "ampere", "A"], ⟨0, 0, 0, 1, 0, 0, 0⟩),
  (["kelvin", "K"], ⟨0, 0, 0, 0, 1, 0, 0⟩),
  (["mole", "mol"], ⟨0, 0, 0, 0, 0, 1, 0⟩),
  (["candela", "cd"], ⟨0, 0, 0, 0, 0, 0, 1⟩),
  (["hertz", "Hz"], ⟨0, 0, -1, 0, 0, 0, 0⟩),
  (["newton", "N"], ⟨1, 1, -2, 0, 0, 0, 0⟩),
  (["joule", "J"], ⟨2, 1, -2, 0, 0, 0, 0⟩),
  (["watt", "W"], ⟨2, 1, -3, 0, 0, 0, 0⟩),
  (["coulomb", "C"], ⟨0, 0, 1, 1, 0, 0, 0⟩),
  (["volt", "V"], ⟨2, 1, -3, -1, 0, 0, 0⟩),
  (["ohm"], ⟨2, 1, -3, -2, 0, 0, 0⟩),
  (["siemens", "S"], ⟨-2, -1, 3, 2, 0, 0, 0⟩),
  (["farad", "F"], ⟨-2, -1, 4, 2, 0, 0, 0⟩)]

/-- The prefixes, in the order they are tried. -/
def prefixes : List String :=
  ["pico", "nano", "micro", "milli", "centi", "kilo", "mega", "p", "n", "u", "m", "c", "k", "M"]

def ofTable? (name : String) : Option Dimension :=
  (unitTable.find? fun row => row.1.contains name).map (·.2)

/-- What is left of a name after a prefix, if it has the prefix and goes on. -/
def afterPrefix? (front name : String) : Option String :=
  if front.toList.isPrefixOf name.toList then
    match name.toList.drop front.toList.length with
    | [] => none
    | rest => some (String.ofList rest)
  else none

/-- **The dimension of a unit name.** -/
def ofName (name : String) : Except UnitError Dimension :=
  match (ofTable? name).or (prefixes.findSome? fun p => (afterPrefix? p name).bind ofTable?) with
  | some d => .ok d
  | none => .error (.unknownUnit name)

/-- The dimension of time, which the clock's readings have. -/
def time : Dimension := ⟨0, 0, 1, 0, 0, 0, 0⟩

end Dimension
end FixedStep
