import FixedStep.Network
/-!
# Abort — work that ends without an answer

Apart from refusals, work may end without any answer: over a column or a list of dimensions whose bytes are more than 63
bits can count, and over an implementation that looks at more arguments than a call has.  That is told beforehand here;
everywhere else columns are taken to be held and implementations to be given what they look at.
-/
namespace FixedStep

/-- The most elements of a column, eight bytes for each. -/
def Column.limit : Nat := 0x0fffffffffffffff

/-- The most dimensions of a list, seven bytes for each. -/
def Signature.limit : Nat := 0x1249249249249249

/-- Whether the dimensions of plain numbers, which a draft without declared ones stands for, cannot be held. -/
def Draft.aborts (d : Draft) : Bool := d.units.isNone && Signature.limit < d.arity

/-- Whether a call leaves the implementation without arguments that it looks at. -/
def Function.isShort (f : Function) : Bool := f.arity < f.leastArguments

namespace Snapshot

/-- Whether the first of some variables without a column is a target, which would start at zero. -/
def lacksTarget (s : Snapshot) : List Variable → Bool
  | [] => false
  | v :: vs =>
    match s.values.find? v.name with
    | some values => values.length == s.len && s.lacksTarget vs
    | none => v.isTarget

/-- **Whether gathering the columns aborts**: it comes to a column of zeros that cannot be held. -/
def aborts (s : Snapshot) (scope : Scope) : Bool := Column.limit < s.len && s.lacksTarget scope.stateVariables

end Snapshot

def Resolved.hasShortCall (r : Resolved) : Bool := (Kernel.functionsUsed r).any Function.isShort

/-- **Whether an execution aborts.**  Interpreted code also aborts at its first short call; native code makes none, and
gathers nothing before its capabilities are checked. -/
def CodeObject.aborts (c : CodeObject) (s : Snapshot) : Bool :=
  match c with
  | .interpreted r => s.aborts r.scope || r.hasShortCall && 0 < s.len && (s.columns r.scope).toOption.isSome
  | .native n => n.kernel.missing.isEmpty && s.aborts n.resolved.scope

namespace Group

/-- Whether the columns of a group at rest cannot be held. -/
def startAborts (len : Nat) (code : CodeObject) : Bool :=
  Column.limit < len && !code.resolved.scope.stateVariables.isEmpty

/-- Whether a column of one value for all elements cannot be held, no matter for which variable. -/
def fillAborts (g : Group) : Bool := Column.limit < g.len

end Group

/-- **Whether a run aborts**: once every group is prepared, in its first tick. -/
def Network.runAborts (n : Network) (duration : Float) : Bool :=
  match n.clock.stepsFor duration with
  | .error _ => false
  | .ok steps =>
    0 < steps && (prepareGroups n.groups).2.isNone &&
      n.groups.any fun g => g.code.aborts (g.snapshot n.clock.t n.clock.dt)

end FixedStep
