import FixedStep.Diagnostic
import FixedStep.Group
import FixedStep.Identifier
import FixedStep.Monitor
/-!
# Network — groups and monitors on one clock

On every tick each group steps once, in the order they were added, then each monitor records, then the clock moves on.
A run prepares all groups before the first tick, and one that starts at step zero keeps the state for a reset.
-/
namespace FixedStep

structure Network where
  clock : Clock
  identifiers : Identifiers
  groups : List Group
  monitors : List Monitor

namespace Network

def start (clock : Clock) : Network := ⟨clock, .start, [], []⟩

/-- A group is added; its number comes with it. -/
def addGroup (n : Network) (g : Group) : Nat × Network :=
  let (number, identifiers) := n.identifiers.group
  (number, ⟨n.clock, identifiers, n.groups ++ [g], n.monitors⟩)

def group? (n : Network) (number : Nat) : Option Group := n.groups[number]?

/-- The group with a number, changed. -/
def setGroup (n : Network) (number : Nat) (g : Group) : Network :=
  ⟨n.clock, n.identifiers, n.groups.set number g, n.monitors⟩

/-- **A monitor of a group's variable is added**: its number or a refusal, and the network after it. -/
def addMonitor (n : Network) (group : Nat) (variableName : String) : Except NetworkError Nat × Network :=
  match n.group? group with
  | none => (.error (.unknownGroup group), n)
  | some g =>
    if (g.get? variableName).isNone then (.error (.unknownVariable g.name variableName), n)
    else
      let (number, identifiers) := n.identifiers.monitor
      (.ok number, ⟨n.clock, identifiers, n.groups, n.monitors ++ [.start group variableName]⟩)

def monitor? (n : Network) (number : Nat) : Option Monitor := n.monitors[number]?

/-- A network after some of its work, what was reported on the way, and why it stopped early if it did. -/
structure Progress where
  network : Network
  diagnostics : Array Diagnostic
  failure : Option NetworkError

/-! ## Ticks -/

/-- Groups stepped in order, up to the first that fails; the others stay as they are. -/
def stepGroups (t dt : Float) : List Group → List Group × List Diagnostic × Option NetworkError
  | [] => ([], [], none)
  | g :: gs =>
    match g.step t dt with
    | (.error e, g) => (g :: gs, [], some e)
    | (.ok counts, stepped) =>
      let (rest, diagnostics, failure) := stepGroups t dt gs
      (stepped :: rest, counts.map (fun c => .invalidValues g.name c.1 t c.2) ++ diagnostics, failure)

/-- A monitor after a tick at time `t`. -/
def recordFrom (groups : List Group) (t : Float) (m : Monitor) : Monitor :=
  match groups[m.group]?.bind (·.get? m.variableName) with
  | some values => m.record t values
  | none => m

/-- **One tick.** -/
def tick (n : Network) : Progress :=
  let t := n.clock.t
  let (groups, diagnostics, failure) := stepGroups t n.clock.dt n.groups
  match failure with
  | some e => ⟨⟨n.clock, n.identifiers, groups, n.monitors⟩, diagnostics.toArray, some e⟩
  | none => ⟨⟨n.clock.tick, n.identifiers, groups, n.monitors.map (recordFrom groups t)⟩, diagnostics.toArray, none⟩

/-- A number of ticks more, as long as none fails. -/
def ticks : Nat → Progress → Progress
  | 0, p => p
  | k + 1, p =>
    match p.failure with
    | some _ => p
    | none =>
      let next := p.network.tick
      ticks k ⟨next.network, p.diagnostics ++ next.diagnostics, next.failure⟩

/-! ## Runs -/

/-- Groups prepared in order, up to the first that fails. -/
def prepareGroups : List Group → List Group × Option NetworkError
  | [] => ([], none)
  | g :: gs =>
    match g.prepare with
    | (.error e, g) => (g :: gs, some e)
    | (.ok (), g) =>
      let (rest, failure) := prepareGroups gs
      (g :: rest, failure)

/-- The network with its states kept, if the clock is at step zero. -/
def captureAtStart (n : Network) : Network :=
  if n.clock.step = 0 then ⟨n.clock, n.identifiers, n.groups.map Group.capture, n.monitors⟩ else n

/-- **A run over a duration.**  A run without ticks prepares nothing. -/
def run (n : Network) (duration : Float) : Progress :=
  match n.clock.stepsFor duration with
  | .error e => ⟨n, #[], some (.clock e)⟩
  | .ok steps =>
    let (groups, failure) := if 0 < steps then prepareGroups n.groups else (n.groups, none)
    let prepared : Network := ⟨n.clock, n.identifiers, groups, n.monitors⟩
    match failure with
    | some e => ⟨prepared, #[], some e⟩
    | none => ticks steps ⟨prepared.captureAtStart, #[], none⟩

/-- **Back to step zero**: kept states come back, and the monitors are emptied. -/
def reset (n : Network) : Network :=
  ⟨n.clock.reset, n.identifiers, n.groups.map Group.restore, n.monitors.map Monitor.clear⟩

end Network
end FixedStep
