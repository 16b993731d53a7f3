/-!
# Identifier — the numbers of groups and monitors

Groups and monitors are numbered apart, each from zero in the order they are added.  A number is 32 bits wide: what is
said of numbers is said of fewer than 2^32 groups and as many monitors, and an addition beyond them aborts.  A history
shorter than that never gets there (`Network.fits_after`).
-/
namespace FixedStep

/-- The numbers to be given next. -/
structure Identifiers where
  nextGroup : Nat
  nextMonitor : Nat
deriving DecidableEq, Repr

namespace Identifiers

def start : Identifiers := ⟨0, 0⟩

def group (i : Identifiers) : Nat × Identifiers := (i.nextGroup, ⟨i.nextGroup + 1, i.nextMonitor⟩)

def monitor (i : Identifiers) : Nat × Identifiers := (i.nextMonitor, ⟨i.nextGroup, i.nextMonitor + 1⟩)

end Identifiers
end FixedStep
