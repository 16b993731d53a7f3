import FixedStep.Catalog.Function
import FixedStep.NameMap
/-!
# Catalog — the functions known by name

A name keeps its declared dimensions for good: a function may be replaced only by one with the same.
-/
namespace FixedStep

abbrev Catalog : Type := NameMap Function

inductive CatalogError where
  | duplicate (name : String)
  | unknown (name : String)
deriving DecidableEq, Repr

def CatalogError.message : CatalogError → String
  | duplicate name => "function `" ++ name ++ "` is already registered with a different signature"
  | unknown name => "unknown function `" ++ name ++ "`"

namespace Catalog

/-- **A function is added**, or put in place of the one with its name and dimensions; the catalog after it comes with
the answer. -/
def register (c : Catalog) (f : Function) : Except CatalogError Unit × Catalog :=
  match c.find? f.name with
  | some old => if old.isCompatible f then (.ok (), c.insert f.name f) else (.error (.duplicate f.name), c)
  | none => (.ok (), c.insert f.name f)

def resolve (c : Catalog) (name : String) : Except CatalogError Function :=
  match c.find? name with
  | some f => .ok f
  | none => .error (.unknown name)

end Catalog
end FixedStep
