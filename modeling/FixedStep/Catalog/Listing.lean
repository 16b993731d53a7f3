import FixedStep.Catalog.Builtin
import FixedStep.Json.Basic
/-!
# Listing — a catalog as a JSON text

Functions in name order with their declared dimensions and the backends they support, so equal listings mean equal
declarations.
-/
namespace FixedStep

def Function.listed (f : Function) : Json :=
  .object [
    ("name", .string f.name),
    ("inputs", .array (f.signature.inputs.map fun d => .string d.text)),
    ("output", .string f.signature.output.text),
    ("backends", .array ((Backend.all.filter f.supports).map fun b => .string b.tag))]

/-- **The listing of a catalog.** -/
def Catalog.listing (c : Catalog) : String := (Json.array (c.values.map Function.listed)).compact

end FixedStep
