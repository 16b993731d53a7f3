/-!
# Backend — the two ways of running a set of equations
-/
namespace FixedStep

inductive Backend where
  /-- Expressions are evaluated over whole arrays. -/
  | interpreted
  /-- A generated program is built by the host's compiler and run. -/
  | native
deriving DecidableEq, Repr

namespace Backend

def all : List Backend := [interpreted, native]

def tag : Backend → String
  | interpreted => "interpreted"
  | native => "native"

def ofTag? (word : String) : Option Backend := all.find? fun b => b.tag == word

def unknownMessage (word : String) : String := "unknown backend `" ++ word ++ "`"

end Backend
end FixedStep
