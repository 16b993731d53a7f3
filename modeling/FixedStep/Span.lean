/-!
# Span — a range of bytes in a text

Positions count the bytes of the text's encoding, so a span can be cut from a file as it stands.
-/
namespace FixedStep

/-- The bytes from `start` up to `stop`. -/
structure Span where
  start : Nat
  stop : Nat
deriving DecidableEq, Repr, Inhabited

namespace Span

/-- From the start of one span to the end of another. -/
def through (a b : Span) : Span := ⟨a.start, b.stop⟩

/-- The span as messages show it. -/
def text (s : Span) : String := s!"{s.start}..{s.stop}"

end Span

/-- A thing and the bytes it was read from. -/
structure Placed (α : Type) where
  value : α
  span : Span
deriving DecidableEq, Repr

end FixedStep
