/-!
# Bytes — how long characters are in a text's encoding
-/
namespace FixedStep

/-- The bytes that characters take. -/
def byteLength : List Char → Nat
  | [] => 0
  | c :: cs => c.utf8Size + byteLength cs

end FixedStep
