import FixedStep.Span
import FixedStep.Text.Bytes
import FixedStep.Text.Quoted
import FixedStep.Token.Lexeme
/-!
# Scan — a text cut into pieces

The text is walked character by character.  At the first character of a piece its kind and length are read; the walk
then passes over the rest of it.  A stray character is noted and left out.
-/
namespace FixedStep
namespace Token

/-- The pieces of a text that begins at byte `position`, after `left` characters of the piece before. -/
def pieces : Nat → Nat → List Char → List (Placed Piece)
  | _, _, [] => []
  | left + 1, position, c :: cs => pieces left (position + c.utf8Size) cs
  | 0, position, c :: cs =>
    let (piece, rest) := Lexeme.read c cs
    ⟨piece, position, position + c.utf8Size + byteLength (cs.take rest)⟩ :: pieces rest (position + c.utf8Size) cs

/-- A text cut up: its tokens, and the characters that belong to none. -/
structure Scan where
  tokens : List (Placed Token)
  strays : List (Placed Char)
deriving DecidableEq, Repr

def ofPiece? (p : Placed Piece) : Option (Placed Token) :=
  match p.value with
  | .token t => some ⟨t, p.span⟩
  | _ => none

def strayOf? (p : Placed Piece) : Option (Placed Char) :=
  match p.value with
  | .stray c => some ⟨c, p.span⟩
  | _ => none

/-- **The tokens and the stray characters of a text**, each in the order they stand in. -/
def scan (source : String) : Scan :=
  let all := pieces 0 0 source.toList
  ⟨all.filterMap ofPiece?, all.filterMap strayOf?⟩

/-- What is said of a stray character. -/
def strayMessage (c : Char) : String := "unexpected character: " ++ Text.quoted [c]

end Token
end FixedStep
