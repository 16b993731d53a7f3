import FixedStep.Decimal.Reading
import FixedStep.Token.Basic
/-!
# Lexeme — the piece at the front of a text

Blanks and comments are skipped, everything else is the longest token that fits.  The first character tells the kinds
of pieces apart, so the longest match is found by one look: only a star may begin two tokens.
-/
namespace FixedStep

/-- What a piece of text is. -/
inductive Piece where
  | skipped
  | token (t : Token)
  /-- A character that begins nothing. -/
  | stray (c : Char)
deriving DecidableEq, Repr

namespace Lexeme

/-- The blanks inside a line. -/
def isGap (c : Char) : Bool := c == ' ' || c == '\t' || c == '\r'

def isNameStart (c : Char) : Bool := c.isAlpha || c == '_'

def isNameRest (c : Char) : Bool := c.isAlphanum || c == '_'

/-- The tokens of one character; the star is also the first half of the power sign. -/
def symbol? : Char → Option Token
  | '+' => some .plus
  | '-' => some .minus
  | '*' => some .star
  | '/' => some .slash
  | '=' => some .equals
  | ':' => some .colon
  | '(' => some .openParen
  | ')' => some .closeParen
  | ',' => some .comma
  | _ => none

/-- How many characters of the list pass the test before the first that does not. -/
def runLength (p : Char → Bool) (cs : List Char) : Nat := (cs.takeWhile p).length

/-- **The piece at the front of `c :: cs`** and the number of its characters after `c`. -/
def read (c : Char) (cs : List Char) : Piece × Nat :=
  if isGap c then (.skipped, runLength isGap cs)
  else if c = '#' then (.skipped, runLength (· != '\n') cs)
  else if c = '\n' then (.token .newline, runLength (· == '\n') cs)
  else if isNameStart c then
    let rest := cs.takeWhile isNameRest
    (.token (.name (String.ofList (c :: rest))), rest.length)
  else
    match Decimal.run (c :: cs) with
    | n + 1 => (.token (.number (Decimal.ofSpelling (c :: cs.take n)).toFloat), n)
    | 0 =>
      if c = '*' ∧ cs.head? = some '*' then (.token .power, 1)
      else match symbol? c with
        | some t => (.token t, 0)
        | none => (.stray c, 0)

end Lexeme
end FixedStep
