import FixedStep.Decimal.Layout
/-!
# Token — the words of the equation language

A number is never negative: a leading minus is always the operator, so `x -1` is a subtraction.  One newline token
stands for a whole run of newlines.
-/
namespace FixedStep

inductive Token where
  | power
  | plus
  | minus
  | star
  | slash
  | equals
  | colon
  | openParen
  | closeParen
  | comma
  | number (value : Float)
  | name (text : String)
  | newline
deriving DecidableEq, Repr

namespace Token

/-- The token as messages name it. -/
def text : Token → String
  | power => "**"
  | plus => "+"
  | minus => "-"
  | star => "*"
  | slash => "/"
  | equals => "="
  | colon => ":"
  | openParen => "("
  | closeParen => ")"
  | comma => ","
  | number v => showNumber v
  | name _ => "<ident>"
  | newline => "<newline>"

end Token
end FixedStep
