import FixedStep.Decimal.Layout
import FixedStep.Expr.Basic
/-!
# Text — an expression written out

Every operator and sign is put in parentheses with its operands, so the text shows the tree.
-/
namespace FixedStep

namespace Operator

def text : Operator → String
  | add => "+"
  | sub => "-"
  | mul => "*"
  | div => "/"
  | pow => "**"

end Operator

namespace Sign

def text : Sign → String
  | neg => "-"
  | plus => "+"

end Sign

namespace Expr

mutual

/-- **The fully parenthesised text of an expression.** -/
def text : Expr → String
  | number v _ => showNumber v
  | name n _ => n
  | signed s e _ => "(" ++ s.text ++ e.text ++ ")"
  | binary op l r _ => "(" ++ l.text ++ " " ++ op.text ++ " " ++ r.text ++ ")"
  | call f args _ => f.name ++ "(" ++ ", ".intercalate (texts args) ++ ")"

def texts : List Expr → List String
  | [] => []
  | e :: es => e.text :: texts es

end

end Expr
end FixedStep
