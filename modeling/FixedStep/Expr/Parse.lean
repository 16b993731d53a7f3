import FixedStep.Expr.Grammar
import FixedStep.Token.Scan
/-!
# Parse — a source text and all that is wrong with it

Stray characters are reported and left out; the remaining tokens are read by the parser of equations, to the end or to a
refusal.  Equations are given only when it reaches the end.
-/
namespace FixedStep

/-- One thing wrong with a source text. -/
inductive Issue where
  | stray (c : Char) (span : Span)
  | syntactic (refusal : Refusal) (span : Span)
deriving Repr

namespace Issue

def span : Issue → Span
  | stray _ s => s
  | syntactic _ s => s

def message : Issue → String
  | stray c _ => Token.strayMessage c
  | syntactic r _ => r.message

def isLexical : Issue → Bool
  | stray _ _ => true
  | syntactic _ _ => false

/-- The issue with its place in front. -/
def text (i : Issue) : String := i.span.text ++ ": " ++ i.message

end Issue

/-- The equations of a source text, if it has the form of some, and its issues. -/
structure Parsed where
  equations : Option EquationSet
  issues : List Issue
deriving Repr

namespace Parsed

/-- The bytes from the first token to the last; without tokens, the end of the text. -/
def tokensSpan (tokens : List (Placed Token)) (length : Nat) : Span :=
  match tokens.head?, tokens.getLast? with
  | some a, some b => a.span.through b.span
  | _, _ => ⟨length, length⟩

/-- **Where a refusal lies**: at the token, or at the end of the text, given as its length and the end of the last
token. -/
def refusalSpan (tokens : List (Placed Token)) (length : Nat) (r : Refusal) : Span :=
  match r.found with
  | some t => t.span
  | none => ⟨length, (tokensSpan tokens length).stop⟩

/-- The equations of a row of tokens, or the one issue it has. -/
def ofTokens (tokens : List (Placed Token)) (length : Nat) : Except Issue EquationSet :=
  match Parser.equations.run tokens with
  | .ok equations => .ok ⟨equations, tokensSpan tokens length⟩
  | .error r => .error (.syntactic r (refusalSpan tokens length r))

end Parsed

/-- **Reading a source text.** -/
def parse (source : String) : Parsed :=
  let scan := Token.scan source
  let strays := scan.strays.map fun c => Issue.stray c.value c.span
  match Parsed.ofTokens scan.tokens source.utf8ByteSize with
  | .ok set => ⟨some set, strays⟩
  | .error issue => ⟨none, strays ++ [issue]⟩

end FixedStep
