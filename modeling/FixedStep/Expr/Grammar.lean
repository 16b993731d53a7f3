import FixedStep.Expr.Basic
import FixedStep.Expr.Combinator
/-!
# Grammar — the parser of equations

* set: newlines, then equations with newlines between and after them;
* equation: a name, then `=` and an expression or nothing, then `:` and the unit expression;
* expression: products joined by `+` and `-`, from the left; a product: signed powers joined by `*` and `/`, from the
  left; a signed power: signs, then an atom, then `**` and a signed power or nothing;
* atom: a number, a name, a name with arguments in parentheses, an expression in parentheses.
-/
namespace FixedStep
namespace Parser

def newlines : Parser (List Token) := (just .newline).repeated 0

def identOf (t : Placed Token) : Option Ident :=
  match t.value with
  | .name n => some ⟨n, t.span⟩
  | _ => none

def ident : Parser Ident := select .name identOf

/-! ## Expressions -/

def numberOf (t : Placed Token) : Option Expr :=
  match t.value with
  | .number v => some (.number v t.span)
  | _ => none

def number : Parser Expr := select .somethingElse numberOf

def arguments (expr : Parser Expr) : Parser (List Expr) :=
  (expr.separatedBy (just .comma) false).delimitedBy (just .openParen) (just .closeParen)

def nameOrCall (expr : Parser Expr) : Parser Expr :=
  (ident.andThen (arguments expr).orNot).mapWith fun found span =>
    match found with
    | (f, some args) => .call f args span
    | (f, none) => .name f.name span

def parens (expr : Parser Expr) : Parser Expr := expr.delimitedBy (just .openParen) (just .closeParen)

def atom (expr : Parser Expr) : Parser Expr := (number.or (nameOrCall expr)).or (parens expr)

/-- `**` binds tighter than a sign on its left and takes one on its right: `-x ** -2` is `-(x ** (-2))`. -/
def power (atom unary : Parser Expr) : Parser Expr :=
  (atom.andThen ((just .power).ignoreThen unary).orNot).mapWith fun found span =>
    match found with
    | (base, some exponent) => .binary .pow base exponent span
    | (base, none) => base

def signOf (t : Placed Token) : Option (Placed Sign) :=
  match t.value with
  | .minus => some ⟨.neg, t.span⟩
  | .plus => some ⟨.plus, t.span⟩
  | _ => none

def sign : Parser (Placed Sign) := select .somethingElse signOf

def signed (s : Placed Sign) (operand : Expr) : Expr := .signed s.value operand ⟨s.span.start, operand.span.stop⟩

def unary (expr : Parser Expr) : Parser Expr := recursive fun unary =>
  (sign.repeated 0).foldr (power (atom expr) unary) signed

def binary (l : Expr) (more : Operator × Expr) : Expr := .binary more.1 l more.2 (l.span.through more.2.span)

def productOperatorOf (t : Placed Token) : Option Operator :=
  match t.value with
  | .star => some .mul
  | .slash => some .div
  | _ => none

def sumOperatorOf (t : Placed Token) : Option Operator :=
  match t.value with
  | .plus => some .add
  | .minus => some .sub
  | _ => none

/-- Operands joined by operators of one strength, from the left. -/
def chain (operand : Parser Expr) (operatorOf : Placed Token → Option Operator) : Parser Expr :=
  operand.foldl (((select .somethingElse operatorOf).andThen operand).repeated 0) binary

def product (expr : Parser Expr) : Parser Expr := chain (unary expr) productOperatorOf

def expression : Parser Expr := recursive fun expr => chain (product expr) sumOperatorOf

/-! ## Equations -/

/-- A target and its right-hand side, if it has one. -/
def target : Parser (Ident × Option Expr) :=
  (ident.andThen ((just .equals).ignoreThen expression).orNot).thenIgnore (just .colon)

def equation : Parser Equation := (target.andThen expression).mapWith fun found span =>
  ⟨found.1.1, found.1.2, found.2, span⟩

/-- **The parser of a set of equations.** -/
def equations : Parser (List Equation) :=
  (newlines.ignoreThen (equation.separatedBy ((just .newline).repeated 1) true)).thenIgnore newlines

end Parser
end FixedStep
