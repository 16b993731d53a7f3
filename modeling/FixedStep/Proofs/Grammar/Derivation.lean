import FixedStep.Expr.Parse
/-!
# Derivation — the sentences of the equation language

A derivation says which rule of the grammar was used where.  Its yield is the row of tokens it derives, and its tree is
what the tokens mean:

* `set := NEWLINE* [equation (NEWLINE+ equation)* NEWLINE*]`;
* `equation := NAME ['=' sum] ':' sum`;
* `sum := product (('+' | '-') product)*` and `product := signed (('*' | '/') signed)*`, from the left;
* `signed := ('-' | '+')* power` and `power := atom ['**' signed]`;
* `atom := NUMBER | NAME | NAME '(' [sum (',' sum)*] ')' | '(' sum ')'`.

A word of the grammar is known by its kind, so a derivation holds only the spans of its tokens.
-/
namespace FixedStep
namespace Grammar

inductive SumOperator where
  | add
  | sub

inductive ProductOperator where
  | mul
  | div

namespace SumOperator

def operator : SumOperator → Operator
  | add => .add
  | sub => .sub

def token : SumOperator → Token
  | add => .plus
  | sub => .minus

end SumOperator

namespace ProductOperator

def operator : ProductOperator → Operator
  | mul => .mul
  | div => .div

def token : ProductOperator → Token
  | mul => .star
  | div => .slash

end ProductOperator

def signToken : Sign → Token
  | .neg => .minus
  | .plus => .plus

mutual

/-- A row of products, the last one apart. -/
inductive Sum where
  | product (p : Product)
  | more (before : Sum) (op : SumOperator) (place : Span) (p : Product)

/-- A row of signed powers, the last one apart. -/
inductive Product where
  | signed (u : Signed)
  | more (before : Product) (op : ProductOperator) (place : Span) (u : Signed)

inductive Signed where
  | power (p : Power)
  | sign (s : Sign) (place : Span) (u : Signed)

inductive Power where
  | atom (a : Atom)
  | raised (base : Atom) (place : Span) (exponent : Signed)

inductive Atom where
  | number (v : Float) (place : Span)
  | name (n : String) (place : Span)
  /-- A call without arguments. -/
  | bareCall (n : String) (place opening closing : Span)
  | call (n : String) (place opening : Span) (args : Arguments) (closing : Span)
  | group (opening : Span) (inner : Sum) (closing : Span)

/-- A row of arguments, the last one apart. -/
inductive Arguments where
  | first (s : Sum)
  | more (before : Arguments) (comma : Span) (s : Sum)

end

/-- `target = rhs : unit`, or `target : unit`. -/
inductive Line where
  | declared (target : String) (place colon : Span) (unit : Sum)
  | defined (target : String) (place equals : Span) (rhs : Sum) (colon : Span) (unit : Sum)

/-- Equations with one newline or more between them, the last one apart. -/
inductive Lines where
  | first (line : Line)
  | more (before : Lines) (newline : Span) (newlines : List Span) (line : Line)

/-- **A sentence**: newlines alone, or equations with newlines around them. -/
inductive Sentence where
  | blank (newlines : List Span)
  | lines (leading : List Span) (body : Lines) (trailing : List Span)

/-! ## Yields -/

mutual

def Sum.yield : Sum → List (Placed Token)
  | .product p => p.yield
  | .more before op place p => before.yield ++ ⟨op.token, place⟩ :: p.yield

def Product.yield : Product → List (Placed Token)
  | .signed u => u.yield
  | .more before op place u => before.yield ++ ⟨op.token, place⟩ :: u.yield

def Signed.yield : Signed → List (Placed Token)
  | .power p => p.yield
  | .sign s place u => ⟨signToken s, place⟩ :: u.yield

def Power.yield : Power → List (Placed Token)
  | .atom a => a.yield
  | .raised base place exponent => base.yield ++ ⟨.power, place⟩ :: exponent.yield

def Atom.yield : Atom → List (Placed Token)
  | .number v place => [⟨.number v, place⟩]
  | .name n place => [⟨.name n, place⟩]
  | .bareCall n place opening closing => [⟨.name n, place⟩, ⟨.openParen, opening⟩, ⟨.closeParen, closing⟩]
  | .call n place opening args closing =>
    ⟨.name n, place⟩ :: ⟨.openParen, opening⟩ :: (args.yield ++ [⟨.closeParen, closing⟩])
  | .group opening inner closing => ⟨.openParen, opening⟩ :: (inner.yield ++ [⟨.closeParen, closing⟩])

def Arguments.yield : Arguments → List (Placed Token)
  | .first s => s.yield
  | .more before comma s => before.yield ++ ⟨.comma, comma⟩ :: s.yield

end

def newlineTokens (places : List Span) : List (Placed Token) := places.map fun place => ⟨.newline, place⟩

def Line.yield : Line → List (Placed Token)
  | .declared target place colon unit => ⟨.name target, place⟩ :: ⟨.colon, colon⟩ :: unit.yield
  | .defined target place equals rhs colon unit =>
    ⟨.name target, place⟩ :: ⟨.equals, equals⟩ :: (rhs.yield ++ ⟨.colon, colon⟩ :: unit.yield)

def Lines.yield : Lines → List (Placed Token)
  | .first line => line.yield
  | .more before newline newlines line => before.yield ++ newlineTokens (newline :: newlines) ++ line.yield

/-- **The tokens that a sentence derives.** -/
def Sentence.yield : Sentence → List (Placed Token)
  | .blank newlines => newlineTokens newlines
  | .lines leading body trailing => newlineTokens leading ++ body.yield ++ newlineTokens trailing

/-! ## Trees

Operators of one kind nest to the left, powers to the right; a sign applies to the power after it, and parentheses leave
nothing but their tokens' places. -/

def Atom.start : Atom → Nat
  | .number _ place => place.start
  | .name _ place => place.start
  | .bareCall _ place _ _ => place.start
  | .call _ place _ _ _ => place.start
  | .group opening _ _ => opening.start

def Atom.stop : Atom → Nat
  | .number _ place => place.stop
  | .name _ place => place.stop
  | .bareCall _ _ _ closing => closing.stop
  | .call _ _ _ _ closing => closing.stop
  | .group _ _ closing => closing.stop

mutual

def Signed.stop : Signed → Nat
  | .power p => p.stop
  | .sign _ _ u => u.stop

def Power.stop : Power → Nat
  | .atom a => a.stop
  | .raised _ _ exponent => exponent.stop

end

def Product.stop : Product → Nat
  | .signed u => u.stop
  | .more _ _ _ u => u.stop

def Sum.stop : Sum → Nat
  | .product p => p.stop
  | .more _ _ _ p => p.stop

/-- An operation on two operands, from the start of one to the end of the other. -/
def joined (op : Operator) (l r : Expr) : Expr := .binary op l r (l.span.through r.span)

mutual

/-- **The tree of a sum.** -/
def Sum.tree : Sum → Expr
  | .product p => p.tree
  | .more before op _ p => joined op.operator before.tree p.tree

def Product.tree : Product → Expr
  | .signed u => u.tree
  | .more before op _ u => joined op.operator before.tree u.tree

def Signed.tree : Signed → Expr
  | .power p => p.tree
  | .sign s place u => .signed s u.tree ⟨place.start, u.tree.span.stop⟩

def Power.tree : Power → Expr
  | .atom a => a.tree
  | .raised base _ exponent => .binary .pow base.tree exponent.tree ⟨base.start, exponent.stop⟩

def Atom.tree : Atom → Expr
  | .number v place => .number v place
  | .name n place => .name n place
  | .bareCall n place _ closing => .call ⟨n, place⟩ [] (place.through closing)
  | .call n place _ args closing => .call ⟨n, place⟩ args.trees (place.through closing)
  | .group _ inner _ => inner.tree

def Arguments.trees : Arguments → List Expr
  | .first s => [s.tree]
  | .more before _ s => before.trees ++ [s.tree]

end

def Line.tree : Line → Equation
  | .declared target place _ unit => ⟨⟨target, place⟩, none, unit.tree, ⟨place.start, unit.stop⟩⟩
  | .defined target place _ rhs _ unit => ⟨⟨target, place⟩, some rhs.tree, unit.tree, ⟨place.start, unit.stop⟩⟩

def Lines.trees : Lines → List Equation
  | .first line => [line.tree]
  | .more before _ _ line => before.trees ++ [line.tree]

/-- **The equations of a sentence**, in the order of their lines. -/
def Sentence.trees : Sentence → List Equation
  | .blank _ => []
  | .lines _ body _ => body.trees

end Grammar
end FixedStep
