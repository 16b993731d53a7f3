import FixedStep.Proofs.Grammar.Derivation
/-!
# Context — a derivation that is half read

A context is a derivation with a hole, together with the tokens before the hole.  What kind of phrase the hole takes is
part of its type, so a context can only be filled with a phrase that fits.  A stage is what a reading from the left has
of a sentence; the token after it leads to one further stage or to none.
-/
namespace FixedStep
namespace Grammar

mutual

inductive SumContext where
  | whole
  | group (outer : SignedContext) (opening : Span)
  | firstArgument (outer : SignedContext) (n : String) (place opening : Span)
  | nextArgument (outer : SignedContext) (n : String) (place opening : Span) (before : Arguments) (comma : Span)

inductive ProductContext where
  | first (outer : SumContext)
  | more (outer : SumContext) (before : Sum) (op : SumOperator) (place : Span)

inductive SignedContext where
  | first (outer : ProductContext)
  | more (outer : ProductContext) (before : Product) (op : ProductOperator) (place : Span)
  | sign (outer : SignedContext) (s : Sign) (place : Span)
  | exponent (outer : SignedContext) (base : Atom) (place : Span)

end

inductive LineContext where
  | start (leading : List Span)
  | after (leading : List Span) (before : Lines) (newline : Span) (newlines : List Span)

inductive PartContext where
  | rhs (target : String) (place equals : Span)
  | unit (target : String) (place colon : Span)
  | unitAfter (target : String) (place equals : Span) (rhs : Sum) (colon : Span)

/-- What a reading has of a sentence. -/
inductive Stage where
  | atLineStart (c : LineContext)
  | afterTarget (c : LineContext) (target : String) (place : Span)
  | beforeOperand (c : LineContext) (l : PartContext) (k : SignedContext)
  | afterOperand (c : LineContext) (l : PartContext) (k : SignedContext) (a : Atom)

/-! ## Filling the hole -/

/-- A product that ends with a signed power, and what surrounds it. -/
def closeSigned : SignedContext → Signed → ProductContext × Product
  | .first o, u => (o, .signed u)
  | .more o before op place, u => (o, .more before op place u)
  | .sign k s place, u => closeSigned k (.sign s place u)
  | .exponent k base place, u => closeSigned k (.power (.raised base place u))

/-- A sum that ends with a product, and what surrounds it. -/
def closeProduct : ProductContext → Product → SumContext × Sum
  | .first o, p => (o, .product p)
  | .more o before op place, p => (o, .more before op place p)

/-- The product that ends with an atom, and what surrounds it. -/
def productOf (k : SignedContext) (a : Atom) : ProductContext × Product := closeSigned k (.power (.atom a))

/-- The sum that ends with an atom, and what surrounds it. -/
def sumOf (k : SignedContext) (a : Atom) : SumContext × Sum := closeProduct (productOf k a).1 (productOf k a).2

/-- A hole for a sum is a hole for its first signed power. -/
def SumContext.inward (o : SumContext) : SignedContext := .first (.first o)

/-- The equations up to and with a line. -/
def LineContext.body : LineContext → Line → Lines
  | start _, line => .first line
  | after _ before newline newlines, line => .more before newline newlines line

/-- The newlines before all equations. -/
def LineContext.leading : LineContext → List Span
  | start leading => leading
  | after leading _ _ _ => leading

/-- A line filled, if the hole was for its unit. -/
def PartContext.line? : PartContext → Sum → Option Line
  | rhs _ _ _, _ => none
  | unit target place colon, s => some (.declared target place colon s)
  | unitAfter target place equals r colon, s => some (.defined target place equals r colon s)

/-! ## Stages -/

namespace Stage

/-- An operand begins, or something that an operand follows. -/
def begin (c : LineContext) (l : PartContext) (k : SignedContext) (t : Placed Token) : Option Stage :=
  match t.value, k with
  | .number v, k => some (afterOperand c l k (.number v t.span))
  | .name n, k => some (afterOperand c l k (.name n t.span))
  | .minus, k => some (beforeOperand c l (.sign k .neg t.span))
  | .plus, k => some (beforeOperand c l (.sign k .plus t.span))
  | .openParen, k => some (beforeOperand c l (SumContext.group k t.span).inward)
  | .closeParen, .first (.first (.firstArgument outer n place opening)) =>
    some (afterOperand c l outer (.bareCall n place opening t.span))
  | _, _ => none

/-- A sum ends, and the token after it closes what surrounds the sum. -/
def close (c : LineContext) (l : PartContext) (o : SumContext) (s : Sum) (t : Placed Token) : Option Stage :=
  match o, t.value with
  | .group outer opening, .closeParen => some (afterOperand c l outer (.group opening s t.span))
  | .firstArgument outer n place opening, .closeParen =>
    some (afterOperand c l outer (.call n place opening (.first s) t.span))
  | .nextArgument outer n place opening before comma, .closeParen =>
    some (afterOperand c l outer (.call n place opening (.more before comma s) t.span))
  | .firstArgument outer n place opening, .comma =>
    some (beforeOperand c l (SumContext.nextArgument outer n place opening (.first s) t.span).inward)
  | .nextArgument outer n place opening before comma, .comma =>
    some (beforeOperand c l (SumContext.nextArgument outer n place opening (.more before comma s) t.span).inward)
  | .whole, .colon =>
    match l with
    | .rhs target place equals => some (beforeOperand c (.unitAfter target place equals s t.span) SumContext.whole.inward)
    | _ => none
  | .whole, .newline => (l.line? s).map fun line => atLineStart (.after c.leading (c.body line) t.span [])
  | _, _ => none

/-- The token after an atom. -/
def continue? (c : LineContext) (l : PartContext) (k : SignedContext) (a : Atom) (t : Placed Token) : Option Stage :=
  match t.value, a with
  | .openParen, .name n place => some (beforeOperand c l (SumContext.firstArgument k n place t.span).inward)
  | .power, a => some (beforeOperand c l (.exponent k a t.span))
  | .star, a => some (beforeOperand c l (.more (productOf k a).1 (productOf k a).2 .mul t.span))
  | .slash, a => some (beforeOperand c l (.more (productOf k a).1 (productOf k a).2 .div t.span))
  | .plus, a => some (beforeOperand c l (.first (.more (sumOf k a).1 (sumOf k a).2 .add t.span)))
  | .minus, a => some (beforeOperand c l (.first (.more (sumOf k a).1 (sumOf k a).2 .sub t.span)))
  | _, a => close c l (sumOf k a).1 (sumOf k a).2 t

/-- **The stage after one more token**, or nothing if the token cannot follow. -/
def step (g : Stage) (t : Placed Token) : Option Stage :=
  match g, t.value with
  | atLineStart (.start leading), .newline => some (atLineStart (.start (leading ++ [t.span])))
  | atLineStart (.after leading before newline newlines), .newline =>
    some (atLineStart (.after leading before newline (newlines ++ [t.span])))
  | atLineStart c, .name n => some (afterTarget c n t.span)
  | afterTarget c target place, .equals => some (beforeOperand c (.rhs target place t.span) SumContext.whole.inward)
  | afterTarget c target place, .colon => some (beforeOperand c (.unit target place t.span) SumContext.whole.inward)
  | beforeOperand c l k, _ => begin c l k t
  | afterOperand c l k a, _ => continue? c l k a t
  | _, _ => none

def steps : Stage → List (Placed Token) → Option Stage
  | g, [] => some g
  | g, t :: ts => (g.step t).bind fun next => next.steps ts

def finish : Stage → Option Sentence
  | atLineStart (.start leading) => some (.blank leading)
  | atLineStart (.after leading before newline newlines) => some (.lines leading before (newline :: newlines))
  | afterOperand c l k a =>
    match sumOf k a with
    | (.whole, s) => (l.line? s).map fun line => .lines c.leading (c.body line) []
    | _ => none
  | _ => none

def initial : Stage := atLineStart (.start [])

theorem steps_append (g : Stage) (ts us : List (Placed Token)) :
    g.steps (ts ++ us) = (g.steps ts).bind fun next => next.steps us := by
  induction ts generalizing g with
  | nil => rfl
  | cons t ts ih =>
    rw [List.cons_append, steps, steps, Option.bind_assoc]
    exact congrArg _ (funext fun next => ih next)

end Stage

/-! ## What was read -/

mutual

/-- The tokens before the hole. -/
def SumContext.read : SumContext → List (Placed Token)
  | .whole => []
  | .group outer opening => outer.read ++ [⟨.openParen, opening⟩]
  | .firstArgument outer n place opening => outer.read ++ [⟨.name n, place⟩, ⟨.openParen, opening⟩]
  | .nextArgument outer n place opening before comma =>
    outer.read ++ ⟨.name n, place⟩ :: ⟨.openParen, opening⟩ :: (before.yield ++ [⟨.comma, comma⟩])

def ProductContext.read : ProductContext → List (Placed Token)
  | .first outer => outer.read
  | .more outer before op place => outer.read ++ before.yield ++ [⟨op.token, place⟩]

def SignedContext.read : SignedContext → List (Placed Token)
  | .first outer => outer.read
  | .more outer before op place => outer.read ++ before.yield ++ [⟨op.token, place⟩]
  | .sign outer s place => outer.read ++ [⟨signToken s, place⟩]
  | .exponent outer base place => outer.read ++ base.yield ++ [⟨.power, place⟩]

end

def LineContext.read : LineContext → List (Placed Token)
  | start leading => newlineTokens leading
  | after leading before newline newlines => newlineTokens leading ++ before.yield ++ newlineTokens (newline :: newlines)

def PartContext.read : PartContext → List (Placed Token)
  | rhs target place equals => [⟨.name target, place⟩, ⟨.equals, equals⟩]
  | unit target place colon => [⟨.name target, place⟩, ⟨.colon, colon⟩]
  | unitAfter target place equals r colon =>
    ⟨.name target, place⟩ :: ⟨.equals, equals⟩ :: (r.yield ++ [⟨.colon, colon⟩])

/-- **The tokens that led to a stage.** -/
def Stage.read : Stage → List (Placed Token)
  | atLineStart c => c.read
  | afterTarget c target place => c.read ++ [⟨.name target, place⟩]
  | beforeOperand c l k => c.read ++ l.read ++ k.read
  | afterOperand c l k a => c.read ++ l.read ++ k.read ++ a.yield

@[simp] theorem read_inward (o : SumContext) : o.inward.read = o.read := by
  simp only [SumContext.inward, SignedContext.read, ProductContext.read]

theorem read_closeSigned : ∀ (k : SignedContext) (u : Signed),
    (closeSigned k u).1.read ++ (closeSigned k u).2.yield = k.read ++ u.yield
  | .first o, u => by simp only [closeSigned, SignedContext.read, Product.yield]
  | .more o before op place, u => by
    simp only [closeSigned, SignedContext.read, Product.yield, List.append_assoc, List.singleton_append]
  | .sign k s place, u => by
    rw [closeSigned, read_closeSigned k, SignedContext.read, Signed.yield, List.append_assoc, List.singleton_append]
  | .exponent k base place, u => by
    rw [closeSigned, read_closeSigned k]
    simp only [SignedContext.read, Signed.yield, Power.yield, List.append_assoc, List.singleton_append]

theorem read_closeProduct (o : ProductContext) (p : Product) :
    (closeProduct o p).1.read ++ (closeProduct o p).2.yield = o.read ++ p.yield := by
  cases o with
  | first o => simp only [closeProduct, ProductContext.read, Sum.yield]
  | more o before op place =>
    simp only [closeProduct, ProductContext.read, Sum.yield, List.append_assoc, List.singleton_append]

theorem read_productOf (k : SignedContext) (a : Atom) :
    (productOf k a).1.read ++ (productOf k a).2.yield = k.read ++ a.yield := by
  rw [productOf, read_closeSigned, Signed.yield, Power.yield]

theorem read_sumOf (k : SignedContext) (a : Atom) :
    (sumOf k a).1.read ++ (sumOf k a).2.yield = k.read ++ a.yield := by
  rw [sumOf, read_closeProduct, read_productOf]

theorem read_line {l : PartContext} {s : Sum} {line : Line} (h : l.line? s = some line) :
    line.yield = l.read ++ s.yield := by
  cases l with
  | rhs => cases h
  | unit target place colon =>
    obtain rfl := Option.some.inj h
    rfl
  | unitAfter target place equals r colon =>
    obtain rfl := Option.some.inj h
    simp only [Line.yield, PartContext.read, List.cons_append, List.append_assoc, List.nil_append]

theorem read_body (c : LineContext) (line : Line) :
    newlineTokens c.leading ++ (c.body line).yield = c.read ++ line.yield := by
  cases c with
  | start leading => rfl
  | after leading before newline newlines =>
    simp only [LineContext.leading, LineContext.body, LineContext.read, Lines.yield, List.append_assoc]

end Grammar
end FixedStep
