import FixedStep.Expr.Parse
/-!
# Reader — equations read token by token

The reader is a pushdown machine: its state is what has been read of the current equation, the constructs still open
around the next operand, innermost first, and what may come next.  A token either moves the state or cannot follow;
so the first token that cannot follow is where reading stops, and what could have stood there is known from the state.
It reads what the parser of equations reads, without ever going back.
-/
namespace FixedStep

/-- A construct that waits for an operand. -/
inductive Frame where
  /-- A sign that starts at byte `start`. -/
  | sign (sign : Sign) (start : Nat)
  /-- The left side of a sum or difference. -/
  | sum (op : Operator) (lhs : Expr)
  /-- The left side of a product or quotient. -/
  | product (op : Operator) (lhs : Expr)
  /-- A base whose first token, a parenthesis included, starts at byte `start`. -/
  | power (base : Expr) (start : Nat)
  /-- An opening parenthesis. -/
  | group (start : Nat)
  /-- A call and its arguments so far, the last one first. -/
  | arguments (function : Ident) (done : List Expr)
deriving Repr

/-- The expression of the equation that is being read. -/
inductive Part where
  | rhs (target : Ident)
  | unit (target : Ident) (rhs : Option Expr)
deriving Repr

/-- A complete operand: its tokens reach from byte `start` to byte `stop`.  Only a name that stands alone may take
arguments. -/
structure Operand where
  expr : Expr
  start : Nat
  stop : Nat
  callable : Bool
deriving Repr

/-- What has been read; `done` holds the equations before the current one, the last one first. -/
inductive Reader where
  /-- An equation may begin. -/
  | atLineStart (done : List Equation)
  /-- The target of an equation was read. -/
  | afterTarget (done : List Equation) (target : Ident)
  /-- An operand has to begin. -/
  | beforeOperand (done : List Equation) (part : Part) (frames : List Frame)
  /-- An operand was completed. -/
  | afterOperand (done : List Equation) (part : Part) (frames : List Frame) (operand : Operand)
deriving Repr

namespace Reader

/-! ## Closing operators -/

/-- Powers and signs close over a complete operand that ends at byte `stop`. -/
def closeTight (stop : Nat) : Expr → List Frame → Expr × List Frame
  | e, .power base start :: fs => closeTight stop (.binary .pow base e ⟨start, stop⟩) fs
  | e, .sign s start :: fs => closeTight stop (.signed s e ⟨start, e.span.stop⟩) fs
  | e, fs => (e, fs)

/-- Then a product closes. -/
def closeProduct (stop : Nat) (e : Expr) (fs : List Frame) : Expr × List Frame :=
  match closeTight stop e fs with
  | (r, .product op l :: fs) => (.binary op l r (l.span.through r.span), fs)
  | other => other

/-- Then a sum closes, and the operand stands directly in its parentheses, arguments or equation. -/
def closeSum (stop : Nat) (e : Expr) (fs : List Frame) : Expr × List Frame :=
  match closeProduct stop e fs with
  | (r, .sum op l :: fs) => (.binary op l r (l.span.through r.span), fs)
  | other => other

/-! ## What may come next -/

/-- What ends the innermost expression: the innermost open parenthesis, or the part itself. -/
def closers (part : Part) : List Frame → List Pattern
  | [] =>
    match part with
    | .rhs _ => [.token .colon]
    | .unit _ _ => [.token .newline, .endOfInput]
  | .group _ :: _ => [.token .closeParen]
  | .arguments _ _ :: _ => [.token .comma, .token .closeParen]
  | _ :: fs => closers part fs

/-- What begins an operand. -/
def openers : List Pattern := [.somethingElse, .name, .token .openParen]

/-- What continues an operand, operators included. -/
def continuers (callable : Bool) : List Pattern :=
  (if callable then [.token .openParen] else []) ++ [.token .power, .somethingElse]

/-- **What could come next**, in the order of the attempts. -/
def expected : Reader → List Pattern
  | atLineStart _ => [.token .newline, .name, .endOfInput]
  | afterTarget _ _ => [.token .equals, .token .colon]
  | beforeOperand _ _ (.arguments _ [] :: _) => openers ++ [.token .closeParen]
  | beforeOperand _ _ _ => openers
  | afterOperand _ part fs o => continuers o.callable ++ closers part fs

/-! ## Steps -/

/-- An operand begins, or something that an operand follows. -/
def begin (done : List Equation) (part : Part) (fs : List Frame) (t : Placed Token) : Option Reader :=
  let complete (e : Expr) (start : Nat) (callable : Bool) (fs : List Frame) : Reader :=
    afterOperand done part fs ⟨e, start, t.span.stop, callable⟩
  match t.value, fs with
  | .number v, fs => some (complete (.number v t.span) t.span.start false fs)
  | .name n, fs => some (complete (.name n t.span) t.span.start true fs)
  | .minus, fs => some (beforeOperand done part (.sign .neg t.span.start :: fs))
  | .plus, fs => some (beforeOperand done part (.sign .plus t.span.start :: fs))
  | .openParen, fs => some (beforeOperand done part (.group t.span.start :: fs))
  | .closeParen, .arguments f [] :: fs =>
    some (complete (.call f [] (f.span.through t.span)) f.span.start false fs)
  | _, _ => none

/-- The token after a complete operand that is not an operator: it closes the innermost construct. -/
def close (done : List Equation) (part : Part) (fs : List Frame) (o : Operand) (t : Placed Token) : Option Reader :=
  match closeSum o.stop o.expr fs, t.value, part with
  | (e, .group start :: fs), .closeParen, part => some (afterOperand done part fs ⟨e, start, t.span.stop, false⟩)
  | (e, .arguments f args :: fs), .closeParen, part =>
    some (afterOperand done part fs
      ⟨.call f (e :: args).reverse (f.span.through t.span), f.span.start, t.span.stop, false⟩)
  | (e, .arguments f args :: fs), .comma, part => some (beforeOperand done part (.arguments f (e :: args) :: fs))
  | (e, []), .colon, .rhs target => some (beforeOperand done (.unit target (some e)) [])
  | (e, []), .newline, .unit target rhs =>
    some (atLineStart (⟨target, rhs, e, ⟨target.span.start, o.stop⟩⟩ :: done))
  | _, _, _ => none

/-- The token after a complete operand. -/
def continue? (done : List Equation) (part : Part) (fs : List Frame) (o : Operand) (t : Placed Token) : Option Reader :=
  let operator (pending : Expr → Frame) (closed : Expr × List Frame) : Reader :=
    beforeOperand done part (pending closed.1 :: closed.2)
  match t.value, o.expr, o.callable with
  | .openParen, .name n s, true => some (beforeOperand done part (.arguments ⟨n, s⟩ [] :: fs))
  | .power, e, _ => some (beforeOperand done part (.power e o.start :: fs))
  | .star, e, _ => some (operator (.product .mul) (closeProduct o.stop e fs))
  | .slash, e, _ => some (operator (.product .div) (closeProduct o.stop e fs))
  | .plus, e, _ => some (operator (.sum .add) (closeSum o.stop e fs))
  | .minus, e, _ => some (operator (.sum .sub) (closeSum o.stop e fs))
  | _, _, _ => close done part fs o t

/-- **The state after one more token**, or nothing if the token cannot follow. -/
def step (r : Reader) (t : Placed Token) : Option Reader :=
  match r, t.value with
  | atLineStart done, .newline => some (atLineStart done)
  | atLineStart done, .name n => some (afterTarget done ⟨n, t.span⟩)
  | afterTarget done target, .equals => some (beforeOperand done (.rhs target) [])
  | afterTarget done target, .colon => some (beforeOperand done (.unit target none) [])
  | beforeOperand done part fs, _ => begin done part fs t
  | afterOperand done part fs o, _ => continue? done part fs o t
  | _, _ => none

theorem step_beforeOperand (done : List Equation) (part : Part) (fs : List Frame) (t : Placed Token) :
    (beforeOperand done part fs).step t = begin done part fs t := by
  obtain ⟨token, place⟩ := t
  cases token <;> rfl

theorem step_afterOperand (done : List Equation) (part : Part) (fs : List Frame) (o : Operand) (t : Placed Token) :
    (afterOperand done part fs o).step t = continue? done part fs o t := by
  obtain ⟨token, place⟩ := t
  cases token <;> rfl

/-- The equations, if the text may end here. -/
def finish : Reader → Option (List Equation)
  | atLineStart done => some done.reverse
  | afterOperand done (.unit target rhs) fs o =>
    match closeSum o.stop o.expr fs with
    | (e, []) => some (⟨target, rhs, e, ⟨target.span.start, o.stop⟩⟩ :: done).reverse
    | _ => none
  | _ => none

/-- **Reading to the end**, from any state. -/
def run (r : Reader) : List (Placed Token) → Except Refusal (List Equation)
  | [] =>
    match r.finish with
    | some equations => .ok equations
    | none => .error ⟨none, r.expected⟩
  | t :: ts =>
    match r.step t with
    | some next => next.run ts
    | none => .error ⟨some t, r.expected⟩

end Reader
end FixedStep
