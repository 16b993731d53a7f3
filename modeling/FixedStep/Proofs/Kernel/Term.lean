import FixedStep.Proofs.Kernel.Word
/-!
# Term — reading a generated statement

A statement assigns an expression to the element of an array that the loop stands at.  Expressions are read as C reads
them: products bind tighter than sums, operators of one strength associate to the left, and a minus in front binds
tighter than both.  What is open on the left is kept as a stack of frames.
-/
namespace FixedStep
namespace Kernel

/-- An expression of a statement. -/
inductive Term where
  | number (text : String)
  | constant (name : String)
  /-- The element of an array that the loop stands at. -/
  | element (array : String)
  | neg (operand : Term)
  | binary (op : Operator) (lhs rhs : Term)
  | call (function : String) (args : List Term)

/-- `array[_i] = value;` -/
structure Assignment where
  array : String
  value : Term

namespace Term

/-- What is open to the left of an operand. -/
inductive Frame where
  | group
  /-- A call with the arguments read, the last one first. -/
  | call (function : String) (args : List Term)
  | negated
  | left (op : Operator) (lhs : Term)

/-- What may follow. -/
inductive Stage where
  | operand (stack : List Frame)
  /-- After a name: a call, an element or a constant. -/
  | named (name : String) (stack : List Frame)
  | subscript (array : String) (stack : List Frame)
  | subscripted (array : String) (stack : List Frame)
  /-- After an operand. -/
  | operator (stack : List Frame) (t : Term)
  | finished (t : Term)

/-- How tightly an operator binds. -/
def strength : Operator → Nat
  | .add => 1
  | .sub => 1
  | .mul => 2
  | .div => 2
  | .pow => 3

/-- The operators between operands. -/
def operator? : Char → Option Operator
  | '+' => some .add
  | '-' => some .sub
  | '*' => some .mul
  | '/' => some .div
  | _ => none

/-- An operand with the signs and operators closed that bind it at least so tightly. -/
def close (least : Nat) : List Frame → Term → List Frame × Term
  | .negated :: stack, t => close least stack (.neg t)
  | .left op l :: stack, t =>
    if least ≤ strength op then close least stack (.binary op l t) else (.left op l :: stack, t)
  | stack, t => (stack, t)

/-- An operand, or the end of a call without arguments. -/
def stepOperand (stack : List Frame) : Word → Option Stage
  | .number w => some (.operator stack (.number w))
  | .name n => some (.named n stack)
  | .symbol '(' => some (.operand (.group :: stack))
  | .symbol '-' => some (.operand (.negated :: stack))
  | .symbol ')' =>
    match stack with
    | .call f [] :: stack => some (.operator stack (.call f []))
    | _ => none
  | .symbol _ => none

/-- What closes an operand, given without the operators on its left. -/
def stepCloser (c : Char) : List Frame × Term → Option Stage
  | (.group :: stack, t) => if c = ')' then some (.operator stack t) else none
  | (.call f args :: stack, t) =>
    if c = ')' then some (.operator stack (.call f (t :: args).reverse))
    else if c = ',' then some (.operand (.call f (t :: args) :: stack))
    else none
  | ([], t) => if c = ';' then some (.finished t) else none
  | _ => none

/-- After an operand: an operator, a comma or a closer. -/
def stepOperator (stack : List Frame) (t : Term) : Word → Option Stage
  | .symbol c =>
    match operator? c with
    | some op =>
      let (stack, t) := close (strength op) stack t
      some (.operand (.left op t :: stack))
    | none => stepCloser c (close 0 stack t)
  | _ => none

def step : Stage → Word → Option Stage
  | .operand stack, w => stepOperand stack w
  | .named n stack, w =>
    if w = .symbol '(' then some (.operand (.call n [] :: stack))
    else if w = .symbol '[' then some (.subscript n stack)
    else stepOperator stack (.constant n) w
  | .subscript n stack, w => if w = .name "_i" then some (.subscripted n stack) else none
  | .subscripted n stack, w => if w = .symbol ']' then some (.operator stack (.element n)) else none
  | .operator stack t, w => stepOperator stack t w
  | .finished _, _ => none

def steps : Stage → List Word → Option Stage
  | g, [] => some g
  | g, w :: ws => (step g w).bind (steps · ws)

/-- The expression of a row of words that ends in a semicolon. -/
def ofWords? (ws : List Word) : Option Term :=
  match steps (.operand []) ws with
  | some (.finished t) => some t
  | _ => none

theorem steps_cons (g : Stage) (w : Word) (ws : List Word) : steps g (w :: ws) = (step g w).bind (steps · ws) := rfl

/-- A name before anything but an opening bracket is a constant. -/
theorem steps_constant {name : String} {stack : List Frame} {w : Word} (hcall : w ≠ .symbol '(')
    (helement : w ≠ .symbol '[') (ws : List Word) :
    steps (.operand stack) (.name name :: w :: ws) = steps (.operator stack (.constant name)) (w :: ws) := by
  rw [steps_cons, steps_cons]
  simp only [step, stepOperand, Option.bind_some, steps_cons, if_neg hcall, if_neg helement]

theorem steps_element (array : String) (stack : List Frame) (ws : List Word) :
    steps (.operand stack) (.name array :: .symbol '[' :: .name "_i" :: .symbol ']' :: ws) =
      steps (.operator stack (.element array)) ws := rfl

end Term

namespace Assignment

/-- The statement of a row of words. -/
def ofWords? : List Word → Option Assignment
  | .name array :: .symbol '[' :: .name i :: .symbol ']' :: .symbol '=' :: ws =>
    if i = "_i" then (Term.ofWords? ws).map (⟨array, ·⟩) else none
  | _ => none

end Assignment
end Kernel
end FixedStep
