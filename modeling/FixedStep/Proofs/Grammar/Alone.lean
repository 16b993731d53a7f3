import FixedStep.Proofs.Grammar.Reading
import FixedStep.Proofs.Token.Excerpt
/-!
# Alone — an expression read by itself

A text may be read as one expression (`readExpression`).  A phrase is read as its tree (`readExpression_yield`), and
with all its tokens moved it is the same phrase, its tree moved alike (`Sum.yield_move`, `Sum.tree_move`).
-/
namespace FixedStep

/-- **A text read as an expression**, as one stands behind the colon of an equation. -/
def readExpression (text : String) : Option Expr :=
  match Token.scan text with
  | ⟨tokens, []⟩ =>
    match Parser.equations.run (⟨.name "", ⟨0, 0⟩⟩ :: ⟨.colon, ⟨0, 0⟩⟩ :: tokens) with
    | .ok [eq] => some eq.unit
    | _ => none
  | _ => none

open Grammar

/-- **A phrase is read as its tree.** -/
theorem readExpression_yield {text : String} {s : Sum} (h : Token.scan text = ⟨s.yield, []⟩) :
    readExpression text = some s.tree := by
  let d : Sentence := .lines [] (.first (.declared "" ⟨0, 0⟩ ⟨0, 0⟩ s)) []
  have hyield : d.yield = ⟨.name "", ⟨0, 0⟩⟩ :: ⟨.colon, ⟨0, 0⟩⟩ :: s.yield := List.append_nil _
  have hrun := (run_iff_sentence _ _).2 ⟨d, hyield, rfl⟩
  rw [readExpression, h]
  simp only [hrun]
  rfl

theorem sentence_of_readExpression {text : String} {e : Expr} (h : readExpression text = some e) :
    ∃ d : Sentence, d.yield = ⟨.name "", ⟨0, 0⟩⟩ :: ⟨.colon, ⟨0, 0⟩⟩ :: (Token.scan text).tokens := by
  unfold readExpression at h
  split at h
  · rename_i tokens hscan
    split at h
    · rename_i eq hrun
      obtain ⟨d, hyield, -⟩ := (run_iff_sentence _ _).1 hrun
      rw [hscan]
      exact ⟨d, hyield⟩
    · cases h
  · cases h

/-! ## Phrases moved -/

namespace Expr

mutual

/-- An expression with all its places moved. -/
def move (f : Nat → Nat) : Expr → Expr
  | number v place => number v (place.move f)
  | name n place => name n (place.move f)
  | signed s e place => signed s (e.move f) (place.move f)
  | binary op l r place => binary op (l.move f) (r.move f) (place.move f)
  | call g args place => call ⟨g.name, g.span.move f⟩ (moveAll f args) (place.move f)

def moveAll (f : Nat → Nat) : List Expr → List Expr
  | [] => []
  | e :: es => e.move f :: moveAll f es

end

@[simp] theorem span_move (f : Nat → Nat) (e : Expr) : (e.move f).span = e.span.move f := by
  cases e <;> simp only [move, span]

theorem moveAll_append (f : Nat → Nat) : ∀ es es' : List Expr, moveAll f (es ++ es') = moveAll f es ++ moveAll f es'
  | [], _ => rfl
  | e :: es, es' => congrArg (e.move f :: ·) (moveAll_append f es es')

end Expr

namespace Grammar

mutual

def Sum.move (f : Nat → Nat) : Sum → Sum
  | .product p => .product (p.move f)
  | .more before op place p => .more (before.move f) op (place.move f) (p.move f)

def Product.move (f : Nat → Nat) : Product → Product
  | .signed u => .signed (u.move f)
  | .more before op place u => .more (before.move f) op (place.move f) (u.move f)

def Signed.move (f : Nat → Nat) : Signed → Signed
  | .power p => .power (p.move f)
  | .sign s place u => .sign s (place.move f) (u.move f)

def Power.move (f : Nat → Nat) : Power → Power
  | .atom a => .atom (a.move f)
  | .raised base place exponent => .raised (base.move f) (place.move f) (exponent.move f)

def Atom.move (f : Nat → Nat) : Atom → Atom
  | .number v place => .number v (place.move f)
  | .name n place => .name n (place.move f)
  | .bareCall n place opening closing => .bareCall n (place.move f) (opening.move f) (closing.move f)
  | .call n place opening args closing => .call n (place.move f) (opening.move f) (args.move f) (closing.move f)
  | .group opening inner closing => .group (opening.move f) (inner.move f) (closing.move f)

def Arguments.move (f : Nat → Nat) : Arguments → Arguments
  | .first s => .first (s.move f)
  | .more before comma s => .more (before.move f) (comma.move f) (s.move f)

end

variable (f : Nat → Nat)

mutual

theorem Sum.yield_move : ∀ s : Sum, (s.move f).yield = s.yield.map (·.move f)
  | .product p => Product.yield_move p
  | .more before op place p => by
    rw [Sum.move, Sum.yield, Sum.yield, Sum.yield_move before, Product.yield_move p, List.map_append, List.map_cons]
    rfl

theorem Product.yield_move : ∀ p : Product, (p.move f).yield = p.yield.map (·.move f)
  | .signed u => Signed.yield_move u
  | .more before op place u => by
    rw [Product.move, Product.yield, Product.yield, Product.yield_move before, Signed.yield_move u, List.map_append,
      List.map_cons]
    rfl

theorem Signed.yield_move : ∀ u : Signed, (u.move f).yield = u.yield.map (·.move f)
  | .power p => Power.yield_move p
  | .sign s place u => by
    rw [Signed.move, Signed.yield, Signed.yield, Signed.yield_move u, List.map_cons]
    rfl

theorem Power.yield_move : ∀ p : Power, (p.move f).yield = p.yield.map (·.move f)
  | .atom a => Atom.yield_move a
  | .raised base place exponent => by
    rw [Power.move, Power.yield, Power.yield, Atom.yield_move base, Signed.yield_move exponent, List.map_append,
      List.map_cons]
    rfl

theorem Atom.yield_move : ∀ a : Atom, (a.move f).yield = a.yield.map (·.move f)
  | .number v place => rfl
  | .name n place => rfl
  | .bareCall n place opening closing => rfl
  | .call n place opening args closing => by
    rw [Atom.move, Atom.yield, Atom.yield, Arguments.yield_move args, List.map_cons, List.map_cons, List.map_append]
    rfl
  | .group opening inner closing => by
    rw [Atom.move, Atom.yield, Atom.yield, Sum.yield_move inner, List.map_cons, List.map_append]
    rfl

theorem Arguments.yield_move : ∀ args : Arguments, (args.move f).yield = args.yield.map (·.move f)
  | .first s => Sum.yield_move s
  | .more before comma s => by
    rw [Arguments.move, Arguments.yield, Arguments.yield, Arguments.yield_move before, Sum.yield_move s,
      List.map_append, List.map_cons]
    rfl

end

theorem Atom.start_move (a : Atom) : (a.move f).start = f a.start := by cases a <;> rfl

theorem Atom.stop_move (a : Atom) : (a.move f).stop = f a.stop := by cases a <;> rfl

mutual

theorem Signed.stop_move : ∀ u : Signed, (u.move f).stop = f u.stop
  | .power p => Power.stop_move p
  | .sign _ _ u => Signed.stop_move u

theorem Power.stop_move : ∀ p : Power, (p.move f).stop = f p.stop
  | .atom a => Atom.stop_move f a
  | .raised _ _ exponent => Signed.stop_move exponent

end

theorem move_joined (op : Operator) (l r : Expr) : (joined op l r).move f = joined op (l.move f) (r.move f) := by
  simp only [joined, Expr.move, Expr.span_move, Span.move, Span.through]

mutual

/-- **A phrase moved has the tree moved.** -/
theorem Sum.tree_move : ∀ s : Sum, (s.move f).tree = s.tree.move f
  | .product p => Product.tree_move p
  | .more before op place p => by
    rw [Sum.move, Sum.tree, Sum.tree, Sum.tree_move before, Product.tree_move p, move_joined]

theorem Product.tree_move : ∀ p : Product, (p.move f).tree = p.tree.move f
  | .signed u => Signed.tree_move u
  | .more before op place u => by
    rw [Product.move, Product.tree, Product.tree, Product.tree_move before, Signed.tree_move u, move_joined]

theorem Signed.tree_move : ∀ u : Signed, (u.move f).tree = u.tree.move f
  | .power p => Power.tree_move p
  | .sign s place u => by
    rw [Signed.move, Signed.tree, Signed.tree, Signed.tree_move u, Expr.span_move, Expr.move]
    rfl

theorem Power.tree_move : ∀ p : Power, (p.move f).tree = p.tree.move f
  | .atom a => Atom.tree_move a
  | .raised base place exponent => by
    rw [Power.move, Power.tree, Power.tree, Atom.tree_move base, Signed.tree_move exponent, Atom.start_move,
      Signed.stop_move, Expr.move]
    rfl

theorem Atom.tree_move : ∀ a : Atom, (a.move f).tree = a.tree.move f
  | .number v place => rfl
  | .name n place => rfl
  | .bareCall n place opening closing => rfl
  | .call n place opening args closing => by
    rw [Atom.move, Atom.tree, Atom.tree, Arguments.trees_move args, Expr.move]
    rfl
  | .group opening inner closing => Sum.tree_move inner

theorem Arguments.trees_move : ∀ args : Arguments, (args.move f).trees = Expr.moveAll f args.trees
  | .first s => by
    rw [Arguments.move, Arguments.trees, Arguments.trees, Sum.tree_move s]
    rfl
  | .more before comma s => by
    rw [Arguments.move, Arguments.trees, Arguments.trees, Arguments.trees_move before, Sum.tree_move s,
      Expr.moveAll_append]
    rfl

end

end Grammar
end FixedStep
