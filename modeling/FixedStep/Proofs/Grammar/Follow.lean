import FixedStep.Proofs.Grammar.Combinator
/-!
# Follow — parsers where the reader waits for an operand

A parser that starts where the reader waits for an operand ends in one of four ways (`Follows`).  It has read an operand
and the reader is behind it; or it has gone back to a token that nothing else takes, after a refusal further on which is
the reader's; or it fails after such a refusal; or no operand begins there.
-/
namespace FixedStep

/-! ## The reader where it stops -/

namespace Reader

variable {done : List Equation} {part : Part} {fs : List Frame} {o : Operand} {t : Placed Token} {ts : List (Placed Token)}

theorem run_step {r next : Reader} (h : r.step t = some next) : r.run (t :: ts) = next.run ts := by
  rw [run, h]

theorem run_refused {r : Reader} (hstep : ∀ t ∈ ts.head?, r.step t = none)
    (hfinish : ts = [] → r.finish = none) : r.run ts = .error ⟨ts.head?, r.expected⟩ := by
  cases ts with
  | nil =>
    rw [run, hfinish rfl]
    rfl
  | cons t ts =>
    rw [run, hstep t rfl]
    rfl

/-- The tokens that an operand begins with, signs included. -/
def opens : Token → Bool
  | .number _ | .name _ | .minus | .plus | .openParen => true
  | _ => false

/-- Not directly behind the opening parenthesis of a call. -/
def Waits : List Frame → Prop
  | .arguments _ [] :: _ => False
  | _ => True

theorem begin_eq_none (h : opens t.value = false) (hfs : Waits fs) : begin done part fs t = none := by
  obtain ⟨token, place⟩ := t
  cases token with
  | closeParen =>
    rcases fs with _ | ⟨_ | _ | _ | _ | _ | ⟨f, _ | ⟨e, es⟩⟩, gs⟩
    case cons.arguments.nil => exact hfs.elim
    all_goals rfl
  | number | name | minus | plus | openParen => cases h
  | _ => rfl

theorem expected_beforeOperand (hfs : Waits fs) : (beforeOperand done part fs).expected = openers := by
  rcases fs with _ | ⟨_ | _ | _ | _ | _ | ⟨f, _ | ⟨e, es⟩⟩, gs⟩
  case cons.arguments.nil => exact hfs.elim
  all_goals rfl

/-- **Where no operand begins**, the reader that waits for one stops. -/
theorem run_beforeOperand (hfs : Waits fs) (h : ∀ t ∈ ts.head?, opens t.value = false) :
    (beforeOperand done part fs).run ts = .error ⟨ts.head?, openers⟩ := by
  have hstep : ∀ t ∈ ts.head?, (beforeOperand done part fs).step t = none := fun t ht => by
    rw [step_beforeOperand, begin_eq_none (h t ht) hfs]
  rw [run_refused hstep fun _ => rfl, expected_beforeOperand hfs]

/-! ## Closing -/

def joinProduct : Expr × List Frame → Expr × List Frame
  | (r, .product op l :: fs) => (Parser.binary l (op, r), fs)
  | other => other

def joinSum : Expr × List Frame → Expr × List Frame
  | (r, .sum op l :: fs) => (Parser.binary l (op, r), fs)
  | other => other

theorem closeProduct_eq (stop : Nat) (e : Expr) (fs : List Frame) :
    closeProduct stop e fs = joinProduct (closeTight stop e fs) := by
  rw [closeProduct]
  rcases closeTight stop e fs with ⟨r, _ | ⟨_ | _ | _ | _ | _ | _, gs⟩⟩ <;> rfl

theorem closeSum_eq (stop : Nat) (e : Expr) (fs : List Frame) :
    closeSum stop e fs = joinSum (closeProduct stop e fs) := by
  rw [closeSum]
  rcases closeProduct stop e fs with ⟨r, _ | ⟨_ | _ | _ | _ | _ | _, gs⟩⟩ <;> rfl

/-- What ends the innermost expression is outside of all that closes before it. -/
theorem closers_closeTight (part : Part) (stop : Nat) : ∀ (fs : List Frame) (e : Expr),
    closers part (closeTight stop e fs).2 = closers part fs
  | .power _ _ :: fs, _ => closers_closeTight part stop fs _
  | .sign _ _ :: fs, _ => closers_closeTight part stop fs _
  | [], _ => rfl
  | .sum _ _ :: _, _ => rfl
  | .product _ _ :: _, _ => rfl
  | .group _ :: _, _ => rfl
  | .arguments _ _ :: _, _ => rfl

theorem closers_closeSum (part : Part) (stop : Nat) (e : Expr) (fs : List Frame) :
    closers part (closeSum stop e fs).2 = closers part fs := by
  have hproduct : closers part (closeProduct stop e fs).2 = closers part fs := by
    rw [closeProduct_eq, ← closers_closeTight part stop fs e]
    rcases closeTight stop e fs with ⟨r, _ | ⟨_ | _ | _ | _ | _ | _, gs⟩⟩ <;> rfl
  rw [closeSum_eq, ← hproduct]
  rcases closeProduct stop e fs with ⟨r, _ | ⟨_ | _ | _ | _ | _ | _, gs⟩⟩ <;> rfl

/-- A token that is no operator, and opens no arguments, closes. -/
theorem continue?_eq_close (hnext : ∀ token ∈ [Token.power, .star, .slash, .plus, .minus], t.value ≠ token)
    (hbare : o.callable = true → t.value ≠ .openParen) : continue? done part fs o t = close done part fs o t := by
  obtain ⟨token, place⟩ := t
  obtain ⟨e, start, stop, callable⟩ := o
  cases token with
  | power | star | slash | plus | minus => simp at hnext
  | openParen =>
    cases callable with
    | true => exact absurd rfl (hbare rfl)
    | false => cases e <;> rfl
  | _ => rfl

end Reader

open Reader

/-! ## Where a parser leaves the cursor -/

section

variable (outcome : Except Refusal (List Equation)) (done : List Equation) (part : Part) (operators : List Token)

/-- Behind an operand.  None of these operators follows it, and all of them were looked for. -/
structure Completed (offered : Bool → List Pattern) (fs : List Frame) (o : Operand) (c : Cursor) : Prop where
  run : outcome = (afterOperand done part fs o).run c.rest
  stop : o.stop = c.stop
  offers : c.Offers (offered o.callable)
  next : ∀ token ∈ operators, c.next ≠ some token
  bare : o.callable = true → c.next ≠ some .openParen

/-- At a token that continues an operand and cannot be taken, after the refusal further on that the reader ends with. -/
structure Stuck (c : Cursor) : Prop where
  run : outcome = .error c.refusal
  beyond : c.Beyond
  next : ∃ token ∈ Token.openParen :: operators, c.next = some token

/-- **Where a parser that succeeds leaves the cursor.** -/
def Leaves (offered : Bool → List Pattern) (closes : List Frame → Operand → Prop) (c : Cursor) : Prop :=
  (∃ fs o, Completed outcome done part operators offered fs o c ∧ closes fs o) ∨ Stuck outcome operators c

end

/-- **What becomes of a parser** that starts where an operand has to begin. -/
inductive Follows {α : Type} (outcome : Except Refusal (List Equation)) (c : Cursor) (Left : α → Cursor → Prop) :
    Option α × Cursor → Prop where
  | read {a : α} {after : Cursor} (hleft : Left a after) (hlt : after.rest.length < c.rest.length) :
    Follows outcome c Left (some a, after)
  | failed {after : Cursor} (hrun : outcome = .error after.refusal) (hlt : after.furthest.length < c.rest.length)
    (hopens : ∃ token, c.next = some token ∧ opens token = true) : Follows outcome c Left (none, after)
  | refused (hnone : ∀ t ∈ c.rest.head?, opens t.value = false) : Follows outcome c Left (none, c.offering openers)

/-- **A parser follows the reader** through operands that end with `close`, before which fewer than `n` tokens are left. -/
def Parser.Tracks (p : Parser Expr) (n : Nat) (close : Nat → Expr → List Frame → Expr × List Frame)
    (operators : List Token) (offered : Bool → List Pattern) (Fit : List Frame → Prop) : Prop :=
  ∀ (done : List Equation) (part : Part) (fs : List Frame) (c : Cursor), Fit fs → c.Offers [] → c.rest.length < n →
    Follows ((beforeOperand done part fs).run c.rest) c (fun e after =>
      Leaves ((beforeOperand done part fs).run c.rest) done part operators offered
        (fun gs o => close o.stop o.expr gs = close o.stop e fs) after) (p c)

/-! ## Ends of expressions -/

variable {outcome : Except Refusal (List Equation)} {done : List Equation} {part : Part} {fs : List Frame} {c : Cursor}

/-- The operators of powers, products and sums. -/
def tightTokens : List Token := [.power]

def productTokens : List Token := tightTokens ++ [.star, .slash]

def sumTokens : List Token := productTokens ++ [.plus, .minus]

/-- A sum that is complete stands directly in its parentheses, arguments or equation. -/
def Base : List Frame → Prop
  | [] | .group _ :: _ | .arguments _ _ :: _ => True
  | _ => False

/-- **The reader stops** behind an expression that nothing continues and the next token does not close. -/
theorem Completed.refused {operators : List Token} {offered : Bool → List Pattern} {gs : List Frame} {o : Operand}
    (h : Completed outcome done part operators offered gs o c) (hoperators : ∀ token ∈ sumTokens, token ∈ operators)
    (hclose : ∀ t ∈ c.rest.head?, Reader.close done part gs o t = none)
    (hfinish : c.rest = [] → (afterOperand done part gs o).finish = none) :
    outcome = .error ⟨c.rest.head?, continuers o.callable ++ closers part gs⟩ := by
  rw [h.run, run_refused (fun t ht => ?_) hfinish]
  · rfl
  · have hnext := Cursor.next_of_head ht
    rw [step_afterOperand, continue?_eq_close (fun token htoken heq => ?_) fun hbare heq => ?_]
    · exact hclose t ht
    · exact h.next token (hoperators token htoken) (heq ▸ hnext)
    · exact h.bare hbare (heq ▸ hnext)

/-- A parser that fails has told where the reader stops. -/
theorem failed_of_follows {α : Type} {Left : α → Cursor → Prop} {after : Cursor} (hfs : Waits fs)
    (houtcome : outcome = (beforeOperand done part fs).run c.rest) (h : Follows outcome c Left (none, after)) :
    outcome = .error after.refusal ∧ after.furthest.length ≤ c.rest.length := by
  cases h with
  | failed hrun hlt => exact ⟨hrun, Nat.le_of_lt hlt⟩
  | refused hnone => exact ⟨houtcome.trans (run_beforeOperand hfs hnone), Nat.le_refl _⟩

theorem Stuck.just_none {operators : List Token} {token : Token} (h : Stuck outcome operators c)
    (htoken : token ∉ Token.openParen :: operators) : Parser.just token c = (none, c) := by
  obtain ⟨t, ht, hnext⟩ := h.next
  have hne : c.next ≠ some token := by
    rintro heq
    obtain rfl := Option.some.inj (hnext.symm.trans heq)
    exact htoken ht
  rw [Parser.just_none hne, Cursor.refuse_of_beyond h.beyond]

theorem closeSum_base (h : Base fs) (stop : Nat) (e : Expr) : closeSum stop e fs = (e, fs) := by
  rcases fs with _ | ⟨_ | _ | _ | _ | _ | _, gs⟩ <;> first | exact h.elim | rfl

theorem stuck_mono {operators operators' : List Token} (h : Stuck outcome operators c)
    (hsub : ∀ token ∈ operators, token ∈ operators') : Stuck outcome operators' c := by
  obtain ⟨token, htoken, hnext⟩ := h.next
  refine ⟨h.run, h.beyond, token, ?_, hnext⟩
  rcases List.mem_cons.1 htoken with rfl | htoken
  · exact List.mem_cons_self
  · exact List.mem_cons_of_mem _ (hsub token htoken)

section

variable {p : Parser Expr} {n : Nat} {close : Nat → Expr → List Frame → Expr × List Frame} {operators : List Token}
  {offered : Bool → List Pattern} {Fit : List Frame → Prop} {ps : List Pattern} {t : Placed Token}
  {ts : List (Placed Token)}

/-- A parser follows the reader from behind a token. -/
theorem Parser.Tracks.behind (hp : p.Tracks n close operators offered Fit) (hfit : Fit fs) (hoffers : c.Offers ps)
    (hrest : c.rest = t :: ts) (hn : c.rest.length < n + 1) (houtcome : outcome = (beforeOperand done part fs).run ts) :
    Follows outcome (c.past t ts) (fun e after => Leaves outcome done part operators offered
      (fun gs o => close o.stop o.expr gs = close o.stop e fs) after) (p (c.past t ts)) := by
  have hlt := Cursor.length_past hrest
  subst houtcome
  exact hp done part fs (c.past t ts) hfit (hoffers.past hrest) (by omega)

end

end FixedStep
