import FixedStep.Proofs.Grammar.Alone
import FixedStep.Proofs.Grammar.Extent
/-!
# Balance — which nodes are read again from their spans

Parentheses around an operand leave no node, and the span of an operation or of a sign reaches only to the spans of its
operands; so it may hold one parenthesis of a pair without the other.  A node is read again from the text at its span
exactly when the parentheses there are balanced (`readExpression_span`).
-/
namespace FixedStep

/-! ## Parentheses -/

namespace Token

/-- How many parentheses are open after a token, if it does not close more than are open. -/
def depth? (d : Nat) : Token → Option Nat
  | .openParen => some (d + 1)
  | .closeParen => if d = 0 then none else some (d - 1)
  | _ => some d

def isParenthesis : Token → Bool
  | .openParen | .closeParen => true
  | _ => false

theorem depth?_plain {t : Token} (h : t.isParenthesis = false) (d : Nat) : t.depth? d = some d := by
  cases t <;> first | rfl | cases h

theorem depth?_add (more : Nat) {t : Token} {d d' : Nat} (h : t.depth? d = some d') :
    t.depth? (d + more) = some (d' + more) := by
  cases t
  case openParen =>
    obtain rfl := Option.some.inj h
    exact congrArg some (Nat.add_right_comm d more 1)
  case closeParen =>
    obtain ⟨hd, h⟩ := Option.ite_none_left_eq_some.1 h
    obtain rfl := Option.some.inj h
    exact Option.ite_none_left_eq_some.2 ⟨by omega, congrArg some (by omega)⟩
  all_goals
    obtain rfl := Option.some.inj h
    rfl

end Token

/-- How many parentheses are open after some tokens. -/
def depth? (d : Nat) (ts : List (Placed Token)) : Option Nat := ts.foldlM (fun d t => t.value.depth? d) d

/-- **Every parenthesis has its counterpart.** -/
def Balanced (ts : List (Placed Token)) : Prop := depth? 0 ts = some 0

instance (ts : List (Placed Token)) : Decidable (Balanced ts) := inferInstanceAs (Decidable (_ = _))

section

variable {t : Placed Token} {ts us : List (Placed Token)} {d d' : Nat}

theorem depth?_cons (t : Placed Token) (d : Nat) (ts : List (Placed Token)) :
    depth? d (t :: ts) = (t.value.depth? d).bind fun d => depth? d ts := rfl

theorem depth?_plain (h : t.value.isParenthesis = false) (d : Nat) (ts : List (Placed Token)) :
    depth? d (t :: ts) = depth? d ts := by
  rw [depth?_cons, Token.depth?_plain h, Option.bind_some]

theorem depth?_append (ts : List (Placed Token)) (d : Nat) :
    depth? d (ts ++ us) = (depth? d ts).bind fun d => depth? d us := List.foldlM_append

/-- More open parentheses stay open. -/
theorem depth?_add (more : Nat) : ∀ {ts : List (Placed Token)} {d : Nat}, depth? d ts = some d' →
    depth? (d + more) ts = some (d' + more)
  | [], _, h => by
    obtain rfl := Option.some.inj h
    rfl
  | t :: ts, d, h => by
    obtain ⟨next, ht, hts⟩ := Option.bind_eq_some_iff.1 h
    rw [depth?_cons, Token.depth?_add more ht, Option.bind_some, depth?_add more hts]

theorem depth?_opens : ∀ {opens : List (Placed Token)} (d : Nat), (∀ t ∈ opens, t.value = .openParen) →
    depth? d opens = some (d + opens.length)
  | [], _, _ => rfl
  | t :: opens, d, h => by
    obtain ⟨ht, hopens⟩ := List.forall_mem_cons.1 h
    rw [depth?_cons, ht, Token.depth?, Option.bind_some, depth?_opens (d + 1) hopens, List.length_cons,
      Nat.add_right_comm, Nat.add_assoc]

theorem balanced_move (f : Nat → Nat) : Balanced (ts.map (·.move f)) ↔ Balanced ts := by
  rw [Balanced, depth?, List.foldlM_map]
  rfl

/-- If opening parentheses are missing in front, what is left closes too many. -/
theorem eq_nil_of_opens {opens : List (Placed Token)} (hopens : ∀ t ∈ opens, t.value = .openParen)
    (h : Balanced (opens ++ ts)) (hrest : depth? 0 ts = some d) : opens = [] := by
  have hmore := depth?_add opens.length hrest
  rw [Balanced, depth?_append, depth?_opens 0 hopens, Option.bind_some, hmore] at h
  exact List.length_eq_zero_iff.1 (Nat.add_eq_zero_iff.1 (Option.some.inj h)).2

/-- If closing parentheses are missing behind, what is left does not close all. -/
theorem eq_nil_of_closes {closes : List (Placed Token)} (hcloses : ∀ t ∈ closes, t.value = .closeParen)
    (h : Balanced (ts ++ closes)) (hrest : Balanced ts) : closes = [] := by
  rw [Balanced, depth?_append, hrest, Option.bind_some] at h
  cases closes with
  | nil => rfl
  | cons t closes =>
    rw [depth?_cons, hcloses t List.mem_cons_self] at h
    cases h

end

namespace Grammar

/-! ## Phrases are balanced -/

theorem SumOperator.plain (op : SumOperator) : op.token.isParenthesis = false := by cases op <;> rfl

theorem ProductOperator.plain (op : ProductOperator) : op.token.isParenthesis = false := by cases op <;> rfl

theorem signToken_plain (s : Sign) : (signToken s).isParenthesis = false := by cases s <;> rfl

mutual

theorem Sum.depth_yield : ∀ (s : Sum) (d : Nat), depth? d s.yield = some d
  | .product p, d => Product.depth_yield p d
  | .more before op _ p, d => by
    rw [Sum.yield, depth?_append, Sum.depth_yield before, Option.bind_some, depth?_plain op.plain,
      Product.depth_yield p]

theorem Product.depth_yield : ∀ (p : Product) (d : Nat), depth? d p.yield = some d
  | .signed u, d => Signed.depth_yield u d
  | .more before op _ u, d => by
    rw [Product.yield, depth?_append, Product.depth_yield before, Option.bind_some, depth?_plain op.plain,
      Signed.depth_yield u]

theorem Signed.depth_yield : ∀ (u : Signed) (d : Nat), depth? d u.yield = some d
  | .power p, d => Power.depth_yield p d
  | .sign s _ u, d => by rw [Signed.yield, depth?_plain (signToken_plain s), Signed.depth_yield u]

theorem Power.depth_yield : ∀ (p : Power) (d : Nat), depth? d p.yield = some d
  | .atom a, d => Atom.depth_yield a d
  | .raised base _ exponent, d => by
    rw [Power.yield, depth?_append, Atom.depth_yield base, Option.bind_some, depth?_plain rfl,
      Signed.depth_yield exponent]

theorem Atom.depth_yield : ∀ (a : Atom) (d : Nat), depth? d a.yield = some d
  | .number _ _, _ => rfl
  | .name _ _, _ => rfl
  | .bareCall _ _ _ _, _ => rfl
  | .call _ _ _ args _, d => by
    rw [Atom.yield, depth?_plain rfl, depth?_cons, Token.depth?, Option.bind_some, depth?_append,
      Arguments.depth_yield args]
    rfl
  | .group _ inner _, d => by
    rw [Atom.yield, depth?_cons, Token.depth?, Option.bind_some, depth?_append, Sum.depth_yield inner]
    rfl

theorem Arguments.depth_yield : ∀ (args : Arguments) (d : Nat), depth? d args.yield = some d
  | .first s, d => Sum.depth_yield s d
  | .more before _ s, d => by
    rw [Arguments.yield, depth?_append, Arguments.depth_yield before, Option.bind_some, depth?_plain rfl,
      Sum.depth_yield s]

end

theorem depth_newlines (places : List Span) (d : Nat) : depth? d (newlineTokens places) = some d := by
  induction places with
  | nil => rfl
  | cons place places ih => exact (depth?_plain rfl d (newlineTokens places)).trans ih

theorem Line.depth_yield (line : Line) (d : Nat) : depth? d line.yield = some d := by
  cases line with
  | declared target place colon unit =>
    rw [yield, depth?_plain rfl, depth?_plain rfl, unit.depth_yield]
  | defined target place equals rhs colon unit =>
    rw [yield, depth?_plain rfl, depth?_plain rfl, depth?_append, rhs.depth_yield, Option.bind_some, depth?_plain rfl,
      unit.depth_yield]

theorem Lines.depth_yield : ∀ (ls : Lines) (d : Nat), depth? d ls.yield = some d
  | .first line, d => line.depth_yield d
  | .more before newline newlines line, d => by
    rw [Lines.yield, depth?_append, depth?_append, Lines.depth_yield before, Option.bind_some, depth_newlines,
      Option.bind_some, line.depth_yield]

/-- **Sentences are balanced.** -/
theorem Sentence.balanced (d : Sentence) : Balanced d.yield := by
  cases d with
  | blank newlines => exact depth_newlines newlines 0
  | lines leading body trailing =>
    rw [Balanced, yield, depth?_append, depth?_append, depth_newlines, Option.bind_some, body.depth_yield,
      Option.bind_some, depth_newlines]

end Grammar

/-- What is read alone is balanced. -/
theorem balanced_of_readExpression {text : String} {e : Expr} (h : readExpression text = some e) :
    Balanced (Token.scan text).tokens := by
  obtain ⟨d, hd⟩ := sentence_of_readExpression h
  have hbalanced := d.balanced
  rwa [hd, Balanced, depth?_plain rfl, depth?_plain rfl] at hbalanced

/-! ## The tokens of a node -/

/-- Tokens that begin at a byte, but for parentheses opened before. -/
def BeginsAt (start : Nat) (ts : List (Placed Token)) : Prop :=
  ∃ opens first rest, ts = opens ++ first :: rest ∧ (∀ t ∈ opens, t.value = .openParen) ∧ first.span.start = start

/-- Tokens that end at a byte, but for parentheses closed behind. -/
def EndsAt (stop : Nat) (ts : List (Placed Token)) : Prop :=
  ∃ front last closes, ts = front ++ last :: closes ∧ (∀ t ∈ closes, t.value = .closeParen) ∧ last.span.stop = stop

/-- Nodes whose spans hold the parentheses of their operands. -/
def Expr.isClosed : Expr → Bool
  | number _ _ => true
  | name _ _ => true
  | signed _ _ _ => false
  | binary op _ _ _ => op = .pow
  | call _ _ _ => true

/-- **The tokens of a node**: they reach from its start to its end, and are a phrase of their own if they are
balanced. -/
structure Expr.Holds (e : Expr) (ts : List (Placed Token)) : Prop where
  starts : ∃ first, ts.head? = some first ∧ first.span.start = e.span.start
  stops : ∃ last, ts.getLast? = some last ∧ last.span.stop = e.span.stop
  phrase : Balanced ts → ∃ s : Grammar.Sum, s.yield = ts ∧ s.tree = e
  closed : e.isClosed → Balanced ts

/-- A node has its tokens among some. -/
def Expr.Held (e : Expr) (ts : List (Placed Token)) : Prop := ∃ mid, mid <:+: ts ∧ e.Holds mid

theorem Expr.Held.mono {e : Expr} {ts us : List (Placed Token)} (h : e.Held ts) (hsub : ts <:+: us) : e.Held us := by
  obtain ⟨mid, hmid, hholds⟩ := h
  exact ⟨mid, hmid.trans hsub, hholds⟩

theorem BeginsAt.append {start : Nat} {xs : List (Placed Token)} (h : BeginsAt start xs) (ys : List (Placed Token)) :
    BeginsAt start (xs ++ ys) := by
  obtain ⟨opens, first, rest, rfl, hopens, hstart⟩ := h
  exact ⟨opens, first, rest ++ ys, by simp, hopens, hstart⟩

theorem EndsAt.append {stop : Nat} {ys : List (Placed Token)} (h : EndsAt stop ys) (xs : List (Placed Token)) :
    EndsAt stop (xs ++ ys) := by
  obtain ⟨front, last, closes, rfl, hcloses, hstop⟩ := h
  exact ⟨xs ++ front, last, closes, by simp, hcloses, hstop⟩

namespace Grammar

theorem first_raised (base : Atom) (place : Span) (exponent : Signed) :
    ∃ t ts, (Power.raised base place exponent).yield = t :: ts ∧ t.span.start = base.start := by
  obtain ⟨t, ts, hyield, hstart⟩ := base.first_yield
  exact ⟨t, ts ++ ⟨.power, place⟩ :: exponent.yield, by rw [Power.yield, hyield]; rfl, hstart⟩

mutual

theorem Sum.beginsAt : ∀ s : Sum, BeginsAt s.tree.span.start s.yield
  | .product p => Product.beginsAt p
  | .more before _ _ _ => (Sum.beginsAt before).append _

theorem Product.beginsAt : ∀ p : Product, BeginsAt p.tree.span.start p.yield
  | .signed u => Signed.beginsAt u
  | .more before _ _ _ => (Product.beginsAt before).append _

theorem Signed.beginsAt : ∀ u : Signed, BeginsAt u.tree.span.start u.yield
  | .power p => Power.beginsAt p
  | .sign _ _ _ => ⟨[], _, _, rfl, nofun, rfl⟩

theorem Power.beginsAt : ∀ p : Power, BeginsAt p.tree.span.start p.yield
  | .atom a => Atom.beginsAt a
  | .raised base place exponent => by
    obtain ⟨t, ts, hyield, hstart⟩ := first_raised base place exponent
    exact ⟨[], t, ts, hyield, nofun, hstart⟩

theorem Atom.beginsAt : ∀ a : Atom, BeginsAt a.tree.span.start a.yield
  | .number _ _ => ⟨[], _, _, rfl, nofun, rfl⟩
  | .name _ _ => ⟨[], _, _, rfl, nofun, rfl⟩
  | .bareCall _ _ _ _ => ⟨[], _, _, rfl, nofun, rfl⟩
  | .call _ _ _ _ _ => ⟨[], _, _, rfl, nofun, rfl⟩
  | .group opening inner closing => by
    obtain ⟨opens, first, rest, hyield, hopens, hstart⟩ := (Sum.beginsAt inner).append [⟨.closeParen, closing⟩]
    refine ⟨⟨.openParen, opening⟩ :: opens, first, rest, by rw [Atom.yield, hyield]; rfl, ?_, hstart⟩
    exact List.forall_mem_cons.2 ⟨rfl, hopens⟩

end

mutual

theorem Sum.endsAt : ∀ s : Sum, EndsAt s.tree.span.stop s.yield
  | .product p => Product.endsAt p
  | .more _ _ _ p => ((Product.endsAt p).append [_]).append _

theorem Product.endsAt : ∀ p : Product, EndsAt p.tree.span.stop p.yield
  | .signed u => Signed.endsAt u
  | .more _ _ _ u => ((Signed.endsAt u).append [_]).append _

theorem Signed.endsAt : ∀ u : Signed, EndsAt u.tree.span.stop u.yield
  | .power p => Power.endsAt p
  | .sign _ _ u => (Signed.endsAt u).append [_]

theorem Power.endsAt : ∀ p : Power, EndsAt p.tree.span.stop p.yield
  | .atom a => Atom.endsAt a
  | .raised base place exponent => by
    obtain ⟨ts, t, hyield, hstop⟩ := (Power.raised base place exponent).last_yield
    exact ⟨ts, t, [], hyield, nofun, hstop⟩

theorem Atom.endsAt : ∀ a : Atom, EndsAt a.tree.span.stop a.yield
  | .number _ _ => ⟨[], _, _, rfl, nofun, rfl⟩
  | .name _ _ => ⟨[], _, _, rfl, nofun, rfl⟩
  | .bareCall _ _ _ _ => ⟨[_, _], _, _, rfl, nofun, rfl⟩
  | .call _ _ _ args _ => ⟨_ :: _ :: args.yield, _, [], rfl, nofun, rfl⟩
  | .group opening inner closing => by
    obtain ⟨front, last, closes, hyield, hcloses, hstop⟩ := Sum.endsAt inner
    refine ⟨⟨.openParen, opening⟩ :: front, last, closes ++ [⟨.closeParen, closing⟩], ?_, ?_, hstop⟩
    · rw [Atom.yield, hyield]
      simp
    · intro t ht
      rcases List.mem_append.1 ht with ht | ht
      · exact hcloses t ht
      · rw [List.mem_singleton.1 ht]

end

/-! ## The tokens of every node -/

variable {e l r : Expr} {t : Placed Token} {xs ys : List (Placed Token)}

/-- A power or an atom that reaches as far as its tokens holds all of them. -/
theorem held_power {p : Power} (hfirst : ∃ t ts, p.yield = t :: ts ∧ t.span.start = p.tree.span.start)
    (hlast : ∃ ts t, p.yield = ts ++ [t] ∧ t.span.stop = p.tree.span.stop) : p.tree.Held p.yield := by
  obtain ⟨first, rest, hyield, hstart⟩ := hfirst
  obtain ⟨front, last, hyield', hstop⟩ := hlast
  refine ⟨p.yield, List.infix_rfl, ⟨first, by rw [hyield]; rfl, hstart⟩, ⟨last, ?_, hstop⟩,
    fun _ => ⟨.product (.signed (.power p)), rfl, rfl⟩, fun _ => p.depth_yield 0⟩
  rw [hyield', List.getLast?_concat]

/-- An operation leaves out the parentheses opened before its first operand and closed behind its second; if there are
any, the rest is not balanced. -/
theorem held_joined {op : Operator} (hop : op ≠ .pow) (ht : t.value.isParenthesis = false)
    (hl : BeginsAt l.span.start xs) (hr : EndsAt r.span.stop ys) (hxs : Balanced xs) (hys : Balanced ys)
    (hphrase : ∃ s : Sum, s.yield = xs ++ t :: ys ∧ s.tree = joined op l r) : (joined op l r).Held (xs ++ t :: ys) := by
  obtain ⟨opens, first, rest, rfl, hopens, hstart⟩ := hl
  obtain ⟨front, last, closes, rfl, hcloses, hstop⟩ := hr
  refine ⟨first :: rest ++ t :: (front ++ [last]), ⟨opens, closes, by simp⟩, ⟨first, rfl, hstart⟩, ⟨last, ?_, hstop⟩,
    fun hbalanced => ?_, fun hclosed => absurd (of_decide_eq_true hclosed) hop⟩
  · rw [← List.cons_append, ← List.append_assoc, List.getLast?_concat]
  · rw [Balanced, depth?_append] at hbalanced
    obtain ⟨d, hd, hrest⟩ := Option.bind_eq_some_iff.1 hbalanced
    obtain rfl := eq_nil_of_opens hopens hxs hd
    obtain rfl : 0 = d := Option.some.inj (hxs.symm.trans hd)
    rw [depth?_plain ht] at hrest
    rw [← List.singleton_append, ← List.append_assoc] at hys
    obtain rfl := eq_nil_of_closes hcloses hys hrest
    exact hphrase

/-- A sign leaves out the parentheses closed behind its operand. -/
theorem held_sign (s : Sign) (place : Span) (u : Signed) :
    (Signed.sign s place u).tree.Held (Signed.sign s place u).yield := by
  obtain ⟨front, last, closes, hyield, hcloses, hstop⟩ := u.endsAt
  have hbalanced : Balanced (front ++ last :: closes) := hyield ▸ u.depth_yield 0
  refine ⟨⟨signToken s, place⟩ :: (front ++ [last]), ⟨[], closes, by rw [Signed.yield, hyield]; simp⟩,
    ⟨_, rfl, rfl⟩, ⟨last, ?_, hstop⟩, fun hts => ?_, nofun⟩
  · rw [← List.cons_append, List.getLast?_concat]
  · rw [Balanced, depth?_plain (signToken_plain s)] at hts
    rw [← List.singleton_append, ← List.append_assoc] at hbalanced
    obtain rfl := eq_nil_of_closes hcloses hbalanced hts
    exact ⟨.product (.signed (.sign s place u)), by rw [Sum.yield, Product.yield, Signed.yield, hyield], rfl⟩

theorem held_binary {op : Operator} {place : Span} (h : (Expr.binary op l r place).Held (xs ++ t :: ys))
    (hl : ∀ e ∈ l.parts, e.Held xs) (hr : ∀ e ∈ r.parts, e.Held ys) :
    ∀ e ∈ (Expr.binary op l r place).parts, e.Held (xs ++ t :: ys) := by
  intro e he
  rw [Expr.parts, List.mem_cons, List.mem_append] at he
  rcases he with rfl | he | he
  · exact h
  · exact (hl e he).mono (List.prefix_append _ _).isInfix
  · exact (hr e he).mono ((List.suffix_cons _ _).trans (List.suffix_append _ _)).isInfix

mutual

/-- **Every node of a phrase has its tokens** among those of the phrase. -/
theorem Sum.held : ∀ s : Sum, ∀ e ∈ s.tree.parts, e.Held s.yield
  | .product p => Product.held p
  | .more before op place p => by
    have hop : op.operator ≠ .pow := by cases op <;> nofun
    exact held_binary (held_joined hop op.plain before.beginsAt p.endsAt (before.depth_yield 0) (p.depth_yield 0)
      ⟨.more before op place p, rfl, rfl⟩) (Sum.held before) (Product.held p)

theorem Product.held : ∀ p : Product, ∀ e ∈ p.tree.parts, e.Held p.yield
  | .signed u => Signed.held u
  | .more before op place u => by
    have hop : op.operator ≠ .pow := by cases op <;> nofun
    exact held_binary (held_joined hop op.plain before.beginsAt u.endsAt (before.depth_yield 0) (u.depth_yield 0)
      ⟨.product (.more before op place u), rfl, rfl⟩) (Product.held before) (Signed.held u)

theorem Signed.held : ∀ u : Signed, ∀ e ∈ u.tree.parts, e.Held u.yield
  | .power p => Power.held p
  | .sign s place u => by
    intro e he
    rw [Signed.tree, Expr.parts, List.mem_cons] at he
    rcases he with rfl | he
    · exact held_sign s place u
    · exact (Signed.held u e he).mono (List.suffix_cons _ _).isInfix

theorem Power.held : ∀ p : Power, ∀ e ∈ p.tree.parts, e.Held p.yield
  | .atom a => Atom.held a
  | .raised base place exponent =>
    held_binary (held_power (p := .raised base place exponent) (first_raised base place exponent)
      (Power.raised base place exponent).last_yield) (Atom.held base) (Signed.held exponent)

theorem Atom.held : ∀ a : Atom, ∀ e ∈ a.tree.parts, e.Held a.yield
  | .number v place => by
    intro e he
    obtain rfl := List.mem_singleton.1 he
    exact held_power (p := .atom (.number v place)) ⟨_, _, rfl, rfl⟩ ⟨[], _, rfl, rfl⟩
  | .name n place => by
    intro e he
    obtain rfl := List.mem_singleton.1 he
    exact held_power (p := .atom (.name n place)) ⟨_, _, rfl, rfl⟩ ⟨[], _, rfl, rfl⟩
  | .bareCall n place opening closing => by
    intro e he
    obtain rfl := List.mem_singleton.1 he
    exact held_power (p := .atom (.bareCall n place opening closing)) ⟨_, _, rfl, rfl⟩ ⟨[_, _], _, rfl, rfl⟩
  | .call n place opening args closing => by
    intro e he
    rw [Atom.tree, Expr.parts, List.mem_cons] at he
    rcases he with rfl | he
    · exact held_power (p := .atom (.call n place opening args closing)) ⟨_, _, rfl, rfl⟩
        ⟨_ :: _ :: args.yield, _, rfl, rfl⟩
    · exact (Arguments.held args e he).mono ((List.prefix_append _ _).isInfix.trans
        ((List.suffix_cons _ _).trans (List.suffix_cons _ _)).isInfix)
  | .group opening inner closing => by
    intro e he
    exact (Sum.held inner e he).mono ((List.prefix_append _ _).isInfix.trans (List.suffix_cons _ _).isInfix)

theorem Arguments.held : ∀ args : Arguments, ∀ e ∈ Expr.partsAll args.trees, e.Held args.yield
  | .first s => by
    intro e he
    obtain ⟨a, ha, he⟩ := Expr.mem_partsAll.1 he
    obtain rfl := List.mem_singleton.1 ha
    exact Sum.held s e he
  | .more before comma s => by
    intro e he
    obtain ⟨a, ha, he⟩ := Expr.mem_partsAll.1 he
    rcases List.mem_append.1 ha with ha | ha
    · exact (Arguments.held before e (Expr.mem_partsAll.2 ⟨a, ha, he⟩)).mono (List.prefix_append _ _).isInfix
    · obtain rfl := List.mem_singleton.1 ha
      exact (Sum.held s e he).mono ((List.suffix_cons _ _).trans (List.suffix_append _ _)).isInfix

end

end Grammar

/-! ## Texts at spans -/

/-- **A node is read again from the text at its span**, as it stands there, exactly when the parentheses in the text are
balanced; otherwise the text is no expression.  Numbers, names, calls and powers are always read again. -/
theorem readExpression_span {source : String} (h : (parse source).issues = []) :
    ∃ set, (parse source).equations = some set ∧ ∀ eq ∈ set.equations, ∀ root ∈ eq.roots, ∀ e ∈ root.parts,
      ∃ w rest, e.span.Cuts source.toList w rest ∧
        (e.isClosed → Balanced (Token.scan (String.ofList w)).tokens) ∧
        readExpression (String.ofList w) = if Balanced (Token.scan (String.ofList w)).tokens
          then some (e.move (· - e.span.start)) else none := by
  obtain ⟨hstrays, d, hyield⟩ := sentence_of_issues h
  refine ⟨_, by rw [parse_of_yield hstrays hyield], fun eq heq root hroot e he => ?_⟩
  obtain ⟨line, hline, rfl⟩ := Grammar.Sentence.line_of_tree heq
  obtain ⟨s, hs, rfl⟩ := Grammar.Line.sum_of_root hroot
  obtain ⟨ts, hts, hholds⟩ := s.held e he
  obtain ⟨first, hfirst, hstart⟩ := hholds.starts
  obtain ⟨last, hlast, hstop⟩ := hholds.stops
  obtain ⟨before, after, htokens⟩ := (hts.trans hs).trans hline
  have hscan : Token.scan source = ⟨before ++ ts ++ after, []⟩ := by
    rw [htokens, hyield, ← hstrays]
  obtain ⟨w, rest, hcuts, halone⟩ := Token.scan_excerpt hscan hfirst hlast
  rw [hstart, hstop] at hcuts
  rw [hstart] at halone
  have hbalanced : Balanced (Token.scan (String.ofList w)).tokens ↔ Balanced ts := by
    rw [halone]
    exact balanced_move _
  refine ⟨w, rest, hcuts, fun hclosed => hbalanced.2 (hholds.closed hclosed), ?_⟩
  split
  · rename_i hts
    obtain ⟨s', rfl, rfl⟩ := hholds.phrase (hbalanced.1 hts)
    rw [← Grammar.Sum.yield_move] at halone
    rw [readExpression_yield halone, Grammar.Sum.tree_move]
  · rename_i hts
    cases hread : readExpression (String.ofList w) with
    | none => rfl
    | some e' => exact absurd (balanced_of_readExpression hread) hts

/-- `(a) ** (-b)`, after `y = ` -/
def raisedGroups : Expr :=
  .binary .pow (.name "a" ⟨5, 6⟩) (.signed .neg (.name "b" ⟨13, 14⟩) ⟨12, 14⟩) ⟨4, 15⟩

/-- A power holds the parentheses of its operands. -/
theorem readExpression_raisedGroups : (parse "y = (a) ** (-b) : volt").issues = [] ∧
    ∃ w rest, raisedGroups.span.Cuts "y = (a) ** (-b) : volt".toList w rest ∧
      readExpression (String.ofList w) = some (.binary .pow (.name "a" ⟨1, 2⟩)
        (.signed .neg (.name "b" ⟨9, 10⟩) ⟨8, 10⟩) ⟨0, 11⟩) := by
  have hparse : parse "y = (a) ** (-b) : volt" =
      ⟨some ⟨[⟨⟨"y", ⟨0, 1⟩⟩, some raisedGroups, .name "volt" ⟨18, 22⟩, ⟨0, 22⟩⟩], ⟨0, 22⟩⟩, []⟩ := by
    with_unfolding_all rfl
  have hissues : (parse "y = (a) ** (-b) : volt").issues = [] := by rw [hparse]
  obtain ⟨set, hset, hspans⟩ := readExpression_span hissues
  rw [hparse] at hset
  obtain rfl := Option.some.inj hset
  obtain ⟨w, rest, hcuts, hclosed, hread⟩ :=
    hspans _ List.mem_cons_self raisedGroups List.mem_cons_self raisedGroups raisedGroups.mem_parts_self
  rw [if_pos (hclosed rfl)] at hread
  exact ⟨hissues, w, rest, hcuts, hread⟩

/-- `(a + b) * c`, after `y = ` -/
def openedSum : Expr :=
  .binary .mul (.binary .add (.name "a" ⟨5, 6⟩) (.name "b" ⟨9, 10⟩) ⟨5, 10⟩) (.name "c" ⟨14, 15⟩) ⟨5, 15⟩

/-- A product of a sum begins behind the parenthesis that opens the sum, and so it is not read again. -/
theorem readExpression_openedSum : (parse "y = (a + b) * c : 1").issues = [] ∧
    (∃ set eq, (parse "y = (a + b) * c : 1").equations = some set ∧ eq ∈ set.equations ∧ openedSum ∈ eq.roots) ∧
    openedSum.span.Cuts "y = (a + b) * c : 1".toList "a + b) * c".toList " : 1".toList ∧
    readExpression "a + b) * c" = none := by
  have hparse : parse "y = (a + b) * c : 1" =
      ⟨some ⟨[⟨⟨"y", ⟨0, 1⟩⟩, some openedSum, .number 1.0 ⟨18, 19⟩, ⟨0, 19⟩⟩], ⟨0, 19⟩⟩, []⟩ := by
    with_unfolding_all rfl
  refine ⟨by rw [hparse], ⟨_, _, by rw [hparse], List.mem_cons_self, List.mem_cons_self⟩, ?_, ?_⟩
  · exact ⟨"y = (".toList, by decide, by decide⟩
  · with_unfolding_all rfl

end FixedStep
