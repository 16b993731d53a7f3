import FixedStep.Proofs.Grammar.Context
/-!
# Sentence — every sentence is read in one way

A stage never forgets a token (`read_step`), and the tokens of a sentence lead to the sentence itself (`steps_yield`).
As a stage has at most one successor for a token, a row of tokens has at most one derivation (`yield_injective`), and a
row that is read to an end is a sentence (`yield_of_finish`).
-/
namespace FixedStep
namespace Grammar

/-! ## No token is forgotten -/

theorem read_begin {c : LineContext} {l : PartContext} {k : SignedContext} {t : Placed Token} {next : Stage}
    (h : Stage.begin c l k t = some next) : next.read = c.read ++ l.read ++ k.read ++ [t] := by
  obtain ⟨token, place⟩ := t
  unfold Stage.begin at h
  split at h
  case h_1 heq | h_2 heq =>
    obtain rfl := Option.some.inj h
    simp only at heq
    simp only [Stage.read, Atom.yield, heq]
  case h_3 heq | h_4 heq | h_5 heq =>
    obtain rfl := Option.some.inj h
    simp only at heq
    simp only [Stage.read, read_inward, SignedContext.read, SumContext.read, signToken, heq, List.append_assoc]
  case h_6 heq =>
    obtain rfl := Option.some.inj h
    simp only at heq
    simp only [Stage.read, SignedContext.read, ProductContext.read, SumContext.read, Atom.yield, heq, List.append_assoc,
      List.cons_append, List.nil_append]
  case h_7 => cases h

theorem read_close {c : LineContext} {l : PartContext} {o : SumContext} {s : Sum} {t : Placed Token} {next : Stage}
    (h : Stage.close c l o s t = some next) : next.read = c.read ++ l.read ++ (o.read ++ s.yield) ++ [t] := by
  obtain ⟨token, place⟩ := t
  unfold Stage.close at h
  split at h
  case h_1 heq | h_2 heq | h_3 heq | h_4 heq | h_5 heq =>
    obtain rfl := Option.some.inj h
    simp only at heq
    simp only [Stage.read, read_inward, SumContext.read, Atom.yield, Arguments.yield, heq, List.append_assoc,
      List.cons_append, List.nil_append]
  case h_6 heq =>
    simp only at heq
    split at h
    · obtain rfl := Option.some.inj h
      simp only [Stage.read, read_inward, SumContext.read, PartContext.read, heq, List.append_assoc, List.cons_append,
        List.nil_append, List.append_nil]
    · cases h
  case h_7 heq =>
    simp only at heq
    obtain ⟨line, hline, rfl⟩ := Option.map_eq_some_iff.1 h
    have hnext : (Stage.atLineStart (.after c.leading (c.body line) place [])).read =
        newlineTokens c.leading ++ (c.body line).yield ++ [⟨.newline, place⟩] := rfl
    rw [hnext, read_body, read_line hline, heq]
    simp only [SumContext.read, List.nil_append, List.append_assoc]
  case h_8 => cases h

theorem read_continue {c : LineContext} {l : PartContext} {k : SignedContext} {a : Atom} {t : Placed Token} {next : Stage}
    (h : Stage.continue? c l k a t = some next) : next.read = c.read ++ l.read ++ (k.read ++ a.yield) ++ [t] := by
  obtain ⟨token, place⟩ := t
  unfold Stage.continue? at h
  split at h
  case h_1 heq =>
    obtain rfl := Option.some.inj h
    simp only at heq
    simp only [Stage.read, read_inward, SumContext.read, Atom.yield, heq, List.append_assoc, List.cons_append,
      List.nil_append]
  case h_2 heq =>
    obtain rfl := Option.some.inj h
    simp only at heq
    simp only [Stage.read, SignedContext.read, heq, List.append_assoc]
  case h_3 heq | h_4 heq =>
    obtain rfl := Option.some.inj h
    simp only at heq
    simp only [Stage.read, SignedContext.read, read_productOf, ProductOperator.token, heq, List.append_assoc]
  case h_5 heq | h_6 heq =>
    obtain rfl := Option.some.inj h
    simp only at heq
    simp only [Stage.read, SignedContext.read, ProductContext.read, read_sumOf, SumOperator.token, heq, List.append_assoc]
  case h_7 => rw [read_close h, read_sumOf]

/-- **A stage holds the tokens that led to it.** -/
theorem read_step {g next : Stage} {t : Placed Token} (h : g.step t = some next) : next.read = g.read ++ [t] := by
  obtain ⟨token, place⟩ := t
  unfold Stage.step at h
  split at h
  case h_1 heq | h_2 heq =>
    obtain rfl := Option.some.inj h
    simp only at heq
    simp only [Stage.read, LineContext.read, newlineTokens, List.map_cons, List.map_append, List.map_nil, heq,
      List.append_assoc, List.cons_append]
  case h_3 heq =>
    obtain rfl := Option.some.inj h
    simp only at heq
    simp only [Stage.read, heq]
  case h_4 heq | h_5 heq =>
    obtain rfl := Option.some.inj h
    simp only at heq
    simp only [Stage.read, read_inward, SumContext.read, PartContext.read, heq, List.append_assoc, List.cons_append,
      List.nil_append, List.append_nil]
  case h_6 => rw [read_begin h, Stage.read]
  case h_7 =>
    rw [read_continue h]
    simp only [Stage.read, List.append_assoc]
  case h_8 => cases h

theorem read_steps : ∀ {ts : List (Placed Token)} {g next : Stage}, g.steps ts = some next → next.read = g.read ++ ts
  | [], g, next, h => by
    obtain rfl := Option.some.inj h
    rw [List.append_nil]
  | t :: ts, g, next, h => by
    obtain ⟨mid, hmid, hnext⟩ := Option.bind_eq_some_iff.1 h
    rw [read_steps hnext, read_step hmid, List.append_assoc, List.singleton_append]

theorem yield_of_finish {g : Stage} {d : Sentence} (h : g.finish = some d) : d.yield = g.read := by
  unfold Stage.finish at h
  split at h
  · obtain rfl := Option.some.inj h
    rfl
  · obtain rfl := Option.some.inj h
    rfl
  · rename_i c l k a
    split at h
    · rename_i s hs
      obtain ⟨line, hline, rfl⟩ := Option.map_eq_some_iff.1 h
      have hread := read_sumOf k a
      rw [hs] at hread
      rw [Sentence.yield, read_body, read_line hline, Stage.read, List.append_assoc _ k.read, ← hread]
      simp only [SumContext.read, newlineTokens, List.map_nil, List.append_nil, List.nil_append, List.append_assoc]
    · cases h
  · cases h

/-! ## A sentence leads to itself -/

/-- The hole that a row of arguments ends in, and its last argument. -/
def argumentHole (outer : SignedContext) (n : String) (place opening : Span) : Arguments → SumContext × Sum
  | .first s => (.firstArgument outer n place opening, s)
  | .more before comma s => (.nextArgument outer n place opening before comma, s)

theorem close_arguments (c : LineContext) (l : PartContext) (outer : SignedContext) (n : String) (place opening : Span)
    (args : Arguments) (closing : Span) :
    Stage.close c l (argumentHole outer n place opening args).1 (argumentHole outer n place opening args).2
      ⟨.closeParen, closing⟩ = some (.afterOperand c l outer (.call n place opening args closing)) := by
  cases args <;> rfl

theorem close_comma (c : LineContext) (l : PartContext) (outer : SignedContext) (n : String) (place opening : Span)
    (args : Arguments) (comma : Span) :
    Stage.close c l (argumentHole outer n place opening args).1 (argumentHole outer n place opening args).2
      ⟨.comma, comma⟩ = some (.beforeOperand c l (SumContext.nextArgument outer n place opening args comma).inward) := by
  cases args <;> rfl

mutual

theorem steps_sum (c : LineContext) (l : PartContext) : ∀ (s : Sum) (o : SumContext),
    ∃ k a, (Stage.beforeOperand c l o.inward).steps s.yield = some (.afterOperand c l k a) ∧ sumOf k a = (o, s)
  | .product p, o => by
    obtain ⟨k, a, hsteps, hclose⟩ := steps_product c l p (.first o)
    exact ⟨k, a, hsteps, by rw [sumOf, hclose, closeProduct]⟩
  | .more before op place p, o => by
    obtain ⟨k, a, hsteps, hclose⟩ := steps_sum c l before o
    obtain ⟨k', a', hsteps', hclose'⟩ := steps_product c l p (.more o before op place)
    refine ⟨k', a', ?_, by rw [sumOf, hclose', closeProduct]⟩
    have hop : (Stage.afterOperand c l k a).step ⟨op.token, place⟩ =
        some (.beforeOperand c l (.first (.more o before op place))) := by
      cases op <;> simp only [Stage.step, Stage.continue?, SumOperator.token, hclose]
    rw [Sum.yield, Stage.steps_append, hsteps, Option.bind_some, Stage.steps, hop, Option.bind_some, hsteps']

theorem steps_product (c : LineContext) (l : PartContext) : ∀ (p : Product) (o : ProductContext),
    ∃ k a, (Stage.beforeOperand c l (.first o)).steps p.yield = some (.afterOperand c l k a) ∧ productOf k a = (o, p)
  | .signed u, o => by
    obtain ⟨k, a, hsteps, hclose⟩ := steps_signed c l u (.first o)
    exact ⟨k, a, hsteps, by rw [hclose, closeSigned]⟩
  | .more before op place u, o => by
    obtain ⟨k, a, hsteps, hclose⟩ := steps_product c l before o
    obtain ⟨k', a', hsteps', hclose'⟩ := steps_signed c l u (.more o before op place)
    refine ⟨k', a', ?_, by rw [hclose', closeSigned]⟩
    have hop : (Stage.afterOperand c l k a).step ⟨op.token, place⟩ =
        some (.beforeOperand c l (.more o before op place)) := by
      cases op <;> simp only [Stage.step, Stage.continue?, ProductOperator.token, hclose]
    rw [Product.yield, Stage.steps_append, hsteps, Option.bind_some, Stage.steps, hop, Option.bind_some, hsteps']

theorem steps_signed (c : LineContext) (l : PartContext) : ∀ (u : Signed) (k : SignedContext),
    ∃ k' a, (Stage.beforeOperand c l k).steps u.yield = some (.afterOperand c l k' a) ∧ productOf k' a = closeSigned k u
  | .power p, k => steps_power c l p k
  | .sign s place u, k => by
    obtain ⟨k', a, hsteps, hclose⟩ := steps_signed c l u (.sign k s place)
    refine ⟨k', a, ?_, by rw [hclose, closeSigned]⟩
    have hsign : (Stage.beforeOperand c l k).step ⟨signToken s, place⟩ = some (.beforeOperand c l (.sign k s place)) := by
      cases s <;> rfl
    rw [Signed.yield, Stage.steps, hsign, Option.bind_some, hsteps]

theorem steps_power (c : LineContext) (l : PartContext) : ∀ (p : Power) (k : SignedContext),
    ∃ k' a, (Stage.beforeOperand c l k).steps p.yield = some (.afterOperand c l k' a) ∧
      productOf k' a = closeSigned k (.power p)
  | .atom a, k => ⟨k, a, steps_atom c l a k, rfl⟩
  | .raised base place exponent, k => by
    obtain ⟨k', a, hsteps, hclose⟩ := steps_signed c l exponent (.exponent k base place)
    refine ⟨k', a, ?_, by rw [hclose, closeSigned]⟩
    rw [Power.yield, Stage.steps_append, steps_atom c l base k, Option.bind_some, Stage.steps]
    exact hsteps

theorem steps_atom (c : LineContext) (l : PartContext) : ∀ (a : Atom) (k : SignedContext),
    (Stage.beforeOperand c l k).steps a.yield = some (.afterOperand c l k a)
  | .number v place, k => rfl
  | .name n place, k => rfl
  | .bareCall n place opening closing, k => rfl
  | .call n place opening args closing, k => by
    obtain ⟨k', a, hsteps, hclose⟩ := steps_arguments c l args k n place opening
    have hlast : (Stage.afterOperand c l k' a).step ⟨.closeParen, closing⟩ =
        Stage.close c l (sumOf k' a).1 (sumOf k' a).2 ⟨.closeParen, closing⟩ := rfl
    have hopen : (Stage.beforeOperand c l k).steps
          (⟨.name n, place⟩ :: ⟨.openParen, opening⟩ :: (args.yield ++ [⟨.closeParen, closing⟩])) =
        (Stage.beforeOperand c l (SumContext.firstArgument k n place opening).inward).steps
          (args.yield ++ [⟨.closeParen, closing⟩]) := rfl
    rw [Atom.yield, hopen, Stage.steps_append, hsteps, Option.bind_some, Stage.steps, hlast, hclose, close_arguments]
    rfl
  | .group opening inner closing, k => by
    obtain ⟨k', a, hsteps, hclose⟩ := steps_sum c l inner (.group k opening)
    have hlast : (Stage.afterOperand c l k' a).step ⟨.closeParen, closing⟩ =
        Stage.close c l (sumOf k' a).1 (sumOf k' a).2 ⟨.closeParen, closing⟩ := rfl
    have hopen : (Stage.beforeOperand c l k).steps (⟨.openParen, opening⟩ :: (inner.yield ++ [⟨.closeParen, closing⟩])) =
        (Stage.beforeOperand c l (SumContext.group k opening).inward).steps (inner.yield ++ [⟨.closeParen, closing⟩]) :=
      rfl
    rw [Atom.yield, hopen, Stage.steps_append, hsteps, Option.bind_some, Stage.steps, hlast, hclose]
    rfl

theorem steps_arguments (c : LineContext) (l : PartContext) : ∀ (args : Arguments) (outer : SignedContext) (n : String)
    (place opening : Span), ∃ k a,
      (Stage.beforeOperand c l (SumContext.firstArgument outer n place opening).inward).steps args.yield =
        some (.afterOperand c l k a) ∧ sumOf k a = argumentHole outer n place opening args
  | .first s, outer, n, place, opening => steps_sum c l s (.firstArgument outer n place opening)
  | .more before comma s, outer, n, place, opening => by
    obtain ⟨k, a, hsteps, hclose⟩ := steps_arguments c l before outer n place opening
    obtain ⟨k', a', hsteps', hclose'⟩ := steps_sum c l s (.nextArgument outer n place opening before comma)
    refine ⟨k', a', ?_, hclose'⟩
    have hcomma : (Stage.afterOperand c l k a).step ⟨.comma, comma⟩ =
        Stage.close c l (sumOf k a).1 (sumOf k a).2 ⟨.comma, comma⟩ := rfl
    rw [Arguments.yield, Stage.steps_append, hsteps, Option.bind_some, Stage.steps, hcomma, hclose, close_comma,
      Option.bind_some, hsteps']

end

/-- A stage after the last token of a row of equations. -/
def Stage.AtEndOf (leading : List Span) (body : Lines) (g : Stage) : Prop :=
  ∃ c l k a s line, g = .afterOperand c l k a ∧ sumOf k a = (.whole, s) ∧ l.line? s = some line ∧
    c.leading = leading ∧ c.body line = body

theorem steps_line (c : LineContext) (line : Line) :
    ∃ g, (Stage.atLineStart c).steps line.yield = some g ∧ g.AtEndOf c.leading (c.body line) := by
  have hstart : ∀ target place ts, (Stage.atLineStart c).steps (⟨.name target, place⟩ :: ts) =
      (Stage.afterTarget c target place).steps ts := by
    intro target place ts
    cases c <;> rfl
  cases line with
  | declared target place colon unit =>
    obtain ⟨k, a, hsteps, hclose⟩ := steps_sum c (.unit target place colon) unit .whole
    refine ⟨_, ?_, c, .unit target place colon, k, a, unit, _, rfl, hclose, rfl, rfl, rfl⟩
    rw [Line.yield, hstart, Stage.steps]
    exact hsteps
  | defined target place equals rhs colon unit =>
    obtain ⟨k, a, hsteps, hclose⟩ := steps_sum c (.rhs target place equals) rhs .whole
    obtain ⟨k', a', hsteps', hclose'⟩ := steps_sum c (.unitAfter target place equals rhs colon) unit .whole
    refine ⟨_, ?_, c, .unitAfter target place equals rhs colon, k', a', unit, _, rfl, hclose', rfl, rfl, rfl⟩
    have hequals : (Stage.afterTarget c target place).step ⟨.equals, equals⟩ =
        some (.beforeOperand c (.rhs target place equals) SumContext.whole.inward) := rfl
    -- the colon is what ends the right-hand side, since no parenthesis is open
    have hcolon : (Stage.afterOperand c (.rhs target place equals) k a).step ⟨.colon, colon⟩ =
        some (.beforeOperand c (.unitAfter target place equals rhs colon) SumContext.whole.inward) := by
      simp only [Stage.step, Stage.continue?, hclose, Stage.close]
    rw [Line.yield, hstart, Stage.steps, hequals, Option.bind_some, Stage.steps_append, hsteps, Option.bind_some,
      Stage.steps, hcolon, Option.bind_some, hsteps']

theorem step_newline {leading : List Span} {body : Lines} {g : Stage} (h : g.AtEndOf leading body) (place : Span) :
    g.step ⟨.newline, place⟩ = some (.atLineStart (.after leading body place [])) := by
  obtain ⟨c, l, k, a, s, line, rfl, hclose, hline, rfl, rfl⟩ := h
  simp only [Stage.step, Stage.continue?, hclose, Stage.close, hline, Option.map_some]

theorem finish_atEndOf {leading : List Span} {body : Lines} {g : Stage} (h : g.AtEndOf leading body) :
    g.finish = some (.lines leading body []) := by
  obtain ⟨c, l, k, a, s, line, rfl, hclose, hline, rfl, rfl⟩ := h
  simp only [Stage.finish, hclose, hline, Option.map_some]

theorem steps_blank : ∀ (newlines leading : List Span),
    (Stage.atLineStart (.start leading)).steps (newlineTokens newlines) =
      some (.atLineStart (.start (leading ++ newlines)))
  | [], leading => by rw [List.append_nil]; rfl
  | n :: newlines, leading => by
    have hstep : (Stage.atLineStart (.start leading)).steps (newlineTokens (n :: newlines)) =
        (Stage.atLineStart (.start (leading ++ [n]))).steps (newlineTokens newlines) := rfl
    rw [hstep, steps_blank newlines, List.append_assoc, List.singleton_append]

theorem steps_newlines (leading : List Span) (before : Lines) (newline : Span) : ∀ (newlines read : List Span),
    (Stage.atLineStart (.after leading before newline read)).steps (newlineTokens newlines) =
      some (.atLineStart (.after leading before newline (read ++ newlines)))
  | [], read => by rw [List.append_nil]; rfl
  | n :: newlines, read => by
    have hstep : (Stage.atLineStart (.after leading before newline read)).steps (newlineTokens (n :: newlines)) =
        (Stage.atLineStart (.after leading before newline (read ++ [n]))).steps (newlineTokens newlines) := rfl
    rw [hstep, steps_newlines leading before newline newlines, List.append_assoc, List.singleton_append]

theorem steps_separator {leading : List Span} {body : Lines} {g : Stage} (h : g.AtEndOf leading body) (newline : Span)
    (newlines : List Span) :
    g.steps (newlineTokens (newline :: newlines)) = some (.atLineStart (.after leading body newline newlines)) := by
  have hcons : newlineTokens (newline :: newlines) = ⟨.newline, newline⟩ :: newlineTokens newlines := rfl
  rw [hcons, Stage.steps, step_newline h, Option.bind_some, steps_newlines, List.nil_append]

theorem steps_lines (leading : List Span) : ∀ (body : Lines),
    ∃ g, (Stage.atLineStart (.start leading)).steps body.yield = some g ∧ g.AtEndOf leading body
  | .first line => steps_line (.start leading) line
  | .more before newline newlines line => by
    obtain ⟨g, hsteps, hend⟩ := steps_lines leading before
    obtain ⟨g', hsteps', hend'⟩ := steps_line (.after leading before newline newlines) line
    refine ⟨g', ?_, hend'⟩
    rw [Lines.yield, Stage.steps_append, Stage.steps_append, hsteps, Option.bind_some, steps_separator hend,
      Option.bind_some, hsteps']

/-- **The tokens of a sentence lead to the sentence.** -/
theorem steps_yield (d : Sentence) : (Stage.initial.steps d.yield).bind Stage.finish = some d := by
  cases d with
  | blank newlines =>
    rw [Stage.initial, Sentence.yield, steps_blank]
    rfl
  | lines leading body trailing =>
    obtain ⟨g, hsteps, hend⟩ := steps_lines leading body
    rw [Stage.initial, Sentence.yield, Stage.steps_append, Stage.steps_append, steps_blank, List.nil_append,
      Option.bind_some, hsteps, Option.bind_some]
    cases trailing with
    | nil => exact finish_atEndOf hend
    | cons newline newlines =>
      rw [steps_separator hend]
      rfl

/-- **A row of tokens has at most one derivation.** -/
theorem yield_injective {d d' : Sentence} (h : d.yield = d'.yield) : d = d' := by
  have hd := steps_yield d
  rw [h, steps_yield d'] at hd
  exact (Option.some.inj hd).symm

end Grammar
end FixedStep
