import FixedStep.Proofs.Grammar.Reading
/-!
# Prefix — where a row of tokens stops being the beginning of a sentence

Every stage can be completed: open parentheses are closed, and the line gets what it still needs (`finish_completion`).
So a row of tokens leads to a stage exactly when some sentence begins with it (`begins_iff`), and the token that the
reader refuses is the first one at which that ends.  Places play no part in this: a sentence stays one wherever its
tokens stand (`Sentence.replaced`).
-/
namespace FixedStep
namespace Grammar

/-! ## Sentences and their beginnings -/

/-- Words that are a sentence, wherever they stand. -/
def IsSentence (words : List Token) : Prop := ∃ d : Sentence, d.yield.map (·.value) = words

/-- **Words that a sentence begins with.** -/
def Begins (words : List Token) : Prop := ∃ rest, IsSentence (words ++ rest)

/-! ## Tokens in other places -/

section

variable {ts : List (Placed Token)}

/-- A row of tokens that has the words of two rows is two rows. -/
theorem split_words {xs ys : List (Placed Token)} (h : ts.map (·.value) = (xs ++ ys).map (·.value)) :
    ∃ xs' ys', ts = xs' ++ ys' ∧ xs'.map (·.value) = xs.map (·.value) ∧ ys'.map (·.value) = ys.map (·.value) := by
  rw [List.map_append] at h
  exact List.map_eq_append_iff.1 h

/-- One that has the words of a token and a row is a token in some place and a row. -/
theorem split_word {token : Token} {place : Span} {ys : List (Placed Token)}
    (h : ts.map (·.value) = ((⟨token, place⟩ : Placed Token) :: ys).map (·.value)) :
    ∃ place' ys', ts = ⟨token, place'⟩ :: ys' ∧ ys'.map (·.value) = ys.map (·.value) := by
  obtain ⟨⟨token', place'⟩, ys', rfl, htoken, hrest⟩ := List.map_eq_cons_iff.1 h
  obtain rfl : token' = token := htoken
  exact ⟨place', ys', rfl, hrest⟩

theorem split_last {token : Token} {place : Span} {xs : List (Placed Token)}
    (h : ts.map (·.value) = (xs ++ [(⟨token, place⟩ : Placed Token)]).map (·.value)) :
    ∃ xs' place', ts = xs' ++ [⟨token, place'⟩] ∧ xs'.map (·.value) = xs.map (·.value) := by
  obtain ⟨xs', ys', rfl, hxs, hys⟩ := split_words h
  obtain ⟨place', rest, rfl, hrest⟩ := split_word hys
  obtain rfl := List.map_eq_nil_iff.1 hrest
  exact ⟨xs', place', rfl, hxs⟩

mutual

/-- **A phrase stays one wherever its tokens stand.** -/
theorem Sum.replaced : ∀ (s : Sum) {ts : List (Placed Token)}, ts.map (·.value) = s.yield.map (·.value) →
    ∃ s' : Sum, s'.yield = ts
  | .product p, ts, h => by
    obtain ⟨p', rfl⟩ := p.replaced h
    exact ⟨.product p', rfl⟩
  | .more before op _ p, ts, h => by
    obtain ⟨xs, rest, rfl, hxs, hrest⟩ := split_words h
    obtain ⟨place, ys, rfl, hys⟩ := split_word hrest
    obtain ⟨before', rfl⟩ := before.replaced hxs
    obtain ⟨p', rfl⟩ := p.replaced hys
    exact ⟨.more before' op place p', rfl⟩

theorem Product.replaced : ∀ (p : Product) {ts : List (Placed Token)}, ts.map (·.value) = p.yield.map (·.value) →
    ∃ p' : Product, p'.yield = ts
  | .signed u, ts, h => by
    obtain ⟨u', rfl⟩ := u.replaced h
    exact ⟨.signed u', rfl⟩
  | .more before op _ u, ts, h => by
    obtain ⟨xs, rest, rfl, hxs, hrest⟩ := split_words h
    obtain ⟨place, ys, rfl, hys⟩ := split_word hrest
    obtain ⟨before', rfl⟩ := before.replaced hxs
    obtain ⟨u', rfl⟩ := u.replaced hys
    exact ⟨.more before' op place u', rfl⟩

theorem Signed.replaced : ∀ (u : Signed) {ts : List (Placed Token)}, ts.map (·.value) = u.yield.map (·.value) →
    ∃ u' : Signed, u'.yield = ts
  | .power p, ts, h => by
    obtain ⟨p', rfl⟩ := p.replaced h
    exact ⟨.power p', rfl⟩
  | .sign s _ u, ts, h => by
    obtain ⟨place, ys, rfl, hys⟩ := split_word h
    obtain ⟨u', rfl⟩ := u.replaced hys
    exact ⟨.sign s place u', rfl⟩

theorem Power.replaced : ∀ (p : Power) {ts : List (Placed Token)}, ts.map (·.value) = p.yield.map (·.value) →
    ∃ p' : Power, p'.yield = ts
  | .atom a, ts, h => by
    obtain ⟨a', rfl⟩ := a.replaced h
    exact ⟨.atom a', rfl⟩
  | .raised base _ exponent, ts, h => by
    obtain ⟨xs, rest, rfl, hxs, hrest⟩ := split_words h
    obtain ⟨place, ys, rfl, hys⟩ := split_word hrest
    obtain ⟨base', rfl⟩ := base.replaced hxs
    obtain ⟨exponent', rfl⟩ := exponent.replaced hys
    exact ⟨.raised base' place exponent', rfl⟩

theorem Atom.replaced : ∀ (a : Atom) {ts : List (Placed Token)}, ts.map (·.value) = a.yield.map (·.value) →
    ∃ a' : Atom, a'.yield = ts
  | .number v _, ts, h => by
    obtain ⟨place, rest, rfl, hrest⟩ := split_word h
    obtain rfl := List.map_eq_nil_iff.1 hrest
    exact ⟨.number v place, rfl⟩
  | .name n _, ts, h => by
    obtain ⟨place, rest, rfl, hrest⟩ := split_word h
    obtain rfl := List.map_eq_nil_iff.1 hrest
    exact ⟨.name n place, rfl⟩
  | .bareCall n _ _ _, ts, h => by
    obtain ⟨place, ys, rfl, hys⟩ := split_word h
    obtain ⟨opening, zs, rfl, hzs⟩ := split_word hys
    obtain ⟨closing, rest, rfl, hrest⟩ := split_word hzs
    obtain rfl := List.map_eq_nil_iff.1 hrest
    exact ⟨.bareCall n place opening closing, rfl⟩
  | .call n _ _ args _, ts, h => by
    obtain ⟨place, ys, rfl, hys⟩ := split_word h
    obtain ⟨opening, zs, rfl, hzs⟩ := split_word hys
    obtain ⟨xs, closing, rfl, hxs⟩ := split_last hzs
    obtain ⟨args', rfl⟩ := args.replaced hxs
    exact ⟨.call n place opening args' closing, rfl⟩
  | .group _ inner _, ts, h => by
    obtain ⟨opening, rest, rfl, hrest⟩ := split_word h
    obtain ⟨xs, closing, rfl, hxs⟩ := split_last hrest
    obtain ⟨inner', rfl⟩ := inner.replaced hxs
    exact ⟨.group opening inner' closing, rfl⟩

theorem Arguments.replaced : ∀ (args : Arguments) {ts : List (Placed Token)},
    ts.map (·.value) = args.yield.map (·.value) → ∃ args' : Arguments, args'.yield = ts
  | .first s, ts, h => by
    obtain ⟨s', rfl⟩ := s.replaced h
    exact ⟨.first s', rfl⟩
  | .more before _ s, ts, h => by
    obtain ⟨xs, rest, rfl, hxs, hrest⟩ := split_words h
    obtain ⟨comma, ys, rfl, hys⟩ := split_word hrest
    obtain ⟨before', rfl⟩ := before.replaced hxs
    obtain ⟨s', rfl⟩ := s.replaced hys
    exact ⟨.more before' comma s', rfl⟩

end

theorem newlines_replaced : ∀ (places : List Span) {ts : List (Placed Token)},
    ts.map (·.value) = (newlineTokens places).map (·.value) → ∃ places', newlineTokens places' = ts
  | [], ts, h => by
    obtain rfl := List.map_eq_nil_iff.1 h
    exact ⟨[], rfl⟩
  | _ :: places, ts, h => by
    obtain ⟨place, rest, rfl, hrest⟩ := split_word h
    obtain ⟨places', rfl⟩ := newlines_replaced places hrest
    exact ⟨place :: places', rfl⟩

theorem Line.replaced (line : Line) (h : ts.map (·.value) = line.yield.map (·.value)) :
    ∃ line' : Line, line'.yield = ts := by
  cases line with
  | declared target _ _ unit =>
    obtain ⟨place, xs, rfl, hxs⟩ := split_word h
    obtain ⟨colon, ys, rfl, hys⟩ := split_word hxs
    obtain ⟨unit', rfl⟩ := unit.replaced hys
    exact ⟨.declared target place colon unit', rfl⟩
  | defined target _ _ rhs _ unit =>
    obtain ⟨place, vs, rfl, hvs⟩ := split_word h
    obtain ⟨equals, us, rfl, hus⟩ := split_word hvs
    obtain ⟨xs, rest, rfl, hxs, hrest⟩ := split_words hus
    obtain ⟨colon, ys, rfl, hys⟩ := split_word hrest
    obtain ⟨rhs', rfl⟩ := rhs.replaced hxs
    obtain ⟨unit', rfl⟩ := unit.replaced hys
    exact ⟨.defined target place equals rhs' colon unit', rfl⟩

theorem Lines.replaced : ∀ (body : Lines) {ts : List (Placed Token)}, ts.map (·.value) = body.yield.map (·.value) →
    ∃ body' : Lines, body'.yield = ts
  | .first line, ts, h => by
    obtain ⟨line', rfl⟩ := line.replaced h
    exact ⟨.first line', rfl⟩
  | .more before newline newlines line, ts, h => by
    obtain ⟨first, zs, rfl, hfirst, hzs⟩ := split_words h
    obtain ⟨xs, rest, rfl, hxs, hrest⟩ := split_words hfirst
    obtain ⟨newline', ys, rfl, hys⟩ := split_word hrest
    obtain ⟨before', rfl⟩ := before.replaced hxs
    obtain ⟨newlines', rfl⟩ := newlines_replaced newlines hys
    obtain ⟨line', rfl⟩ := line.replaced hzs
    exact ⟨.more before' newline' newlines' line', rfl⟩

/-- **A sentence stays one wherever its tokens stand.** -/
theorem Sentence.replaced (d : Sentence) (h : ts.map (·.value) = d.yield.map (·.value)) :
    ∃ d' : Sentence, d'.yield = ts := by
  cases d with
  | blank newlines =>
    obtain ⟨newlines', rfl⟩ := newlines_replaced newlines h
    exact ⟨.blank newlines', rfl⟩
  | lines leading body trailing =>
    obtain ⟨first, zs, rfl, hfirst, hzs⟩ := split_words h
    obtain ⟨xs, ys, rfl, hxs, hys⟩ := split_words hfirst
    obtain ⟨leading', rfl⟩ := newlines_replaced leading hxs
    obtain ⟨body', rfl⟩ := body.replaced hys
    obtain ⟨trailing', rfl⟩ := newlines_replaced trailing hzs
    exact ⟨.lines leading' body' trailing', rfl⟩

end

theorem isSentence_iff {ts : List (Placed Token)} : IsSentence (ts.map (·.value)) ↔ ∃ d : Sentence, d.yield = ts := by
  constructor
  · rintro ⟨d, hd⟩
    exact d.replaced hd.symm
  · rintro ⟨d, rfl⟩
    exact ⟨d, rfl⟩

/-! ## Completions -/

mutual

/-- How many parentheses are open around a hole. -/
def SumContext.depth : SumContext → Nat
  | .whole => 0
  | .group outer _ => outer.depth + 1
  | .firstArgument outer _ _ _ => outer.depth + 1
  | .nextArgument outer _ _ _ _ _ => outer.depth + 1

def ProductContext.depth : ProductContext → Nat
  | .first outer => outer.depth
  | .more outer _ _ _ => outer.depth

def SignedContext.depth : SignedContext → Nat
  | .first outer => outer.depth
  | .more outer _ _ _ => outer.depth
  | .sign outer _ _ => outer.depth
  | .exponent outer _ _ => outer.depth

end

/-- A token at the start of the text, for want of a better place. -/
def unplaced (t : Token) : Placed Token := ⟨t, ⟨0, 0⟩⟩

/-- What a line needs after a sum: its unit, if that sum was its right-hand side. -/
def PartContext.completion : PartContext → List (Placed Token)
  | rhs _ _ _ => [unplaced .colon, unplaced (.name "x")]
  | unit _ _ _ => []
  | unitAfter _ _ _ _ _ => []

/-- **Tokens that complete a stage to a sentence.** -/
def Stage.completion : Stage → List (Placed Token)
  | atLineStart _ => []
  | afterTarget _ _ _ => [unplaced .colon, unplaced (.name "x")]
  | beforeOperand _ l k => unplaced (.name "x") :: (List.replicate k.depth (unplaced .closeParen) ++ l.completion)
  | afterOperand _ l k _ => List.replicate k.depth (unplaced .closeParen) ++ l.completion

/-- Signs and powers close inside the parentheses that are open around them. -/
theorem depth_closeSigned : ∀ (k : SignedContext) (u : Signed), (closeSigned k u).1.depth = k.depth
  | .first _, _ => rfl
  | .more outer _ _ _, _ => rfl
  | .sign k s place, u => by rw [closeSigned, depth_closeSigned k, SignedContext.depth]
  | .exponent k base place, u => by rw [closeSigned, depth_closeSigned k, SignedContext.depth]

theorem depth_sumOf (k : SignedContext) (a : Atom) : (sumOf k a).1.depth = k.depth := by
  have hproduct : (productOf k a).1.depth = k.depth := depth_closeSigned k _
  rw [sumOf, ← hproduct]
  cases (productOf k a).1 <;> rfl

/-- **Open parentheses can be closed**, the innermost first. -/
theorem steps_closing (c : LineContext) (l : PartContext) : ∀ (n : Nat) (k : SignedContext) (a : Atom), k.depth = n →
    ∃ k' a' s, (Stage.afterOperand c l k a).steps (List.replicate n (unplaced .closeParen)) =
      some (.afterOperand c l k' a') ∧ sumOf k' a' = (.whole, s)
  | 0, k, a, hdepth => by
    refine ⟨k, a, (sumOf k a).2, rfl, Prod.ext ?_ rfl⟩
    have hsum := depth_sumOf k a
    rw [hdepth] at hsum
    cases ho : (sumOf k a).1 with
    | whole => rfl
    | group | firstArgument | nextArgument =>
      rw [ho] at hsum
      cases hsum
  | n + 1, k, a, hdepth => by
    have hsum := depth_sumOf k a
    have hstep : (Stage.afterOperand c l k a).step (unplaced .closeParen) =
        Stage.close c l (sumOf k a).1 (sumOf k a).2 (unplaced .closeParen) := rfl
    -- whatever was opened last, closing it leaves an atom in the hole around it
    have hclosed : ∃ outer a', (Stage.afterOperand c l k a).step (unplaced .closeParen) =
        some (.afterOperand c l outer a') ∧ outer.depth = n := by
      rw [hstep]
      rw [hdepth] at hsum
      cases ho : (sumOf k a).1 with
      | whole =>
        rw [ho] at hsum
        cases hsum
      | group outer opening =>
        rw [ho] at hsum
        exact ⟨outer, _, rfl, Nat.succ.inj hsum⟩
      | firstArgument outer f place opening =>
        rw [ho] at hsum
        exact ⟨outer, _, rfl, Nat.succ.inj hsum⟩
      | nextArgument outer f place opening before comma =>
        rw [ho] at hsum
        exact ⟨outer, _, rfl, Nat.succ.inj hsum⟩
    obtain ⟨outer, a', hclose, houter⟩ := hclosed
    obtain ⟨k', a'', s, hsteps, hwhole⟩ := steps_closing c l n outer a' houter
    refine ⟨k', a'', s, ?_, hwhole⟩
    rw [List.replicate_succ, Stage.steps, hclose, Option.bind_some, hsteps]

/-- A line whose sum stands in no parentheses can be ended. -/
theorem finish_line (c : LineContext) (l : PartContext) {k : SignedContext} {a : Atom} {s : Sum}
    (h : sumOf k a = (.whole, s)) :
    ∃ d, ((Stage.afterOperand c l k a).steps l.completion).bind Stage.finish = some d := by
  cases l with
  | rhs target place equals =>
    have hcolon : (Stage.afterOperand c (.rhs target place equals) k a).step (unplaced .colon) =
        some (.beforeOperand c (.unitAfter target place equals s ⟨0, 0⟩) SumContext.whole.inward) := by
      simp only [Stage.step, Stage.continue?, unplaced, h, Stage.close]
    rw [PartContext.completion, Stage.steps, hcolon]
    exact ⟨_, rfl⟩
  | unit target place colon => exact ⟨_, finish_atEndOf ⟨c, _, k, a, s, _, rfl, h, rfl, rfl, rfl⟩⟩
  | unitAfter target place equals r colon => exact ⟨_, finish_atEndOf ⟨c, _, k, a, s, _, rfl, h, rfl, rfl, rfl⟩⟩

theorem finish_afterOperand (c : LineContext) (l : PartContext) (k : SignedContext) (a : Atom) :
    ∃ d, ((Stage.afterOperand c l k a).steps (List.replicate k.depth (unplaced .closeParen) ++ l.completion)).bind
      Stage.finish = some d := by
  obtain ⟨k', a', s, hsteps, hwhole⟩ := steps_closing c l k.depth k a rfl
  rw [Stage.steps_append, hsteps, Option.bind_some]
  exact finish_line c l hwhole

/-- **Every stage can be completed to a sentence.** -/
theorem finish_completion (g : Stage) : ∃ d, (g.steps g.completion).bind Stage.finish = some d := by
  cases g with
  | atLineStart c => cases c <;> exact ⟨_, rfl⟩
  | afterTarget c target place => exact ⟨_, rfl⟩
  | beforeOperand c l k => exact finish_afterOperand c l k (.name "x" ⟨0, 0⟩)
  | afterOperand c l k a => exact finish_afterOperand c l k a

/-- **A row of tokens leads to a stage exactly when a sentence begins with it.** -/
theorem begins_iff {ts : List (Placed Token)} : Begins (ts.map (·.value)) ↔ ∃ g, Stage.initial.steps ts = some g := by
  constructor
  · rintro ⟨rest, hrest⟩
    have hwords : (ts ++ rest.map unplaced).map (·.value) = ts.map (·.value) ++ rest := by
      rw [List.map_append, List.map_map]
      exact congrArg _ (List.map_id' rest)
    rw [← hwords] at hrest
    obtain ⟨d, hd⟩ := isSentence_iff.1 hrest
    have hsteps := steps_yield d
    rw [hd, Stage.steps_append] at hsteps
    obtain ⟨last, hlast, -⟩ := Option.bind_eq_some_iff.1 hsteps
    obtain ⟨g, hg, -⟩ := Option.bind_eq_some_iff.1 hlast
    exact ⟨g, hg⟩
  · rintro ⟨g, hg⟩
    obtain ⟨d, hd⟩ := finish_completion g
    obtain ⟨last, hlast, hfinish⟩ := Option.bind_eq_some_iff.1 hd
    have hread : d.yield = ts ++ g.completion := by
      rw [yield_of_finish hfinish, read_steps hlast, read_steps hg]
      rfl
    refine ⟨g.completion.map (·.value), d, ?_⟩
    rw [hread, List.map_append]

/-! ## Refusals -/

/-- **A refusal** names the token that the stage before it cannot take, or the end of the tokens at a stage that is not
the end of a sentence. -/
theorem run_eq_error : ∀ {ts : List (Placed Token)} {g : Stage} {r : Refusal}, g.reader.run ts = .error r →
    (∃ before t more mid, ts = before ++ t :: more ∧ g.steps before = some mid ∧ mid.step t = none ∧ r.found = some t) ∨
      ∃ last, g.steps ts = some last ∧ r.found = none
  | [], g, r, h => by
    rw [Reader.run] at h
    split at h
    · cases h
    · cases h
      exact .inr ⟨g, rfl, rfl⟩
  | t :: ts, g, r, h => by
    rw [Reader.run, ← reader_step] at h
    cases hstep : g.step t with
    | none =>
      rw [hstep] at h
      cases h
      exact .inl ⟨[], t, ts, g, rfl, rfl, hstep, rfl⟩
    | some next =>
      rw [hstep] at h
      obtain ⟨before, t', more, mid, rfl, hmid, hnone, hfound⟩ | ⟨last, hlast, hfound⟩ := run_eq_error h
      · refine .inl ⟨t :: before, t', more, mid, rfl, ?_, hnone, hfound⟩
        rw [Stage.steps, hstep, Option.bind_some, hmid]
      · refine .inr ⟨last, ?_, hfound⟩
        rw [Stage.steps, hstep, Option.bind_some, hlast]

/-- **What a refusal of tokens blames**: the first token with which they are not the beginning of a sentence any more,
or the end of a beginning that is no sentence. -/
def Blames (tokens : List (Placed Token)) (r : Refusal) : Prop :=
  (∃ before t more, tokens = before ++ t :: more ∧ r.found = some t ∧ Begins (before.map (·.value)) ∧
      ¬ Begins ((before ++ [t]).map (·.value))) ∨
    r.found = none ∧ Begins (tokens.map (·.value))

theorem blames_of_run {tokens : List (Placed Token)} {r : Refusal}
    (h : (Reader.atLineStart []).run tokens = .error r) : Blames tokens r := by
  obtain ⟨before, t, more, mid, rfl, hmid, hnone, hfound⟩ | ⟨last, hlast, hfound⟩ := run_eq_error (g := Stage.initial) h
  · refine .inl ⟨before, t, more, rfl, hfound, begins_iff.2 ⟨mid, hmid⟩, fun hbegins => ?_⟩
    obtain ⟨next, hnext⟩ := begins_iff.1 hbegins
    rw [Stage.steps_append, hmid, Option.bind_some, Stage.steps, hnone] at hnext
    cases hnext
  · exact .inr ⟨hfound, begins_iff.2 ⟨last, hlast⟩⟩

end Grammar

open Grammar

/-- **A text has a syntax error exactly when its tokens are no sentence**, whatever characters were left out.  Then it has
one, after the issues of those characters, and no equations: it lies at the first token with which the tokens are not
the beginning of any sentence, or at the end of the text if they are. -/
theorem parse_blames (source : String) :
    let scan := Token.scan source
    let strays := scan.strays.map fun c => Issue.stray c.value c.span
    (IsSentence (scan.tokens.map (·.value)) → ∃ d : Sentence, d.yield = scan.tokens ∧
      parse source = ⟨some ⟨d.trees, Parsed.tokensSpan scan.tokens source.utf8ByteSize⟩, strays⟩) ∧
    (¬ IsSentence (scan.tokens.map (·.value)) → ∃ r span, parse source = ⟨none, strays ++ [.syntactic r span]⟩ ∧
      Blames scan.tokens r ∧ (∀ t, r.found = some t → span = t.span) ∧
        (r.found = none → span = ⟨source.utf8ByteSize, (Parsed.tokensSpan scan.tokens source.utf8ByteSize).stop⟩)) := by
  intro scan strays
  constructor
  · intro hsentence
    obtain ⟨d, hd⟩ := isSentence_iff.1 hsentence
    refine ⟨d, hd, ?_⟩
    rw [parse, ← hd, Parsed.ofTokens_yield]
  · intro hnone
    cases hrun : Parser.equations.run scan.tokens with
    | ok equations =>
      obtain ⟨d, hd, -⟩ := (run_iff_sentence _ _).1 hrun
      exact absurd (isSentence_iff.2 ⟨d, hd⟩) hnone
    | error r =>
      refine ⟨r, Parsed.refusalSpan scan.tokens source.utf8ByteSize r, ?_,
        blames_of_run ((Parser.run_equations _).symm.trans hrun), fun t ht => ?_,
        fun hend => ?_⟩
      · rw [parse, Parsed.ofTokens, hrun]
      · rw [Parsed.refusalSpan, ht]
      · rw [Parsed.refusalSpan, hend]

/-- After a comma an argument has to follow. -/
example : (parse "y = f(x,) : volt").issues.map (fun i => (i.span, i.isLexical)) = [(⟨8, 9⟩, false)] := by
  decide +kernel

end FixedStep
