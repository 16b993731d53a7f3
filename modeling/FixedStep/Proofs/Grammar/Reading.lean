import FixedStep.Proofs.Grammar.Agreement
import FixedStep.Proofs.Grammar.Sentence
import FixedStep.Proofs.Token
/-!
# Reading — the reader follows the grammar

The reader keeps the trees of a stage and forgets their derivations (`Stage.reader`).  It takes a token exactly when the
stage does (`reader_step`), so it reads to the end what the grammar derives and nothing else, and the equations are the
trees of the one derivation.
-/
namespace FixedStep
namespace Grammar

/-! ## What the reader keeps -/

mutual

/-- The constructs open around a hole, innermost first. -/
def SumContext.frames : SumContext → List Frame
  | .whole => []
  | .group outer opening => .group opening.start :: outer.frames
  | .firstArgument outer n place _ => .arguments ⟨n, place⟩ [] :: outer.frames
  | .nextArgument outer n place _ before _ => .arguments ⟨n, place⟩ before.trees.reverse :: outer.frames

def ProductContext.frames : ProductContext → List Frame
  | .first outer => outer.frames
  | .more outer before op _ => .sum op.operator before.tree :: outer.frames

def SignedContext.frames : SignedContext → List Frame
  | .first outer => outer.frames
  | .more outer before op _ => .product op.operator before.tree :: outer.frames
  | .sign outer s place => .sign s place.start :: outer.frames
  | .exponent outer base _ => .power base.tree base.start :: outer.frames

end

/-- The equations before a line, the last one first. -/
def LineContext.done : LineContext → List Equation
  | start _ => []
  | after _ before _ _ => before.trees.reverse

def PartContext.part : PartContext → Part
  | rhs target place _ => .rhs ⟨target, place⟩
  | unit target place _ => .unit ⟨target, place⟩ none
  | unitAfter target place _ r _ => .unit ⟨target, place⟩ (some r.tree)

/-- Only a name that stands alone may take arguments. -/
def Atom.callable : Atom → Bool
  | name _ _ => true
  | _ => false

def Atom.operand (a : Atom) : Operand := ⟨a.tree, a.start, a.stop, a.callable⟩

/-- **The reader at a stage.** -/
def Stage.reader : Stage → Reader
  | atLineStart c => .atLineStart c.done
  | afterTarget c target place => .afterTarget c.done ⟨target, place⟩
  | beforeOperand c l k => .beforeOperand c.done l.part k.frames
  | afterOperand c l k a => .afterOperand c.done l.part k.frames a.operand

@[simp] theorem frames_inward (o : SumContext) : o.inward.frames = o.frames := by
  simp only [SumContext.inward, SignedContext.frames, ProductContext.frames]

/-! ## Closing operators -/

theorem closeTight_sumContext (stop : Nat) (e : Expr) (o : SumContext) :
    Reader.closeTight stop e o.frames = (e, o.frames) := by
  cases o <;> simp only [SumContext.frames, Reader.closeTight]

theorem closeTight_productContext (stop : Nat) (e : Expr) (o : ProductContext) :
    Reader.closeTight stop e o.frames = (e, o.frames) := by
  cases o with
  | first o => rw [ProductContext.frames, closeTight_sumContext]
  | more => simp only [ProductContext.frames, Reader.closeTight]

theorem closeProduct_signed : ∀ (k : SignedContext) (u : Signed),
    Reader.closeProduct u.stop u.tree k.frames = ((closeSigned k u).2.tree, (closeSigned k u).1.frames)
  | .first o, u => by
    rw [SignedContext.frames, Reader.closeProduct, closeTight_productContext, closeSigned, Product.tree]
    rcases o with (_ | _ | _ | _) | _ <;> simp only [ProductContext.frames, SumContext.frames]
  | .more o before op place, u => by
    simp only [SignedContext.frames, Reader.closeProduct, Reader.closeTight, closeSigned, Product.tree, joined]
  | .sign k s place, u => by
    have h := closeProduct_signed k (.sign s place u)
    rw [Signed.stop, Signed.tree] at h
    rw [closeSigned, ← h]
    simp only [SignedContext.frames, Reader.closeProduct, Reader.closeTight]
  | .exponent k base place, u => by
    have h := closeProduct_signed k (.power (.raised base place u))
    rw [Signed.stop, Signed.tree, Power.stop, Power.tree] at h
    rw [closeSigned, ← h]
    simp only [SignedContext.frames, Reader.closeProduct, Reader.closeTight]

theorem closeProduct_atom (k : SignedContext) (a : Atom) :
    Reader.closeProduct a.stop a.tree k.frames = ((productOf k a).2.tree, (productOf k a).1.frames) := by
  have h := closeProduct_signed k (.power (.atom a))
  rwa [Signed.stop, Signed.tree, Power.stop, Power.tree] at h

theorem closeSum_atom (k : SignedContext) (a : Atom) :
    Reader.closeSum a.stop a.tree k.frames = ((sumOf k a).2.tree, (sumOf k a).1.frames) := by
  rw [Reader.closeSum, closeProduct_atom, sumOf]
  generalize productOf k a = q
  obtain ⟨o, p⟩ := q
  rcases o with (_ | _ | _ | _) | _ <;>
    simp only [ProductContext.frames, SumContext.frames, closeProduct, Sum.tree, joined]

/-! ## Where operands end

The end of an atom is the end of its last token, and so is the end of every phrase that it ends. -/

theorem stop_closeSigned : ∀ (k : SignedContext) (u : Signed), (closeSigned k u).2.stop = u.stop
  | .first _, _ => rfl
  | .more _ _ _ _, _ => rfl
  | .sign k s place, u => by rw [closeSigned, stop_closeSigned k, Signed.stop]
  | .exponent k base place, u => by rw [closeSigned, stop_closeSigned k, Signed.stop, Power.stop]

theorem stop_sumOf (k : SignedContext) (a : Atom) : (sumOf k a).2.stop = a.stop := by
  have h := stop_closeSigned k (.power (.atom a))
  rw [Signed.stop, Power.stop] at h
  rw [sumOf, ← h, ← productOf]
  generalize productOf k a = q
  obtain ⟨o, p⟩ := q
  cases o <;> rfl

/-! ## Steps -/

/-- The reader puts the last argument first. -/
theorem reverse_trees_more (before : Arguments) (comma : Span) (s : Sum) :
    (Arguments.more before comma s).trees.reverse = s.tree :: before.trees.reverse := by
  rw [Arguments.trees, List.reverse_append, List.reverse_singleton, List.singleton_append]

/-- An argument list that has an argument is not one that was just opened. -/
theorem exists_reverse_trees (args : Arguments) : ∃ e es, args.trees.reverse = e :: es := by
  cases args with
  | first s => exact ⟨s.tree, [], rfl⟩
  | more before comma s => exact ⟨s.tree, before.trees.reverse, reverse_trees_more before comma s⟩

theorem reverse_body (c : LineContext) (line : Line) : (c.body line).trees.reverse = line.tree :: c.done := by
  cases c with
  | start => rfl
  | after leading before newline newlines =>
    rw [LineContext.body, Lines.trees, List.reverse_append, List.reverse_singleton, List.singleton_append]
    rfl

theorem trees_body (c : LineContext) (line : Line) : (c.body line).trees = (line.tree :: c.done).reverse := by
  rw [← reverse_body, List.reverse_reverse]

theorem reader_begin (c : LineContext) (l : PartContext) (k : SignedContext) (t : Placed Token) :
    (Stage.begin c l k t).map Stage.reader = Reader.begin c.done l.part k.frames t := by
  obtain ⟨token, place⟩ := t
  cases token
  case closeParen =>
    rcases k with ((_ | _ | _ | ⟨_, _, _, _, before, _⟩) | _) | _ | _ | _
    case first.first.nextArgument =>
      obtain ⟨e, es, hargs⟩ := exists_reverse_trees before
      simp only [Stage.begin, Reader.begin, SignedContext.frames, ProductContext.frames, SumContext.frames, hargs]
      rfl
    all_goals rfl
  all_goals
    simp only [Stage.begin, Reader.begin, Option.map_some, Option.map_none, Stage.reader, frames_inward,
      SignedContext.frames, SumContext.frames]
  case number | name => rfl

theorem reader_close (c : LineContext) (l : PartContext) (k : SignedContext) (a : Atom) (t : Placed Token) :
    (Stage.close c l (sumOf k a).1 (sumOf k a).2 t).map Stage.reader =
      Reader.close c.done l.part k.frames a.operand t := by
  have hclose := closeSum_atom k a
  have hstop := stop_sumOf k a
  obtain ⟨token, place⟩ := t
  unfold Reader.close
  rw [show a.operand.stop = a.stop from rfl, show a.operand.expr = a.tree from rfl, hclose]
  generalize sumOf k a = q at hstop
  obtain ⟨o, s⟩ := q
  simp only at hstop
  -- most pairs are refused on both sides; the named ones close a part of a line or a row of arguments
  cases token <;> cases o
  case newline.whole =>
    cases l with
    | rhs => rfl
    | unit target nameAt colon =>
      simp only [Stage.close, PartContext.line?, Option.map_some, Stage.reader, LineContext.done, reverse_body, Line.tree,
        SumContext.frames, PartContext.part, hstop]
    | unitAfter target nameAt equals r colon =>
      simp only [Stage.close, PartContext.line?, Option.map_some, Stage.reader, LineContext.done, reverse_body, Line.tree,
        SumContext.frames, PartContext.part, hstop]
  case colon.whole => cases l <;> rfl
  case closeParen.nextArgument outer n nameAt opening before comma =>
    simp only [Stage.close, Option.map_some, Stage.reader, SumContext.frames, Atom.operand, Atom.tree, Atom.start,
      Atom.stop, Atom.callable, ← reverse_trees_more before comma s, List.reverse_reverse]
  case comma.nextArgument outer n nameAt opening before comma =>
    simp only [Stage.close, Option.map_some, Stage.reader, SumContext.frames, frames_inward, reverse_trees_more]
  all_goals rfl

theorem reader_continue (c : LineContext) (l : PartContext) (k : SignedContext) (a : Atom) (t : Placed Token) :
    (Stage.continue? c l k a t).map Stage.reader = Reader.continue? c.done l.part k.frames a.operand t := by
  have hproduct := closeProduct_atom k a
  have hsum := closeSum_atom k a
  have hclose := reader_close c l k a t
  have hoperand : a.operand = ⟨a.tree, a.start, a.stop, a.callable⟩ := rfl
  obtain ⟨token, place⟩ := t
  cases token
  case openParen =>
    cases a
    case name => rfl
    case group opening inner closing =>
      -- a name in parentheses takes no arguments
      have hnone : ∀ e : Expr, Reader.continue? c.done l.part k.frames ⟨e, opening.start, closing.stop, false⟩
          ⟨.openParen, place⟩ = Reader.close c.done l.part k.frames ⟨e, opening.start, closing.stop, false⟩
          ⟨.openParen, place⟩ := fun e => by cases e <;> rfl
      exact hclose.trans (hnone inner.tree).symm
    all_goals exact hclose
  case power => rfl
  case star | slash =>
    simp only [Stage.continue?, Reader.continue?, Option.map_some, Stage.reader, hoperand, hproduct,
      SignedContext.frames, ProductOperator.operator]
  case plus | minus =>
    simp only [Stage.continue?, Reader.continue?, Option.map_some, Stage.reader, hoperand, hsum,
      SignedContext.frames, ProductContext.frames, SumOperator.operator]
  all_goals exact hclose

/-- **The reader takes the tokens that the grammar takes**, and stays at the stage. -/
theorem reader_step (g : Stage) (t : Placed Token) : (g.step t).map Stage.reader = g.reader.step t := by
  obtain ⟨token, place⟩ := t
  cases g with
  | atLineStart c => cases c <;> cases token <;> rfl
  | afterTarget c target nameAt => cases token <;> rfl
  | beforeOperand c l k => exact reader_begin c l k ⟨token, place⟩
  | afterOperand c l k a => exact reader_continue c l k a ⟨token, place⟩

theorem reader_finish (g : Stage) : g.finish.map Sentence.trees = g.reader.finish := by
  cases g with
  | atLineStart c =>
    cases c with
    | start => rfl
    | after leading before newline newlines =>
      simp only [Stage.finish, Option.map_some, Sentence.trees, Stage.reader, LineContext.done, Reader.finish,
        List.reverse_reverse]
  | afterTarget => rfl
  | beforeOperand => rfl
  | afterOperand c l k a =>
    have hclose := closeSum_atom k a
    have hstop := stop_sumOf k a
    have hoperand : a.operand = ⟨a.tree, a.start, a.stop, a.callable⟩ := rfl
    simp only [Stage.finish, Stage.reader, hoperand]
    generalize sumOf k a = q at hclose hstop
    obtain ⟨o, s⟩ := q
    simp only at hstop
    -- a text ends after the sum of a unit, outside of all parentheses
    cases o with
    | whole =>
      cases l with
      | rhs => rfl
      | unit target nameAt colon =>
        simp only [PartContext.line?, Option.map_some, Sentence.trees, PartContext.part, Reader.finish, hclose,
          SumContext.frames, hstop, Line.tree, trees_body]
      | unitAfter target nameAt equals r colon =>
        simp only [PartContext.line?, Option.map_some, Sentence.trees, PartContext.part, Reader.finish, hclose,
          SumContext.frames, hstop, Line.tree, trees_body]
    | group | firstArgument | nextArgument =>
      cases l <;> simp only [Option.map_none, PartContext.part, Reader.finish, hclose, SumContext.frames]

/-- **Reading to the end** succeeds exactly where the grammar has a sentence, and gives its trees. -/
theorem run_reader : ∀ (ts : List (Placed Token)) (g : Stage) (equations : List Equation),
    g.reader.run ts = .ok equations ↔ ∃ d, (g.steps ts).bind Stage.finish = some d ∧ d.trees = equations
  | [], g, equations => by
    rw [Reader.run, ← reader_finish]
    cases hd : g.finish with
    | none => simp [Stage.steps, hd]
    | some d => simp [Stage.steps, hd]
  | t :: ts, g, equations => by
    rw [Reader.run, ← reader_step, Stage.steps]
    cases hg : g.step t with
    | none => simp
    | some next => exact run_reader ts next equations

/-- **A row of tokens is read to an end exactly when it is a sentence**, and the equations are its trees. -/
theorem run_iff_sentence (tokens : List (Placed Token)) (equations : List Equation) :
    Parser.equations.run tokens = .ok equations ↔ ∃ d : Sentence, d.yield = tokens ∧ d.trees = equations := by
  have hrun := run_reader tokens Stage.initial equations
  rw [show Stage.initial.reader = Reader.atLineStart [] from rfl] at hrun
  rw [Parser.run_equations, hrun]
  constructor
  · rintro ⟨d, hd, htrees⟩
    obtain ⟨g, hsteps, hfinish⟩ := Option.bind_eq_some_iff.1 hd
    exact ⟨d, (yield_of_finish hfinish).trans (read_steps hsteps), htrees⟩
  · rintro ⟨d, rfl, htrees⟩
    exact ⟨d, steps_yield d, htrees⟩

end Grammar

open Grammar

theorem Parsed.ofTokens_yield (d : Sentence) (length : Nat) :
    ofTokens d.yield length = .ok ⟨d.trees, tokensSpan d.yield length⟩ := by
  rw [ofTokens, (run_iff_sentence d.yield d.trees).2 ⟨d, rfl, rfl⟩]

/-- A text whose tokens are a sentence is read as its trees. -/
theorem parse_of_yield {source : String} (hstrays : (Token.scan source).strays = []) {d : Sentence}
    (hd : d.yield = (Token.scan source).tokens) :
    parse source = ⟨some ⟨d.trees, Parsed.tokensSpan (Token.scan source).tokens source.utf8ByteSize⟩, []⟩ := by
  simp only [parse, hstrays, ← hd, Parsed.ofTokens_yield, List.map_nil]

/-- A text without issues is a sentence. -/
theorem sentence_of_issues {source : String} (h : (parse source).issues = []) :
    (Token.scan source).strays = [] ∧ ∃ d : Sentence, d.yield = (Token.scan source).tokens := by
  simp only [parse, Parsed.ofTokens] at h
  cases hrun : Parser.equations.run (Token.scan source).tokens with
  | ok equations =>
    obtain ⟨d, hyield, -⟩ := (run_iff_sentence _ _).1 hrun
    simp only [hrun] at h
    exact ⟨List.map_eq_nil_iff.1 h, d, hyield⟩
  | error refusal => simp [hrun] at h

/-- The equations of a text are the trees of a sentence. -/
theorem sentence_of_parse {source : String} {set : EquationSet} (h : (parse source).equations = some set) :
    ∃ d : Sentence, d.yield = (Token.scan source).tokens ∧ d.trees = set.equations := by
  cases hrun : Parser.equations.run (Token.scan source).tokens with
  | ok equations =>
    simp only [parse, Parsed.ofTokens, hrun] at h
    obtain rfl := Option.some.inj h
    exact (run_iff_sentence _ _).1 hrun
  | error refusal => simp [parse, Parsed.ofTokens, hrun] at h

/-- **A text without stray characters has no issue exactly when its tokens are a sentence of the grammar.**  Then they
have one derivation, and the equations are its trees. -/
theorem parse_iff_sentence (source : String) (hstrays : (Token.scan source).strays = []) :
    ((parse source).issues = [] ↔ ∃ d : Sentence, d.yield = (Token.scan source).tokens) ∧
    ∀ d : Sentence, d.yield = (Token.scan source).tokens →
      (∀ d' : Sentence, d'.yield = (Token.scan source).tokens → d' = d) ∧
      parse source = ⟨some ⟨d.trees, Parsed.tokensSpan (Token.scan source).tokens source.utf8ByteSize⟩, []⟩ := by
  refine ⟨⟨fun hissues => (sentence_of_issues hissues).2, fun ⟨d, hd⟩ => by rw [parse_of_yield hstrays hd]⟩,
    fun d hd => ⟨fun d' hd' => ?_, parse_of_yield hstrays hd⟩⟩
  exact yield_injective (hd'.trans hd.symm)

/-- The derivation of `y = -x ** k : volt`. -/
def Grammar.signedPower : Sentence :=
  .lines []
    (.first (.defined "y" ⟨0, 1⟩ ⟨2, 3⟩
      (.product (.signed (.sign .neg ⟨4, 5⟩
        (.power (.raised (.name "x" ⟨5, 6⟩) ⟨7, 9⟩ (.power (.atom (.name "k" ⟨10, 11⟩))))))))
      ⟨12, 13⟩ (.product (.signed (.power (.atom (.name "volt" ⟨14, 18⟩)))))))
    []

theorem scan_signedPower : Token.scan "y = -x ** k : volt" = ⟨Grammar.signedPower.yield, []⟩ := by
  decide +kernel

/-- A sign applies after the power on its right. -/
theorem parse_signedPower : (Token.scan "y = -x ** k : volt").strays = [] ∧
    (parse "y = -x ** k : volt").equations.map (·.equations) = some [⟨⟨"y", ⟨0, 1⟩⟩,
      some (.signed .neg (.binary .pow (.name "x" ⟨5, 6⟩) (.name "k" ⟨10, 11⟩) ⟨5, 11⟩) ⟨4, 11⟩),
      .name "volt" ⟨14, 18⟩, ⟨0, 18⟩⟩] := by
  have hstrays : (Token.scan "y = -x ** k : volt").strays = [] := by rw [scan_signedPower]
  have hyield : Grammar.signedPower.yield = (Token.scan "y = -x ** k : volt").tokens := by rw [scan_signedPower]
  refine ⟨hstrays, ?_⟩
  rw [((parse_iff_sentence "y = -x ** k : volt" hstrays).2 Grammar.signedPower hyield).2]
  rfl

/-! ## Targets -/

/-- The targets of a set of equations consist of letters, digits and underscores. -/
def EquationSet.Spelled (set : EquationSet) : Prop :=
  ∀ eq ∈ set.equations, eq.target.name.toList.all Lexeme.isNameRest

theorem Grammar.Line.target_mem (line : Line) : ∃ place, ⟨.name line.tree.target.name, place⟩ ∈ line.yield := by
  cases line with
  | declared target place colon unit => exact ⟨place, List.mem_cons_self⟩
  | defined target place equals rhs colon unit => exact ⟨place, List.mem_cons_self⟩

theorem Grammar.Lines.target_mem {eq : Equation} : ∀ {ls : Lines}, eq ∈ ls.trees →
    ∃ place, ⟨.name eq.target.name, place⟩ ∈ ls.yield
  | .first line, h => by
    obtain rfl := List.mem_singleton.1 h
    exact line.target_mem
  | .more before newline newlines line, h => by
    rcases List.mem_append.1 h with hbefore | hline
    · obtain ⟨place, hplace⟩ := target_mem hbefore
      exact ⟨place, List.mem_append_left _ (List.mem_append_left _ hplace)⟩
    · obtain rfl := List.mem_singleton.1 hline
      obtain ⟨place, hplace⟩ := line.target_mem
      exact ⟨place, List.mem_append_right _ hplace⟩

/-- **The targets of a text are names.** -/
theorem spelled_of_parse {source : String} {set : EquationSet} (h : (parse source).equations = some set) :
    set.Spelled := by
  obtain ⟨d, hyield, htrees⟩ := sentence_of_parse h
  intro eq heq
  rw [← htrees] at heq
  cases d with
  | blank newlines => cases heq
  | lines leading body trailing =>
    obtain ⟨place, hplace⟩ := Lines.target_mem heq
    have hmem : ⟨.name eq.target.name, place⟩ ∈ (Token.scan source).tokens := by
      rw [← hyield]
      exact List.mem_append_left _ (List.mem_append_right _ hplace)
    exact Token.scan_name hmem

end FixedStep
