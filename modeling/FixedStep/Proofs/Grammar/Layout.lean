import FixedStep.Proofs.Grammar.Alone
import FixedStep.Proofs.Grammar.Printed
import FixedStep.Proofs.Token.Spacing
/-!
# Layout — only the words of a text count

The reader carries the places of tokens along and never looks at them: with all places moved it takes the same tokens
and stays at the same state, moved alike (`Reader.step_move`).  So two texts with the same words have the same equations
up to places, or are refused at the same token (`readAlike_of_words`), and a text may be laid out anew with its words
one blank apart (`parse_respaced`).
-/
namespace FixedStep

variable (f : Nat → Nat)

/-! ## Readers moved -/

def Ident.move (i : Ident) : Ident := ⟨i.name, i.span.move f⟩

namespace Equation

def move (eq : Equation) : Equation := ⟨eq.target.move f, eq.rhs.map (Expr.move f), eq.unit.move f, eq.span.move f⟩

/-- **An equation up to places.** -/
def bare (eq : Equation) : Equation := ⟨⟨eq.target.name, ⟨0, 0⟩⟩, eq.rhs.map Expr.bare, eq.unit.bare, ⟨0, 0⟩⟩

end Equation

def Frame.move : Frame → Frame
  | sign s start => sign s (f start)
  | sum op l => sum op (l.move f)
  | product op l => product op (l.move f)
  | power base start => power (base.move f) (f start)
  | group start => group (f start)
  | arguments g done => arguments (g.move f) (done.map (Expr.move f))

def Part.move : Part → Part
  | rhs target => rhs (target.move f)
  | unit target r => unit (target.move f) (r.map (Expr.move f))

def Operand.move (o : Operand) : Operand := ⟨o.expr.move f, f o.start, f o.stop, o.callable⟩

def Reader.move : Reader → Reader
  | atLineStart done => atLineStart (done.map (Equation.move f))
  | afterTarget done target => afterTarget (done.map (Equation.move f)) (target.move f)
  | beforeOperand done part fs => beforeOperand (done.map (Equation.move f)) (part.move f) (fs.map (Frame.move f))
  | afterOperand done part fs o =>
    afterOperand (done.map (Equation.move f)) (part.move f) (fs.map (Frame.move f)) (o.move f)

namespace Expr

theorem moveAll_eq_map (es : List Expr) : moveAll f es = es.map (move f) := by
  induction es with
  | nil => rfl
  | cons e es ih => rw [moveAll, ih, List.map_cons]

mutual

theorem bare_eq_move : ∀ e : Expr, e.bare = e.move fun _ => 0
  | .number _ _ => rfl
  | .name _ _ => rfl
  | .signed s e _ => congrArg (Expr.signed s · ⟨0, 0⟩) (bare_eq_move e)
  | .binary op l r _ => congrArg₂ (Expr.binary op · · ⟨0, 0⟩) (bare_eq_move l) (bare_eq_move r)
  | .call g args _ => congrArg (Expr.call ⟨g.name, ⟨0, 0⟩⟩ · ⟨0, 0⟩) (bareAll_eq_moveAll args)

theorem bareAll_eq_moveAll : ∀ es : List Expr, withNumbersAll (.number · ⟨0, 0⟩) es = moveAll (fun _ => 0) es
  | [] => rfl
  | e :: es => congrArg₂ List.cons (bare_eq_move e) (bareAll_eq_moveAll es)

end

end Expr

theorem Equation.bare_eq_move (eq : Equation) : eq.bare = eq.move fun _ => 0 := by
  rw [bare, move, Expr.bare_eq_move, funext Expr.bare_eq_move]
  rfl

namespace Reader

/-! ## Steps -/

theorem closeTight_move (stop : Nat) : ∀ (e : Expr) (fs : List Frame),
    closeTight (f stop) (e.move f) (fs.map (Frame.move f)) =
      (closeTight stop e fs).map (Expr.move f) (List.map (Frame.move f))
  | _, [] => rfl
  | e, .power base start :: fs => closeTight_move stop (.binary .pow base e ⟨start, stop⟩) fs
  | e, .sign s start :: fs => by
    rw [List.map_cons, Frame.move, closeTight, closeTight, Expr.span_move, ← closeTight_move]
    rfl
  | _, .sum _ _ :: _ => rfl
  | _, .product _ _ :: _ => rfl
  | _, .group _ :: _ => rfl
  | _, .arguments _ _ :: _ => rfl

theorem closeProduct_move (stop : Nat) (e : Expr) (fs : List Frame) :
    closeProduct (f stop) (e.move f) (fs.map (Frame.move f)) =
      (closeProduct stop e fs).map (Expr.move f) (List.map (Frame.move f)) := by
  unfold closeProduct
  rw [closeTight_move]
  obtain ⟨r, gs⟩ := closeTight stop e fs
  rcases gs with _ | ⟨_ | _ | _ | _ | _ | _, gs⟩
  case cons.product op l => exact congrArg (·, gs.map (Frame.move f)) (Grammar.move_joined f op l r).symm
  all_goals rfl

theorem closeSum_move (stop : Nat) (e : Expr) (fs : List Frame) :
    closeSum (f stop) (e.move f) (fs.map (Frame.move f)) =
      (closeSum stop e fs).map (Expr.move f) (List.map (Frame.move f)) := by
  unfold closeSum
  rw [closeProduct_move]
  obtain ⟨r, gs⟩ := closeProduct stop e fs
  rcases gs with _ | ⟨_ | _ | _ | _ | _ | _, gs⟩
  case cons.sum op l => exact congrArg (·, gs.map (Frame.move f)) (Grammar.move_joined f op l r).symm
  all_goals rfl

variable (done : List Equation) (part : Part) (fs : List Frame) (o : Operand) (t : Placed Token)

theorem begin_move : begin (done.map (Equation.move f)) (part.move f) (fs.map (Frame.move f)) (t.move f) =
    (begin done part fs t).map (Reader.move f) := by
  obtain ⟨token, place⟩ := t
  cases token
  case closeParen => rcases fs with _ | ⟨_ | _ | _ | _ | _ | ⟨g, _ | _⟩, fs⟩ <;> rfl
  all_goals rfl

theorem close_move : close (done.map (Equation.move f)) (part.move f) (fs.map (Frame.move f)) (o.move f) (t.move f) =
    (close done part fs o t).map (Reader.move f) := by
  unfold close
  rw [Operand.move, closeSum_move]
  obtain ⟨e, gs⟩ := closeSum o.stop o.expr fs
  obtain ⟨token, place⟩ := t
  cases token <;> rcases gs with _ | ⟨_ | _ | _ | _ | _ | _, gs⟩ <;> cases part
  -- most tokens are refused with any frame; only the arguments of a call are turned around
  case closeParen.cons.arguments.rhs g args | closeParen.cons.arguments.unit g args =>
    simp [Frame.move, Part.move, Reader.move, Operand.move, Expr.move, Expr.moveAll_eq_map, Ident.move, Placed.move,
      Span.move, Span.through]
  all_goals rfl

theorem continue?_move :
    continue? (done.map (Equation.move f)) (part.move f) (fs.map (Frame.move f)) (o.move f) (t.move f) =
      (continue? done part fs o t).map (Reader.move f) := by
  have hproduct := closeProduct_move f o.stop o.expr fs
  have hsum := closeSum_move f o.stop o.expr fs
  have hclose := close_move f done part fs o t
  obtain ⟨token, place⟩ := t
  obtain ⟨e, start, stop, callable⟩ := o
  dsimp only at hproduct hsum
  cases token
  -- a name that stands alone is called
  case openParen =>
    cases callable
    case false => cases e <;> exact hclose
    case true =>
      cases e
      case name => rfl
      all_goals exact hclose
  case power => rfl
  case star | slash =>
    simp only [continue?, Operand.move, Placed.move, hproduct]
    rfl
  case plus | minus =>
    simp only [continue?, Operand.move, Placed.move, hsum]
    rfl
  all_goals exact hclose

variable (r : Reader)

/-- **The reader takes tokens at other places alike**, and stays at the same state, moved alike. -/
theorem step_move : (r.move f).step (t.move f) = (r.step t).map (Reader.move f) := by
  cases r with
  | atLineStart done =>
    obtain ⟨token, place⟩ := t
    cases token <;> rfl
  | afterTarget done target =>
    obtain ⟨token, place⟩ := t
    cases token <;> rfl
  | beforeOperand done part fs => exact begin_move f done part fs t
  | afterOperand done part fs o => exact continue?_move f done part fs o t

theorem finish_move : (r.move f).finish = r.finish.map (List.map (Equation.move f)) := by
  cases r with
  | atLineStart done => exact congrArg some List.map_reverse.symm
  | afterTarget | beforeOperand => rfl
  | afterOperand done part fs o =>
    cases part with
    | rhs => rfl
    | unit target r =>
      have hsum := closeSum_move f o.stop o.expr fs
      simp only [Reader.move, Part.move, Operand.move, finish, hsum]
      obtain ⟨e, gs⟩ := closeSum o.stop o.expr fs
      cases gs with
      | nil => simp [Equation.move, Ident.move, Span.move]
      | cons => rfl

theorem closers_move (part : Part) : ∀ fs : List Frame, closers (part.move f) (fs.map (Frame.move f)) = closers part fs
  | [] => by cases part <;> rfl
  | .group _ :: _ => rfl
  | .arguments _ _ :: _ => rfl
  | .sign _ _ :: fs | .sum _ _ :: fs | .product _ _ :: fs | .power _ _ :: fs => closers_move part fs

theorem expected_move : (r.move f).expected = r.expected := by
  cases r with
  | atLineStart | afterTarget => rfl
  | beforeOperand done part fs => rcases fs with _ | ⟨_ | _ | _ | _ | _ | ⟨g, _ | _⟩, fs⟩ <;> rfl
  | afterOperand done part fs o => exact congrArg (continuers o.callable ++ ·) (closers_move f part fs)

variable {f} in
theorem expected_congr {q r : Reader} (h : q.move f = r.move f) : q.expected = r.expected := by
  rw [← expected_move f q, h, expected_move]

/-! ## Runs -/

/-- **Two readings end alike**: with the same equations, once moved, or at the tokens of one index, where the same could
have stood; the index behind the last token is the end of the text. -/
inductive SameOutcome (ts us : List (Placed Token)) : (a b : Except Refusal (List Equation)) → Prop where
  | read {es es' : List Equation} (hequations : es'.map (Equation.move f) = es.map (Equation.move f)) :
    SameOutcome ts us (.ok es) (.ok es')
  | refused {r r' : Refusal} {i : Nat} (hi : i ≤ ts.length) (hfound : r.found = ts[i]?) (hfound' : r'.found = us[i]?)
      (hexpected : r'.expected = r.expected) : SameOutcome ts us (.error r) (.error r')

variable {f} in
theorem SameOutcome.cons {t u : Placed Token} {ts us : List (Placed Token)} {a b : Except Refusal (List Equation)}
    (h : SameOutcome f ts us a b) : SameOutcome f (t :: ts) (u :: us) a b := by
  cases h with
  | read hequations => exact .read hequations
  | refused hi hfound hfound' hexpected => exact .refused (Nat.succ_le_succ hi) hfound hfound' hexpected

variable {f} in
/-- **Two states that are one once moved end alike**, before tokens that are the same once moved. -/
theorem sameOutcome_run : ∀ {ts us : List (Placed Token)} {r q : Reader}, q.move f = r.move f →
    us.map (·.move f) = ts.map (·.move f) → SameOutcome f ts us (r.run ts) (q.run us)
  | [], us, r, q, hstate, htokens => by
    obtain rfl := List.map_eq_nil_iff.1 htokens
    have hfinish : q.finish.map (List.map (Equation.move f)) = r.finish.map (List.map (Equation.move f)) := by
      rw [← finish_move, hstate, finish_move]
    rw [run, run]
    cases hr : r.finish with
    | none =>
      rw [hr, Option.map_none, Option.map_eq_none_iff] at hfinish
      rw [hfinish]
      exact .refused (Nat.le_refl _) rfl rfl (expected_congr hstate)
    | some es =>
      rw [hr, Option.map_some] at hfinish
      obtain ⟨es', hq, hequations⟩ := Option.map_eq_some_iff.1 hfinish
      rw [hq]
      exact .read hequations
  | t :: ts, us, r, q, hstate, htokens => by
    obtain ⟨u, us, rfl, htoken, hrest⟩ := List.map_eq_cons_iff.1 htokens
    -- one step from each of the two, and the states behind it are one again once moved
    have hstep : (q.step u).map (Reader.move f) = (r.step t).map (Reader.move f) := by
      rw [← step_move, hstate, htoken, step_move]
    rw [run, run]
    cases hr : r.step t with
    | none =>
      rw [hr, Option.map_none, Option.map_eq_none_iff] at hstep
      rw [hstep]
      exact .refused (Nat.zero_le _) rfl rfl (expected_congr hstate)
    | some next =>
      rw [hr, Option.map_some] at hstep
      obtain ⟨next', hq, hnext⟩ := Option.map_eq_some_iff.1 hstep
      rw [hq]
      exact (sameOutcome_run hnext hrest).cons

/-- A refusal's message tells the word that was found, not its place. -/
theorem message_congr {r r' : Refusal} (hfound : r'.found.map (·.value) = r.found.map (·.value))
    (hexpected : r'.expected = r.expected) : r'.message = r.message := by
  obtain ⟨found, expected⟩ := r
  obtain ⟨found', expected'⟩ := r'
  obtain rfl : expected' = expected := hexpected
  cases found with
  | none =>
    obtain rfl := Option.map_eq_none_iff.1 hfound
    rfl
  | some t =>
    obtain ⟨u, rfl, hword⟩ := Option.map_eq_some_iff.1 hfound
    simp only [Refusal.message, hword]

end Reader

/-! ## Texts with the same words -/

/-- The issues of the characters of a text that begin no token. -/
def strayIssues (source : String) : List Issue := (Token.scan source).strays.map fun c => .stray c.value c.span

/-- The issue of a refusal, where it lies in a text. -/
def syntaxIssue (source : String) (r : Refusal) : Issue :=
  .syntactic r (Parsed.refusalSpan (Token.scan source).tokens source.utf8ByteSize r)

/-- **Two texts are read alike**, each after its stray characters: as the same equations up to places, or both with a
syntax error and the same message, at the tokens of one index; the index behind the last token is the end of the text. -/
inductive ReadAlike (source other : String) : Prop where
  | equations {set set' : EquationSet} (hread : parse source = ⟨some set, strayIssues source⟩)
      (hread' : parse other = ⟨some set', strayIssues other⟩)
      (hequations : set'.equations.map Equation.bare = set.equations.map Equation.bare)
  | refused {r r' : Refusal} {i : Nat}
      (hread : parse source = ⟨none, strayIssues source ++ [syntaxIssue source r]⟩)
      (hread' : parse other = ⟨none, strayIssues other ++ [syntaxIssue other r']⟩)
      (hi : i ≤ (Token.scan source).tokens.length) (hfound : r.found = (Token.scan source).tokens[i]?)
      (hfound' : r'.found = (Token.scan other).tokens[i]?) (hmessage : r'.message = r.message)

theorem map_move_eq {ts us : List (Placed Token)} (h : us.map (·.value) = ts.map (·.value)) :
    us.map (·.move fun _ => 0) = ts.map (·.move fun _ => 0) := by
  -- with all places moved to one, a token is its word
  have hplaces : ∀ xs : List (Placed Token), xs.map (·.move fun _ => 0) = (xs.map (·.value)).map (⟨·, ⟨0, 0⟩⟩) :=
    fun xs => by rw [List.map_map]; rfl
  rw [hplaces, hplaces, h]

theorem parse_of_run {source : String} {es : List Equation}
    (h : (Reader.atLineStart []).run (Token.scan source).tokens = .ok es) : parse source =
      ⟨some ⟨es, Parsed.tokensSpan (Token.scan source).tokens source.utf8ByteSize⟩, strayIssues source⟩ := by
  rw [parse, Parsed.ofTokens, Parser.run_equations, h]
  rfl

theorem parse_of_refusal {source : String} {r : Refusal}
    (h : (Reader.atLineStart []).run (Token.scan source).tokens = .error r) :
    parse source = ⟨none, strayIssues source ++ [syntaxIssue source r]⟩ := by
  rw [parse, Parsed.ofTokens, Parser.run_equations, h]
  rfl

/-- **Texts with the same words are read alike.** -/
theorem readAlike_of_words {source other : String}
    (h : (Token.scan other).tokens.map (·.value) = (Token.scan source).tokens.map (·.value)) : ReadAlike source other := by
  have hsame := Reader.sameOutcome_run (r := .atLineStart []) (q := .atLineStart []) rfl (map_move_eq h)
  generalize hrun : (Reader.atLineStart []).run (Token.scan source).tokens = a at hsame
  generalize hrun' : (Reader.atLineStart []).run (Token.scan other).tokens = b at hsame
  cases hsame with
  | read hequations =>
    refine .equations (parse_of_run hrun) (parse_of_run hrun') ?_
    simpa only [funext Equation.bare_eq_move] using hequations
  | refused hi hfound hfound' hexpected =>
    refine .refused (parse_of_refusal hrun) (parse_of_refusal hrun') hi hfound hfound' ?_
    refine Reader.message_congr ?_ hexpected
    rw [hfound, hfound', ← List.getElem?_map, ← List.getElem?_map, h]

/-- **Layout does not matter beyond the boundaries of tokens.**  The words of any text, written one blank apart, are the
same tokens without a stray character, and they are read as the text is. -/
theorem parse_respaced (source : String) : (Token.scan (Token.respaced source)).strays = [] ∧
    (Token.scan (Token.respaced source)).tokens.map (·.value) = (Token.scan source).tokens.map (·.value) ∧
    ReadAlike source (Token.respaced source) := by
  obtain ⟨hstrays, hwords⟩ := Token.scan_respaced source
  exact ⟨hstrays, hwords, readAlike_of_words hwords⟩

/-- A number without its exponent, two points, and lines that hold no token. -/
theorem parse_respaced_halves : Token.respaced "y=1..5**2e# c\n \n\nz" = "y = 1. .5 ** 2 e \n \n\n z" ∧
    (Token.scan "y = 1. .5 ** 2 e \n \n\n z").strays = [] ∧
    ReadAlike "y=1..5**2e# c\n \n\nz" "y = 1. .5 ** 2 e \n \n\n z" := by
  have hagain : Token.respaced "y=1..5**2e# c\n \n\nz" = "y = 1. .5 ** 2 e \n \n\n z" := by decide +kernel
  obtain ⟨hstrays, -, hread⟩ := parse_respaced "y=1..5**2e# c\n \n\nz"
  rw [hagain] at hstrays hread
  exact ⟨hagain, hstrays, hread⟩

end FixedStep
