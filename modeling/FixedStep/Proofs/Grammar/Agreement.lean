import FixedStep.Proofs.Grammar.Strength
/-!
# Agreement — the parser of equations reads what the reader reads

Line by line the parser follows the reader: an equation is read or the reader stops in it, and behind an equation either
a new line begins or nothing does.  So both give the same equations for any row of tokens, or blame the same token for
the same reasons (`run_equations`), although the one goes back where an attempt fails and the other never does.
-/
namespace FixedStep
namespace Parser

open Reader Cursor

variable {outcome : Except Refusal (List Equation)} {done : List Equation} {c : Cursor}

/-! ## Targets -/

/-- What becomes of a target with its right-hand side and colon: the unit is to follow, or the reader stops. -/
inductive TargetFollows (outcome : Except Refusal (List Equation)) (done : List Equation) (c : Cursor) :
    Option (Ident × Option Expr) × Cursor → Prop where
  | read {target : Ident} {rhs : Option Expr} {after : Cursor} (hstart : c.nextStart = target.span.start)
    (hrun : outcome = (beforeOperand done (.unit target rhs) []).run after.rest) (hoffers : after.Offers [])
    (hlt : after.rest.length < c.rest.length) : TargetFollows outcome done c (some (target, rhs), after)
  | failed {after : Cursor} (hrun : outcome = .error after.refusal) (hlt : after.furthest.length < c.rest.length) :
    TargetFollows outcome done c (none, after)

theorem close_rhs {name : Ident} {gs : List Frame} {o : Operand} {e : Expr} (h : closeSum o.stop o.expr gs = (e, []))
    (t : Placed Token) : Reader.close done (.rhs name) gs o t =
      if t.value = .colon then some (beforeOperand done (.unit name (some e)) []) else none := by
  obtain ⟨token, place⟩ := t
  unfold Reader.close
  rw [h]
  cases token <;> rfl

theorem closers_part {part : Part} {gs : List Frame} {o : Operand} {e : Expr}
    (h : closeSum o.stop o.expr gs = (e, [])) : closers part gs = closers part [] := by
  rw [← closers_closeSum part o.stop o.expr gs, h]

/-- The reader at the colon behind a right-hand side, or where it stops for want of one. -/
theorem colon_follows {rhs : Expr} {name : Ident} {after : Cursor} (hstart : c.nextStart = name.span.start)
    (hlt : after.rest.length < c.rest.length)
    (h : Leaves outcome done (.rhs name) sumTokens continuers (fun gs o => closeSum o.stop o.expr gs = (rhs, [])) after)
    {before : Parser (Ident × Option Expr)} (hbefore : before c = (some (name, some rhs), after)) :
    TargetFollows outcome done c (before.thenIgnore (just .colon) c) := by
  rcases h with ⟨gs, o, hcompleted, hclose⟩ | hstuck
  · by_cases hnext : after.next = some .colon
    · obtain ⟨⟨token, place⟩, ts, hrest, rfl⟩ := rest_of_next hnext
      have hcolon : just .colon after = (some .colon, after.past ⟨.colon, place⟩ ts) := just_some hrest
      rw [thenIgnore_some hbefore hcolon]
      refine .read hstart ?_ (hcompleted.offers.past hrest) (Nat.lt_trans (length_past hrest) hlt)
      rw [hcompleted.run, hrest]
      exact run_step ((step_afterOperand _ _ gs o _).trans (close_rhs hclose ⟨.colon, place⟩))
    · rw [thenIgnore_failed hbefore (Parser.just_none hnext), hcompleted.offers.refuse]
      refine .failed ?_ hlt
      rw [hcompleted.refused (fun _ h => h) (fun t ht => ?_) fun _ => rfl, closers_part hclose]
      · cases o.callable <;> rfl
      · rw [close_rhs hclose, if_neg fun heq => hnext ?_]
        rw [next_of_head ht, heq]
  · rw [thenIgnore_failed hbefore (hstuck.just_none (by decide))]
    exact .failed hstuck.run (Nat.lt_trans hstuck.beyond hlt)

/-- The reader behind the name of a target. -/
structure BehindName (outcome : Except Refusal (List Equation)) (done : List Equation) (c : Cursor) (name : Ident)
    (behind : Cursor) : Prop where
  read : ident c = (some name, behind)
  start : c.nextStart = name.span.start
  run : outcome = (afterTarget done name).run behind.rest
  offers : behind.Offers []
  lt : behind.rest.length < c.rest.length

/-- A target with an equals sign. -/
theorem rhs_follows {name : Ident} {behind : Cursor} (h : BehindName outcome done c name behind)
    (hequals : behind.next = some .equals) : TargetFollows outcome done c (target c) := by
  obtain ⟨⟨token, place⟩, ts, hrest, rfl⟩ := rest_of_next hequals
  have hlt := length_past hrest
  have hseparator : just .equals behind = (some .equals, behind.past ⟨.equals, place⟩ ts) := just_some hrest
  have hwaits : Waits [] := trivial
  have hbase : Base [] := trivial
  have hrhs : outcome = (beforeOperand done (.rhs name) []).run ts := by
    rw [h.run, hrest]
    exact run_step rfl
  have hexpr := (expression_tracks behind.rest.length).behind hbase h.offers hrest (Nat.lt_succ_self _) hrhs
  rcases hr : expression (behind.past ⟨.equals, place⟩ ts) with ⟨_ | rhs, after⟩ <;> rw [hr] at hexpr
  · -- no right-hand side: a colon would have to stand in the place of the equals sign
    obtain ⟨hrun, hle⟩ := failed_of_follows hwaits hrhs hexpr
    have hbeyond : (after.backTo behind).Beyond := Nat.lt_of_le_of_lt hle hlt
    have hcolon : just .colon (after.backTo behind) = (none, after.backTo behind) := by
      rw [Parser.just_none, refuse_of_beyond hbeyond]
      rw [show (after.backTo behind).next = behind.next from rfl, hequals]
      decide
    rw [target, thenIgnore_failed (andThen_some h.read (orNot_none (ignoreThen_failed hseparator hr))) hcolon]
    exact .failed hrun (Nat.lt_trans hbeyond h.lt)
  · cases hexpr with
    | read hleft hlt' =>
      refine colon_follows h.start (Nat.lt_trans (Nat.lt_trans hlt' hlt) h.lt) ?_
        (andThen_some h.read (orNot_some (ignoreThen_some hseparator hr)))
      rcases hleft with ⟨gs, o, hcompleted, hclose⟩ | hstuck
      · exact .inl ⟨gs, o, hcompleted, hclose.trans (closeSum_base hbase o.stop rhs)⟩
      · exact .inr hstuck

/-- A target that is declared only. -/
theorem bare_follows {name : Ident} {behind : Cursor} (h : BehindName outcome done c name behind)
    (hequals : behind.next ≠ some .equals) : TargetFollows outcome done c (target c) := by
  have hnone : just .equals behind = (none, behind.offering [.token .equals]) := by
    rw [Parser.just_none hequals, h.offers.refuse]
    rfl
  have hbare := andThen_some h.read (orNot_none (ignoreThen_none (q := expression) hnone))
  by_cases hcolon : behind.next = some .colon
  · obtain ⟨⟨token, place⟩, ts, hrest, rfl⟩ := rest_of_next hcolon
    have hrest' : (behind.offering [.token .equals]).rest = ⟨.colon, place⟩ :: ts := hrest
    rw [target, thenIgnore_some hbare (just_some hrest')]
    refine .read h.start ?_ ((offers_offering behind _).past hrest') (Nat.lt_trans (length_past hrest) h.lt)
    rw [h.run, hrest]
    exact run_step rfl
  · rw [target, thenIgnore_failed hbare (just_offering hcolon [.token .equals])]
    refine .failed (h.run.trans (run_refused (fun t ht => ?_) fun _ => rfl)) h.lt
    have hne : t.value ≠ .equals := fun heq => hequals (heq ▸ next_of_head ht)
    have hne' : t.value ≠ .colon := fun heq => hcolon (heq ▸ next_of_head ht)
    obtain ⟨token, place⟩ := t
    cases token
    case equals => exact absurd rfl hne
    case colon => exact absurd rfl hne'
    all_goals rfl

theorem target_follows {ps : List Pattern} (hoffers : c.Offers ps) {name : String} {place : Span}
    {ts : List (Placed Token)} (hrest : c.rest = ⟨.name name, place⟩ :: ts)
    (houtcome : outcome = (atLineStart done).run c.rest) : TargetFollows outcome done c (target c) := by
  have hbehind : BehindName outcome done c ⟨name, place⟩ (c.past ⟨.name name, place⟩ ts) := by
    refine ⟨select_some hrest rfl, nextStart_of_rest hrest, ?_, hoffers.past hrest, length_past hrest⟩
    rw [houtcome, hrest]
    exact run_step rfl
  by_cases hequals : (c.past ⟨.name name, place⟩ ts).next = some .equals
  · exact rhs_follows hbehind hequals
  · exact bare_follows hbehind hequals

/-! ## Equations -/

/-- **Behind an equation**: the reader is behind its unit, which nothing continues, or it has stopped further on. -/
def EquationLeft (outcome : Except Refusal (List Equation)) (done : List Equation) (eq : Equation) (c : Cursor) : Prop :=
  (∃ target rhs e fs o, Completed outcome done (.unit target rhs) sumTokens continuers fs o c ∧
      closeSum o.stop o.expr fs = (e, []) ∧ eq = ⟨target, rhs, e, ⟨target.span.start, o.stop⟩⟩) ∨
    Stuck outcome sumTokens c

/-- What becomes of an equation where a line may start. -/
inductive EquationFollows (outcome : Except Refusal (List Equation)) (done : List Equation) (c : Cursor) :
    Option Equation × Cursor → Prop where
  | read {eq : Equation} {after : Cursor} (hleft : EquationLeft outcome done eq after)
    (hlt : after.rest.length < c.rest.length) : EquationFollows outcome done c (some eq, after)
  | failed {after : Cursor} (hrun : outcome = .error after.refusal) (hlt : after.furthest.length < c.rest.length)
    (hname : ∃ name, c.next = some (.name name)) : EquationFollows outcome done c (none, after)
  | refused (hnone : ∀ name, c.next ≠ some (.name name)) :
    EquationFollows outcome done c (none, c.offering [.token .newline, .name])

theorem equation_read {name : Ident} {rhs : Option Expr} {unit : Expr} {c₁ c₂ : Cursor}
    (htarget : target c = (some (name, rhs), c₁)) (hunit : expression c₁ = (some unit, c₂)) :
    equation c = (some ⟨name, rhs, unit, ⟨c.nextStart, c₂.stop⟩⟩, c₂) :=
  mapWith_some (andThen_some htarget hunit)

theorem equation_none {c₁ : Cursor} (htarget : target c = (none, c₁)) : equation c = (none, c₁) :=
  mapWith_none (andThen_none htarget)

theorem equation_failed {found : Ident × Option Expr} {c₁ c₂ : Cursor} (htarget : target c = (some found, c₁))
    (hunit : expression c₁ = (none, c₂)) : equation c = (none, c₂) :=
  mapWith_none (andThen_failed htarget hunit)

/-- **An equation is read where a line starts.** -/
theorem equation_follows (houtcome : outcome = (atLineStart done).run c.rest) :
    EquationFollows outcome done c (equation (c.offering [.token .newline])) := by
  rcases head_cases identOf c with hnone | ⟨⟨token, place⟩, ts, ident, hrest, hident⟩
  · have hident : ident (c.offering [.token .newline]) = (none, c.offering [.token .newline, .name]) :=
      select_offering hnone [.token .newline]
    rw [equation_none (thenIgnore_none (andThen_none hident))]
    refine .refused fun name hname => ?_
    obtain ⟨t, ts, hrest, ht⟩ := rest_of_next hname
    have hsilent := hnone t (by rw [hrest]; rfl)
    rw [identOf, ht] at hsilent
    cases hsilent
  · cases token <;> cases hident
    rename_i name
    have hname : ∃ name, c.next = some (.name name) := ⟨name, next_of_rest hrest⟩
    have htarget := target_follows (offers_offering c [.token .newline]) hrest houtcome
    rcases hr : target (c.offering [.token .newline]) with ⟨_ | ⟨name, rhs⟩, after⟩ <;> rw [hr] at htarget
    · rw [equation_none hr]
      cases htarget with
      | failed hrun hlt => exact .failed hrun hlt hname
    · cases htarget with
      | read hstart hrun hoffers hlt =>
        have hwaits : Waits [] := trivial
        have hbase : Base [] := trivial
        have hunit := expression_tracks (after.rest.length + 1) done (.unit name rhs) [] after hbase hoffers
          (Nat.lt_succ_self _)
        rw [← hrun] at hunit
        rcases hu : expression after with ⟨_ | unit, last⟩ <;> rw [hu] at hunit
        · obtain ⟨hrun', hle⟩ := failed_of_follows hwaits hrun hunit
          rw [equation_failed hr hu]
          exact .failed hrun' (Nat.lt_of_le_of_lt hle hlt) hname
        · cases hunit with
          | read hleft hlt' =>
            rw [equation_read hr hu]
            refine .read ?_ (Nat.lt_trans hlt' hlt)
            rcases hleft with ⟨gs, o, hcompleted, hclose⟩ | hstuck
            · refine .inl ⟨name, rhs, unit, gs, o, hcompleted, hclose.trans (closeSum_base hbase o.stop unit), ?_⟩
              rw [hcompleted.stop, ← hstart]
            · exact .inr hstuck

/-! ## Lines -/

/-- The parser of newlines passes those that stand where a line may start. -/
theorem newlines_pass : ∀ (k : Nat) {c : Cursor}, c.Offers [] → c.rest.length < k →
    ∃ (found : List Token) (c' : Cursor), repeatUpTo (just .newline) k c = (found, c'.offering [.token .newline]) ∧
      c'.next ≠ some .newline ∧ c'.rest.length ≤ c.rest.length ∧
        ∀ done, (atLineStart done).run c.rest = (atLineStart done).run c'.rest
  | 0, _, _, hk => absurd hk (Nat.not_lt_zero _)
  | k + 1, c, hoffers, hk => by
    by_cases hnext : c.next = some .newline
    · obtain ⟨⟨token, place⟩, ts, hrest, rfl⟩ := rest_of_next hnext
      have hlt := length_past hrest
      have hnewline : just .newline c = (some .newline, c.past ⟨.newline, place⟩ ts) := just_some hrest
      obtain ⟨found, c', hfound, hnext', hle, hrun⟩ := newlines_pass k (hoffers.past hrest) (by omega)
      refine ⟨.newline :: found, c', by rw [repeatUpTo_some hnewline, hfound], hnext', by omega, fun done => ?_⟩
      rw [hrest, ← hrun done]
      exact run_step rfl
    · have hnewline : just .newline c = (none, c.offering [.token .newline]) := by
        rw [Parser.just_none hnext, hoffers.refuse]
        rfl
      exact ⟨[], c, repeatUpTo_none hnewline k, hnext, Nat.le_refl _, fun _ => rfl⟩

/-- **Where the lines end**: at the end of the text with these equations, or at a token that the reader stops at. -/
def Settled (outcome : Except Refusal (List Equation)) (es : List Equation) (c : Cursor) : Prop :=
  c.next ≠ some .newline ∧ (c.rest = [] ∧ outcome = .ok es ∨
    c.rest ≠ [] ∧ outcome = .error ((c.refuse (.token .newline)).refuse .endOfInput).refusal)

theorem settled_of_beyond {es : List Equation} (hrun : outcome = .error c.refusal) (hbeyond : c.Beyond)
    (hnext : c.next ≠ some .newline) : Settled outcome es c := by
  refine ⟨hnext, .inr ⟨fun hnil => ?_, ?_⟩⟩
  · rw [Beyond, hnil] at hbeyond
    exact absurd hbeyond (Nat.not_lt_zero _)
  · rw [refuse_of_beyond hbeyond, refuse_of_beyond hbeyond]
    exact hrun

/-- Where a line may start and no equation does, the lines end. -/
theorem settled_of_refused (houtcome : outcome = (atLineStart done).run c.rest) (hnext : c.next ≠ some .newline)
    (hnone : ∀ name, c.next ≠ some (.name name)) :
    Settled outcome done.reverse (c.offering [.token .newline, .name]) := by
  refine ⟨hnext, ?_⟩
  by_cases hnil : c.rest = []
  · refine .inl ⟨hnil, ?_⟩
    rw [houtcome, hnil]
    rfl
  · refine .inr ⟨hnil, ?_⟩
    rw [(offers_offering c _).refuse, (offers_offering _ _).refuse]
    refine houtcome.trans (run_refused (fun t ht => ?_) fun h => absurd h hnil)
    have ht' := next_of_head ht
    obtain ⟨token, place⟩ := t
    cases token
    case newline => exact absurd ht' hnext
    case name => exact absurd ht' (hnone _)
    all_goals rfl

/-- The lines end where a parser of an equation that failed is gone back from. -/
theorem settled_of_none {after : Cursor} (houtcome : outcome = (atLineStart done).run c.rest)
    (hnext : c.next ≠ some .newline) (h : EquationFollows outcome done c (none, after)) :
    Settled outcome done.reverse (after.backTo (c.offering [.token .newline])) := by
  cases h with
  | failed hrun hlt hname => exact settled_of_beyond hrun hlt hnext
  | refused hnone => exact settled_of_refused houtcome hnext hnone

theorem close_unit {name : Ident} {rhs : Option Expr} {gs : List Frame} {o : Operand} {e : Expr}
    (h : closeSum o.stop o.expr gs = (e, [])) (t : Placed Token) : Reader.close done (.unit name rhs) gs o t =
      if t.value = .newline then some (atLineStart (⟨name, rhs, e, ⟨name.span.start, o.stop⟩⟩ :: done)) else none := by
  obtain ⟨token, place⟩ := t
  unfold Reader.close
  rw [h]
  cases token <;> rfl

/-- Behind an equation that no newline follows, the lines end. -/
theorem settled_of_completed {target : Ident} {rhs : Option Expr} {e : Expr} {fs : List Frame} {o : Operand}
    (h : Completed outcome done (.unit target rhs) sumTokens continuers fs o c)
    (hclose : closeSum o.stop o.expr fs = (e, [])) (hnext : c.next ≠ some .newline) :
    Settled outcome (⟨target, rhs, e, ⟨target.span.start, o.stop⟩⟩ :: done).reverse
      (c.offering (continuers o.callable ++ [.token .newline])) := by
  refine ⟨hnext, ?_⟩
  by_cases hnil : c.rest = []
  · refine .inl ⟨hnil, ?_⟩
    rw [h.run, hnil, Reader.run, finish, hclose]
  · refine .inr ⟨hnil, ?_⟩
    rw [(offers_offering c _).refuse, (offers_offering _ _).refuse]
    rw [h.refused (fun _ h => h) (fun t ht => ?_) fun h => absurd h hnil, closers_part hclose]
    · cases o.callable <;> rfl
    · rw [close_unit hclose, if_neg fun heq => hnext ?_]
      rw [next_of_head ht, heq]

/-- **Line after line**, behind the first equation. -/
theorem lines_settle : ∀ (k : Nat) {c : Cursor} {done : List Equation} {eq : Equation}, c.rest.length < k →
    EquationLeft outcome done eq c → ∃ more after,
      separatedUpTo equation ((just .newline).repeated 1) true k c = (more, after) ∧
        Settled outcome ((eq :: done).reverse ++ more) after
  | 0, _, _, _, hk, _ => absurd hk (Nat.not_lt_zero _)
  | k + 1, c, done, eq, hk, hleft => by
    rcases hleft with ⟨name, rhs, e, fs, o, hcompleted, hclose, rfl⟩ | hstuck
    · by_cases hnext : c.next = some .newline
      · obtain ⟨⟨token, place⟩, ts, hrest, rfl⟩ := rest_of_next hnext
        have hlt := length_past hrest
        have hnewline : just .newline c = (some .newline, c.past ⟨.newline, place⟩ ts) := just_some hrest
        obtain ⟨found, c', hfound, hnext', hle, hrun⟩ :=
          newlines_pass c.rest.length (hcompleted.offers.past hrest) hlt
        have hseparator : (just .newline).repeated 1 c = (some (.newline :: found), c'.offering [.token .newline]) :=
          repeated_one (by rw [repeatUpTo_some hnewline, hfound])
        have hline : outcome =
            (atLineStart (⟨name, rhs, e, ⟨name.span.start, o.stop⟩⟩ :: done)).run c'.rest := by
          rw [← hrun, hcompleted.run, hrest]
          exact run_step ((step_afterOperand _ _ fs o _).trans (close_unit hclose ⟨.newline, place⟩))
        have hequation := equation_follows hline
        rcases hr : equation (c'.offering [.token .newline]) with ⟨_ | eq', after⟩ <;> rw [hr] at hequation
        · -- the newlines trail
          refine ⟨[], _, separatedUpTo_failed hseparator hr k, ?_⟩
          rw [List.append_nil]
          exact settled_of_none hline hnext' hequation
        · cases hequation with
          | read hleft' hlt' =>
            obtain ⟨more, last, hmore, hlast⟩ := lines_settle k (by omega) hleft'
            refine ⟨eq' :: more, last, by rw [separatedUpTo_some hseparator hr, hmore], ?_⟩
            rwa [List.reverse_cons, List.append_assoc] at hlast
      · have hnewline : just .newline c = (none, c.offering (continuers o.callable ++ [.token .newline])) := by
          rw [Parser.just_none hnext, hcompleted.offers.refuse]
          cases o.callable <;> rfl
        refine ⟨[], _, separatedUpTo_none (repeated_one_none (repeatUpTo_none hnewline _)) k, ?_⟩
        rw [List.append_nil]
        exact settled_of_completed hcompleted hclose hnext
    · have hseparator : (just .newline).repeated 1 c = (none, c) :=
        repeated_one_none (repeatUpTo_none (hstuck.just_none (by decide)) _)
      refine ⟨[], c, separatedUpTo_of_same hseparator _, settled_of_beyond hstuck.run hstuck.beyond fun heq => ?_⟩
      obtain ⟨token, htoken, hnext⟩ := hstuck.next
      obtain rfl := Option.some.inj (hnext.symm.trans heq)
      revert htoken
      decide

/-- **The parser of equations settles** where the reader does. -/
theorem equations_settle (tokens : List (Placed Token)) : ∃ es after, Settled ((atLineStart []).run tokens) es after ∧
    (newlines.ignoreThen (equation.separatedBy ((just .newline).repeated 1) true)) (.start tokens) = (some es, after) := by
  have hstart : (Cursor.start tokens).Offers [] := .inr ⟨rfl, rfl⟩
  obtain ⟨found, c, hfound, hnext, -, hrun⟩ := newlines_pass (tokens.length + 1) hstart (Nat.lt_succ_self _)
  have hnewlines : newlines (.start tokens) = (some found, c.offering [.token .newline]) := repeated_zero hfound
  have houtcome : (atLineStart []).run tokens = (atLineStart []).run c.rest := hrun []
  have hequation := equation_follows houtcome
  rcases hr : equation (c.offering [.token .newline]) with ⟨_ | eq, after⟩ <;> rw [hr] at hequation
  · exact ⟨[], _, settled_of_none houtcome hnext hequation, ignoreThen_some hnewlines (separatedBy_none hr)⟩
  · cases hequation with
    | read hleft hlt =>
      obtain ⟨more, last, hmore, hlast⟩ := lines_settle (after.rest.length + 1) (Nat.lt_succ_self _) hleft
      refine ⟨eq :: more, last, hlast, ignoreThen_some hnewlines ?_⟩
      rw [separatedBy_some hr, hmore]

/-- **The parser of equations and the reader agree** on every row of tokens: they read the same equations, or stop at the
same token, where the same could have stood. -/
theorem run_equations (tokens : List (Placed Token)) : equations.run tokens = (atLineStart []).run tokens := by
  obtain ⟨es, after, ⟨hnext, hends⟩, hes⟩ := equations_settle tokens
  have hnewlines : newlines after = (some [], after.refuse (.token .newline)) := by
    refine (repeated_zero (repeatUpTo_none (Parser.just_none hnext) _)).trans ?_
    rw [backTo_refuse]
  have hall : equations (.start tokens) = (some es, after.refuse (.token .newline)) := thenIgnore_some hes hnewlines
  have hrest : (after.refuse (.token .newline)).rest = after.rest := by
    rw [← backTo_refuse]
    rfl
  rw [Parser.run]
  rcases hends with ⟨hnil, hrun⟩ | ⟨hnonempty, hrun⟩
  · rw [thenIgnore_some hall (endOfInput_some (hrest.trans hnil)), hrun]
  · rw [thenIgnore_failed hall (endOfInput_none fun hnil => hnonempty (hrest.symm.trans hnil)), hrun]

end Parser
end FixedStep
