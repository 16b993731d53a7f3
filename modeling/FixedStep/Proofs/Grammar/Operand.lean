import FixedStep.Proofs.Grammar.Follow
/-!
# Operand — numbers, names, calls and parentheses

A closing parenthesis makes an operand of what was opened, or the reader stops where it is missing (`Closing`).  So does
the parser of what stands in parentheses (`Encloses`), if the parser of the expressions inside follows the reader.
-/
namespace FixedStep
namespace Parser

open Reader Cursor

variable {outcome : Except Refusal (List Equation)} {done : List Equation} {part : Part} {fs : List Frame} {c : Cursor}
  {expr : Parser Expr} {n : Nat}

/-! ## Parentheses -/

theorem finish_of_frame {gs : List Frame} {o : Operand} {e : Expr} {f : Frame}
    (h : closeSum o.stop o.expr gs = (e, f :: fs)) : (afterOperand done part gs o).finish = none := by
  cases part with
  | rhs => rfl
  | unit => simp only [finish, h]

/-- **The reader where a parenthesis may close**: it does, and completes an operand, or the reader stops. -/
inductive Closing (outcome : Except Refusal (List Equation)) (done : List Equation) (part : Part) (fs : List Frame)
    (operand : Span → Expr) (start : Nat) (c : Cursor) : Prop where
  | closed {place : Span} {ts : List (Placed Token)} (hrest : c.rest = ⟨.closeParen, place⟩ :: ts)
    (hrun : outcome = (afterOperand done part fs ⟨operand place, start, place.stop, false⟩).run ts)
    (hoffers : (c.past ⟨.closeParen, place⟩ ts).Offers [])
  | refused (hnext : c.next ≠ some .closeParen) (hrun : outcome = .error (c.refuse (.token .closeParen)).refusal)
    (hle : (c.refuse (.token .closeParen)).furthest.length ≤ c.rest.length)

section

variable {operand : Span → Expr} {start : Nat}

theorem closing_of_beyond (hrun : outcome = .error c.refusal) (hbeyond : c.Beyond) (hnext : c.next ≠ some .closeParen) :
    Closing outcome done part fs operand start c := by
  refine .refused hnext ?_ ?_ <;> rw [refuse_of_beyond hbeyond]
  · exact hrun
  · exact Nat.le_of_lt hbeyond

theorem closing_of_stuck (h : Stuck outcome sumTokens c) : Closing outcome done part fs operand start c := by
  refine closing_of_beyond h.run h.beyond fun heq => ?_
  obtain ⟨token, htoken, hnext⟩ := h.next
  obtain rfl := Option.some.inj (hnext.symm.trans heq)
  revert htoken
  decide

/-- Behind an operand a parenthesis closes, if no pattern but those of the closers is looked for. -/
theorem closing_of_completed (ps : List Pattern) {operators : List Token} {gs : List Frame} {o : Operand}
    (h : Completed outcome done part operators (continuers · ++ ps) gs o c)
    (hoperators : ∀ token ∈ sumTokens, token ∈ operators) (hclosers : closers part gs = ps ++ [.token .closeParen])
    (hps : .token .closeParen ∉ ps) (hfinish : (afterOperand done part gs o).finish = none)
    (hclosed : ∀ place, Reader.close done part gs o ⟨.closeParen, place⟩ =
      some (afterOperand done part fs ⟨operand place, start, place.stop, false⟩))
    (hother : ∀ t, c.next = some t.value → t.value ≠ .closeParen → Reader.close done part gs o t = none) :
    Closing outcome done part fs operand start c := by
  by_cases hnext : c.next = some .closeParen
  · obtain ⟨⟨token, place⟩, ts, hrest, rfl⟩ := rest_of_next hnext
    refine .closed hrest ?_ (h.offers.past hrest)
    rw [h.run, hrest]
    exact run_step ((step_afterOperand done part gs o ⟨.closeParen, place⟩).trans (hclosed place))
  · have hadd : addPattern (continuers o.callable ++ ps) (.token .closeParen) =
        continuers o.callable ++ ps ++ [.token .closeParen] := by
      refine if_neg fun hmem => ?_
      rcases List.mem_append.1 hmem with hmem | hmem
      · revert hmem
        cases o.callable <;> decide
      · exact hps hmem
    refine .refused hnext ?_ ?_ <;> rw [h.offers.refuse]
    · rw [hadd, List.append_assoc, ← hclosers]
      refine h.refused hoperators (fun t ht => ?_) fun _ => hfinish
      have ht' := next_of_head ht
      exact hother t ht' fun heq => hnext (heq ▸ ht')
    · exact Nat.le_refl _

end

/-- **What becomes of a parser in parentheses**: they close and make an operand, or the reader stops inside. -/
inductive Encloses {α : Type} (outcome : Except Refusal (List Equation)) (done : List Equation) (part : Part)
    (fs : List Frame) (operand : α → Span → Expr) (start : Nat) (c : Cursor) : Option α × Cursor → Prop where
  | read {a : α} {place : Span} {after : Cursor} (hstop : after.stop = place.stop)
    (hrun : outcome = (afterOperand done part fs ⟨operand a place, start, after.stop, false⟩).run after.rest)
    (hoffers : after.Offers []) (hlt : after.rest.length < c.rest.length) :
    Encloses outcome done part fs operand start c (some a, after)
  | failed {after : Cursor} (hrun : outcome = .error after.refusal) (hlt : after.furthest.length < c.rest.length) :
    Encloses outcome done part fs operand start c (none, after)

section

variable {α : Type} {p : Parser α} {operand : α → Span → Expr} {start : Nat} {place : Span} {ts : List (Placed Token)}
  {after : Cursor}

theorem encloses {a : α} (hrest : c.rest = ⟨.openParen, place⟩ :: ts)
    (hp : p (c.past ⟨.openParen, place⟩ ts) = (some a, after)) (hle : after.rest.length ≤ ts.length)
    (h : Closing outcome done part fs (operand a) start after) : Encloses outcome done part fs operand start c
      (p.delimitedBy (just .openParen) (just .closeParen) c) := by
  have hopening : just .openParen c = (some .openParen, c.past ⟨.openParen, place⟩ ts) := just_some hrest
  have hlt : ts.length < c.rest.length := length_past hrest
  cases h with
  | closed hrest' hrun hoffers =>
    have hlt' := length_past hrest'
    rw [delimitedBy_read hopening hp (just_some hrest')]
    exact .read rfl hrun hoffers (by omega)
  | refused hnext hrun hle' =>
    rw [delimitedBy_unclosed hopening hp (Parser.just_none hnext)]
    exact .failed hrun (by omega)

theorem encloses_failed (hrest : c.rest = ⟨.openParen, place⟩ :: ts)
    (hp : p (c.past ⟨.openParen, place⟩ ts) = (none, after)) (hrun : outcome = .error after.refusal)
    (hle : after.furthest.length ≤ ts.length) : Encloses outcome done part fs operand start c
      (p.delimitedBy (just .openParen) (just .closeParen) c) := by
  have hopening : just .openParen c = (some .openParen, c.past ⟨.openParen, place⟩ ts) := just_some hrest
  rw [delimitedBy_failed hopening hp]
  exact .failed hrun (Nat.lt_of_le_of_lt hle (length_past hrest))

end

theorem close_group {gs : List Frame} {o : Operand} {e : Expr} {start : Nat}
    (h : closeSum o.stop o.expr gs = (e, .group start :: fs)) (t : Placed Token) : Reader.close done part gs o t =
      if t.value = .closeParen then some (afterOperand done part fs ⟨e, start, t.span.stop, false⟩) else none := by
  obtain ⟨token, place⟩ := t
  unfold Reader.close
  rw [h]
  cases token <;> rfl

theorem parens_encloses (hexpr : expr.Tracks n closeSum sumTokens continuers Base) {ps : List Pattern}
    (hoffers : c.Offers ps) {place : Span} {ts : List (Placed Token)} (hrest : c.rest = ⟨.openParen, place⟩ :: ts)
    (hn : c.rest.length < n + 1) (houtcome : outcome = (beforeOperand done part (.group place.start :: fs)).run ts) :
    Encloses outcome done part fs (fun e _ => e) place.start c (parens expr c) := by
  have hwaits : Waits (.group place.start :: fs) := trivial
  have hbase : Base (.group place.start :: fs) := trivial
  have hinner := hexpr.behind hbase hoffers hrest hn houtcome
  rcases hr : expr (c.past ⟨.openParen, place⟩ ts) with ⟨_ | e, after⟩ <;> rw [hr] at hinner
  · obtain ⟨hrun, hle⟩ := failed_of_follows hwaits houtcome hinner
    exact encloses_failed hrest hr hrun hle
  · cases hinner with
    | read hleft hlt' =>
      refine encloses hrest hr (Nat.le_of_lt hlt') ?_
      rcases hleft with ⟨gs, o, hcompleted, hclose⟩ | hstuck
      · rw [closeSum_base hbase] at hclose
        have hclosers : closers part gs = [.token .closeParen] := by
          rw [← closers_closeSum part o.stop o.expr gs, hclose]
          rfl
        refine closing_of_completed [] ?_ (fun _ h => h) hclosers nofun (finish_of_frame hclose)
          (fun place => ?_) fun t _ hne => ?_
        · simpa only [List.append_nil] using hcompleted
        · exact (close_group hclose _).trans (if_pos rfl)
        · exact (close_group hclose t).trans (if_neg hne)
      · exact closing_of_stuck hstuck

/-! ## Arguments -/

section

variable {f : Ident}

theorem close_arguments {gs : List Frame} {o : Operand} {e : Expr} {before : List Expr}
    (h : closeSum o.stop o.expr gs = (e, .arguments f before :: fs)) (t : Placed Token) : Reader.close done part gs o t =
      if t.value = .closeParen then
        some (afterOperand done part fs
          ⟨.call f (e :: before).reverse (f.span.through t.span), f.span.start, t.span.stop, false⟩)
      else if t.value = .comma then some (beforeOperand done part (.arguments f (e :: before) :: fs))
      else none := by
  obtain ⟨token, place⟩ := t
  unfold Reader.close
  rw [h]
  cases token <;> rfl

/-- Directly behind the opening parenthesis of a call the closing one is taken besides operands. -/
theorem begin_arguments {t : Placed Token} (h : opens t.value = false) :
    (beforeOperand done part (.arguments f [] :: fs)).step t =
      if t.value = .closeParen then
        some (afterOperand done part fs ⟨.call f [] (f.span.through t.span), f.span.start, t.span.stop, false⟩)
      else none := by
  obtain ⟨token, place⟩ := t
  cases token with
  | number | name | minus | plus | openParen => cases h
  | _ => rfl

/-- A call with these arguments, and where it ends. -/
def called (f : Ident) (args : List Expr) (closing : Span) : Expr := .call f args (f.span.through closing)

/-- A call without arguments may close where no operand begins. -/
theorem closing_bareCall (houtcome : outcome = (beforeOperand done part (.arguments f [] :: fs)).run c.rest)
    (hnone : ∀ t ∈ c.rest.head?, opens t.value = false) :
    Closing outcome done part fs (called f []) f.span.start (c.offering openers) := by
  have hadd : addPattern openers (.token .closeParen) = openers ++ [.token .closeParen] := rfl
  by_cases hnext : c.next = some .closeParen
  · obtain ⟨⟨token, place⟩, ts, hrest, rfl⟩ := rest_of_next hnext
    refine .closed hrest ?_ ((offers_offering c openers).past hrest)
    rw [houtcome, hrest]
    exact run_step rfl
  · refine .refused hnext ?_ ?_ <;> rw [(offers_offering c openers).refuse, hadd]
    · refine houtcome.trans (run_refused (fun t ht => ?_) fun _ => rfl)
      rw [begin_arguments (hnone t ht), if_neg fun heq => hnext ?_]
      rw [next_of_head ht, heq]
    · exact Nat.le_refl _

/-- Behind the last of some arguments a call may close. -/
theorem closing_call {gs : List Frame} {o : Operand} {e : Expr} {before : List Expr}
    (h : Completed outcome done part sumTokens continuers gs o c)
    (hclose : closeSum o.stop o.expr gs = (e, .arguments f before :: fs)) (hcomma : c.next ≠ some .comma) :
    Closing outcome done part fs (called f (e :: before).reverse) f.span.start
      (c.offering (continuers o.callable ++ [.token .comma])) := by
  have hclosers : closers part gs = [.token .comma] ++ [.token .closeParen] := by
    rw [← closers_closeSum part o.stop o.expr gs, hclose]
    rfl
  have hcompleted : Completed outcome done part sumTokens (continuers · ++ [.token .comma]) gs o
      (c.offering (continuers o.callable ++ [.token .comma])) :=
    ⟨h.run, h.stop, offers_offering c _, h.next, h.bare⟩
  refine closing_of_completed [.token .comma] hcompleted (fun _ h => h) hclosers (by decide) (finish_of_frame hclose)
    (fun place => ?_) fun t ht hne => ?_
  · exact (close_arguments hclose _).trans (if_pos rfl)
  · have hne' : t.value ≠ .comma := fun heq => hcomma (heq ▸ ht)
    rw [close_arguments hclose, if_neg hne, if_neg hne']

theorem arguments_more (hexpr : expr.Tracks n closeSum sumTokens continuers Base) : ∀ (k : Nat) {c : Cursor}
    {gs : List Frame} {o : Operand} {e : Expr} {before : List Expr}, c.rest.length < k → c.rest.length < n + 1 →
    Completed outcome done part sumTokens continuers gs o c → closeSum o.stop o.expr gs = (e, .arguments f before :: fs) →
    ∃ more after, separatedUpTo expr (just .comma) false k c = (more, after) ∧ after.rest.length ≤ c.rest.length ∧
      Closing outcome done part fs (called f ((e :: before).reverse ++ more)) f.span.start after
  | 0, _, _, _, _, _, hk, _, _, _ => absurd hk (Nat.not_lt_zero _)
  | k + 1, c, gs, o, e, before, hk, hn, hcompleted, hclose => by
    by_cases hcomma : c.next = some .comma
    · obtain ⟨⟨token, place⟩, ts, hrest, rfl⟩ := rest_of_next hcomma
      have hlt := length_past hrest
      have hseparator : just .comma c = (some .comma, c.past ⟨.comma, place⟩ ts) := just_some hrest
      have hnext : outcome = (beforeOperand done part (.arguments f (e :: before) :: fs)).run ts := by
        rw [hcompleted.run, hrest]
        exact run_step ((step_afterOperand done part gs o ⟨.comma, place⟩).trans (close_arguments hclose ⟨.comma, place⟩))
      have hwaits : Waits (.arguments f (e :: before) :: fs) := trivial
      have hbase : Base (.arguments f (e :: before) :: fs) := trivial
      have hitem := hexpr.behind hbase hcompleted.offers hrest hn hnext
      rcases hr : expr (c.past ⟨.comma, place⟩ ts) with ⟨_ | e', after⟩ <;> rw [hr] at hitem
      · -- no argument behind the comma: the list ends before it
        obtain ⟨hrun, hle⟩ := failed_of_follows hwaits hnext hitem
        refine ⟨[], after.backTo c, separatedUpTo_failed hseparator hr k, Nat.le_refl _, closing_of_beyond hrun ?_ ?_⟩
        · exact Nat.lt_of_le_of_lt hle hlt
        · rw [show (after.backTo c).next = c.next from rfl, hcomma]
          decide
      · cases hitem with
        | read hleft hlt' =>
          rw [separatedUpTo_some hseparator hr]
          rcases hleft with ⟨gs', o', hcompleted', hclose'⟩ | hstuck
          · rw [closeSum_base hbase] at hclose'
            obtain ⟨more, last, hmore, hle, hlast⟩ := arguments_more hexpr k (by omega) (by omega) hcompleted' hclose'
            refine ⟨e' :: more, last, by rw [hmore], by omega, ?_⟩
            rwa [List.reverse_cons, List.append_assoc] at hlast
          · rw [separatedUpTo_of_same (hstuck.just_none (by decide))]
            exact ⟨[e'], after, rfl, by omega, closing_of_stuck hstuck⟩
    · have hseparator : just .comma c = (none, c.offering (continuers o.callable ++ [.token .comma])) := by
        rw [Parser.just_none hcomma, hcompleted.offers.refuse]
        cases o.callable <;> rfl
      refine ⟨[], c.offering _, separatedUpTo_none hseparator k, Nat.le_refl _, ?_⟩
      rw [List.append_nil]
      exact closing_call hcompleted hclose hcomma

theorem arguments_encloses (hexpr : expr.Tracks n closeSum sumTokens continuers Base) {ps : List Pattern}
    (hoffers : c.Offers ps) {place : Span} {ts : List (Placed Token)} (hrest : c.rest = ⟨.openParen, place⟩ :: ts)
    (hn : c.rest.length < n + 1) (houtcome : outcome = (beforeOperand done part (.arguments f [] :: fs)).run ts) :
    Encloses outcome done part fs (called f) f.span.start c (arguments expr c) := by
  have hlt := length_past hrest
  have hbase : Base (.arguments f [] :: fs) := trivial
  have hfirst := hexpr.behind hbase hoffers hrest hn houtcome
  rcases hr : expr (c.past ⟨.openParen, place⟩ ts) with ⟨_ | e, after⟩ <;> rw [hr] at hfirst
  · have hitems : expr.separatedBy (just .comma) false (c.past ⟨.openParen, place⟩ ts) =
        (some [], after.backTo (c.past ⟨.openParen, place⟩ ts)) := separatedBy_none hr
    refine encloses hrest hitems (Nat.le_refl _) ?_
    cases hfirst with
    | failed hrun hlt' hopens =>
      -- an argument was begun, so no parenthesis closes here
      refine closing_of_beyond hrun hlt' fun heq => ?_
      obtain ⟨token, hnext, htoken⟩ := hopens
      obtain rfl := Option.some.inj (hnext.symm.trans heq)
      cases htoken
    | refused hnone =>
      have hclosing : Closing outcome done part fs (called f []) f.span.start
          ((c.past ⟨.openParen, place⟩ ts).offering openers) := closing_bareCall houtcome hnone
      exact hclosing
  · cases hfirst with
    | read hleft hlt' =>
      rcases hleft with ⟨gs, o, hcompleted, hclose⟩ | hstuck
      · rw [closeSum_base hbase] at hclose
        obtain ⟨more, last, hmore, hle, hlast⟩ :=
          arguments_more hexpr (after.rest.length + 1) (Nat.lt_succ_self _) (by omega) hcompleted hclose
        have hitems : expr.separatedBy (just .comma) false (c.past ⟨.openParen, place⟩ ts) = (some (e :: more), last) := by
          rw [separatedBy_some hr, hmore]
        exact encloses hrest hitems (Nat.le_of_lt (Nat.lt_of_le_of_lt hle hlt')) hlast
      · have hitems : expr.separatedBy (just .comma) false (c.past ⟨.openParen, place⟩ ts) = (some [e], after) := by
          rw [separatedBy_some hr, separatedUpTo_of_same (hstuck.just_none (by decide))]
        exact encloses hrest hitems (Nat.le_of_lt hlt') (closing_of_stuck hstuck)

end

/-! ## Atoms -/

/-- Behind a name that stands alone a call was looked for. -/
def atomOffers (callable : Bool) : List Pattern := if callable then [.token .openParen] else []

/-- Where an atom leaves the cursor. -/
abbrev AtomLeft (outcome : Except Refusal (List Equation)) (done : List Equation) (part : Part) (fs : List Frame)
    (start : Nat) (e : Expr) (after : Cursor) : Prop :=
  Leaves outcome done part [] atomOffers (fun gs o => gs = fs ∧ o.expr = e ∧ o.start = start) after

theorem nameOrCall_read {f : Ident} {args : Option (List Expr)} {c₁ c₂ : Cursor} (hident : ident c = (some f, c₁))
    (hargs : (arguments expr).orNot c₁ = (some args, c₂)) : nameOrCall expr c = (some (match args with
      | some args => .call f args ⟨c.nextStart, c₂.stop⟩
      | none => .name f.name ⟨c.nextStart, c₂.stop⟩), c₂) := by
  refine (mapWith_some (andThen_some hident hargs)).trans ?_
  cases args <;> rfl

/-- The reader behind a name that stands for an operand. -/
structure BehindWord (outcome : Except Refusal (List Equation)) (done : List Equation) (part : Part) (fs : List Frame)
    (c : Cursor) (name : Ident) (behind : Cursor) : Prop where
  read : ident c = (some name, behind)
  start : c.nextStart = name.span.start
  stop : behind.stop = name.span.stop
  run : outcome =
    (afterOperand done part fs ⟨.name name.name name.span, name.span.start, name.span.stop, true⟩).run behind.rest
  offers : behind.Offers []
  lt : behind.rest.length < c.rest.length

section

variable {name : Ident} {behind : Cursor}

/-- A name with an opening parenthesis: the call, or the name alone after a refusal inside. -/
theorem call_left (hexpr : expr.Tracks n closeSum sumTokens continuers Base)
    (h : BehindWord outcome done part fs c name behind) (hn : c.rest.length < n + 1)
    (hopening : behind.next = some .openParen) : ∃ e after, nameOrCall expr c = (some e, after) ∧
      AtomLeft outcome done part fs c.nextStart e after ∧ after.rest.length < c.rest.length := by
  obtain ⟨⟨token, opening⟩, ts, hrest, rfl⟩ := rest_of_next hopening
  have hlt := h.lt
  have hcall : outcome = (beforeOperand done part (.arguments name [] :: fs)).run ts := by
    rw [h.run, hrest]
    exact run_step rfl
  have hargs := arguments_encloses hexpr h.offers hrest (by omega) hcall
  rcases hr : arguments expr behind with ⟨_ | args, after⟩ <;> rw [hr] at hargs
  · cases hargs with
    | failed hrun hlt' =>
      exact ⟨_, _, nameOrCall_read h.read (orNot_none hr),
        .inr ⟨hrun, hlt', .openParen, List.mem_cons_self, hopening⟩, hlt⟩
  · cases hargs with
    | read hstop hrun hoffers hlt' =>
      refine ⟨_, _, nameOrCall_read h.read (orNot_some hr),
        .inl ⟨fs, _, ⟨hrun, rfl, hoffers, nofun, nofun⟩, rfl, ?_, h.start.symm⟩, Nat.lt_trans hlt' hlt⟩
      simp only [called, Span.through, h.start, hstop]

/-- A name that stands alone. -/
theorem word_left (h : BehindWord outcome done part fs c name behind) (hopening : behind.next ≠ some .openParen) :
    ∃ e after, nameOrCall expr c = (some e, after) ∧ AtomLeft outcome done part fs c.nextStart e after ∧
      after.rest.length < c.rest.length := by
  have hnone : just .openParen behind = (none, behind.offering [.token .openParen]) := by
    rw [Parser.just_none hopening, h.offers.refuse]
    rfl
  have hargs : arguments expr behind = (none, behind.offering [.token .openParen]) := delimitedBy_unopened hnone
  refine ⟨_, _, nameOrCall_read h.read (orNot_none hargs), .inl ⟨fs, _,
    ⟨h.run, h.stop.symm, offers_offering behind _, nofun, fun _ => hopening⟩, rfl, ?_, h.start.symm⟩, h.lt⟩
  simp only [h.start]
  rw [show ((behind.offering [.token .openParen]).backTo behind).stop = behind.stop from rfl, h.stop]

end

theorem nameOrCall_left (hexpr : expr.Tracks n closeSum sumTokens continuers Base) {ps : List Pattern}
    (hoffers : c.Offers ps) {name : String} {place : Span} {ts : List (Placed Token)}
    (hrest : c.rest = ⟨.name name, place⟩ :: ts) (hn : c.rest.length < n + 1)
    (houtcome : outcome = (beforeOperand done part fs).run c.rest) : ∃ e after, nameOrCall expr c = (some e, after) ∧
      AtomLeft outcome done part fs c.nextStart e after ∧ after.rest.length < c.rest.length := by
  have hbehind : BehindWord outcome done part fs c ⟨name, place⟩ (c.past ⟨.name name, place⟩ ts) := by
    refine ⟨select_some hrest rfl, nextStart_of_rest hrest, rfl, ?_, hoffers.past hrest, length_past hrest⟩
    rw [houtcome, hrest]
    exact run_step rfl
  by_cases hopening : (c.past ⟨.name name, place⟩ ts).next = some .openParen
  · exact call_left hexpr hbehind hn hopening
  · exact word_left hbehind hopening

theorem silent_of_opens {t : Placed Token} (h : opens t.value = false) : numberOf t = none ∧ identOf t = none := by
  obtain ⟨token, place⟩ := t
  cases token with
  | number | name | minus | plus | openParen => cases h
  | _ => exact ⟨rfl, rfl⟩

/-- A number is looked for where a sign was. -/
theorem number_none (h : ∀ t ∈ c.rest.head?, numberOf t = none) :
    number (c.offering [.somethingElse]) = (none, c.offering [.somethingElse]) :=
  select_offering h [.somethingElse]

/-- Neither a number nor a name: a parenthesis is looked for last. -/
theorem atom_of_parens (h : ∀ t ∈ c.rest.head?, numberOf t = none ∧ identOf t = none) :
    atom expr (c.offering [.somethingElse]) = parens expr (c.offering [.somethingElse, .name]) := by
  have hident : ident (c.offering [.somethingElse]) = (none, c.offering [.somethingElse, .name]) :=
    select_offering (fun t ht => (h t ht).2) [.somethingElse]
  have hname : nameOrCall expr (c.offering [.somethingElse]) = (none, c.offering [.somethingElse, .name]) :=
    mapWith_none (andThen_none hident)
  have hfirst : (number.or (nameOrCall expr)) (c.offering [.somethingElse]) =
      (none, c.offering [.somethingElse, .name]) := by
    rw [or_none (number_none fun t ht => (h t ht).1)]
    exact hname
  rw [atom, or_none hfirst]
  rfl

theorem atom_refused (hnone : ∀ t ∈ c.rest.head?, opens t.value = false) :
    atom expr (c.offering [.somethingElse]) = (none, c.offering openers) := by
  rw [atom_of_parens fun t ht => silent_of_opens (hnone t ht)]
  refine delimitedBy_unopened (just_offering (fun heq => ?_) [.somethingElse, .name])
  obtain ⟨t, ht, htoken⟩ := Option.map_eq_some_iff.1 heq
  have hopens := hnone t ht
  rw [htoken] at hopens
  cases hopens

section

variable {place : Span} {ts : List (Placed Token)}

theorem number_follows {v : Float} (hrest : c.rest = ⟨.number v, place⟩ :: ts)
    (houtcome : outcome = (beforeOperand done part fs).run c.rest) :
    Follows outcome c (AtomLeft outcome done part fs c.nextStart) (atom expr (c.offering [.somethingElse])) := by
  have hnumber : number (c.offering [.somethingElse]) = (some (.number v place),
      (c.offering [.somethingElse]).past ⟨.number v, place⟩ ts) := select_some hrest rfl
  rw [atom, or_some (or_some hnumber), nextStart_of_rest hrest]
  refine .read (.inl ⟨fs, ⟨.number v place, place.start, place.stop, false⟩,
    ⟨?_, rfl, (offers_offering c _).past hrest, nofun, nofun⟩, rfl, rfl, rfl⟩) (length_past hrest)
  rw [houtcome, hrest]
  exact run_step rfl

theorem name_follows (hexpr : expr.Tracks n closeSum sumTokens continuers Base) {name : String}
    (hrest : c.rest = ⟨.name name, place⟩ :: ts) (hn : c.rest.length < n + 1)
    (houtcome : outcome = (beforeOperand done part fs).run c.rest) :
    Follows outcome c (AtomLeft outcome done part fs c.nextStart) (atom expr (c.offering [.somethingElse])) := by
  obtain ⟨e, after, hr, hleft, hlt⟩ := nameOrCall_left hexpr (offers_offering c [.somethingElse]) hrest hn houtcome
  have hnumber : number (c.offering [.somethingElse]) = (none, c.offering [.somethingElse]) :=
    number_none fun t ht => by rw [head_of_rest hrest t ht]; rfl
  have hfirst : (number.or (nameOrCall expr)) (c.offering [.somethingElse]) = (some e, after) := by
    rw [or_none hnumber]
    exact hr
  rw [atom, or_some hfirst]
  exact .read hleft hlt

theorem group_follows (hexpr : expr.Tracks n closeSum sumTokens continuers Base)
    (hrest : c.rest = ⟨.openParen, place⟩ :: ts) (hn : c.rest.length < n + 1)
    (houtcome : outcome = (beforeOperand done part fs).run c.rest) :
    Follows outcome c (AtomLeft outcome done part fs c.nextStart) (atom expr (c.offering [.somethingElse])) := by
  have hgroup : outcome = (beforeOperand done part (.group place.start :: fs)).run ts := by
    rw [houtcome, hrest]
    exact run_step rfl
  have hparens := parens_encloses hexpr (offers_offering c [.somethingElse, .name]) hrest hn hgroup
  rw [atom_of_parens fun t ht => by rw [head_of_rest hrest t ht]; exact ⟨rfl, rfl⟩, nextStart_of_rest hrest]
  rcases hr : parens expr (c.offering [.somethingElse, .name]) with ⟨_ | e, after⟩ <;> rw [hr] at hparens
  · cases hparens with
    | failed hrun hlt => exact .failed hrun hlt ⟨.openParen, next_of_rest hrest, rfl⟩
  · cases hparens with
    | read hstop hrun hoffers hlt => exact .read (.inl ⟨fs, _, ⟨hrun, rfl, hoffers, nofun, nofun⟩, rfl, rfl, rfl⟩) hlt

end

/-- **An atom is read where the reader waits for an operand**, if no sign stands there. -/
theorem atom_follows (hexpr : expr.Tracks n closeSum sumTokens continuers Base) (hn : c.rest.length < n + 1)
    (houtcome : outcome = (beforeOperand done part fs).run c.rest) (hsign : ∀ t ∈ c.rest.head?, signOf t = none) :
    Follows outcome c (AtomLeft outcome done part fs c.nextStart) (atom expr (c.offering [.somethingElse])) := by
  by_cases hnone : ∀ t ∈ c.rest.head?, opens t.value = false
  · rw [atom_refused hnone]
    exact .refused hnone
  · rcases hrest : c.rest with _ | ⟨⟨token, place⟩, ts⟩
    · rw [hrest] at hnone
      exact absurd nofun hnone
    · have hhead := head_of_rest hrest
      cases token with
      | number => exact number_follows hrest houtcome
      | name => exact name_follows hexpr hrest hn houtcome
      | openParen => exact group_follows hexpr hrest hn houtcome
      | minus | plus => cases hsign _ (by rw [hrest]; rfl)
      | _ => exact absurd (fun t ht => by rw [hhead t ht]; rfl) hnone

end Parser
end FixedStep
