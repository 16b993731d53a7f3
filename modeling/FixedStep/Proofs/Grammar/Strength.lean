import FixedStep.Proofs.Grammar.Operand
/-!
# Strength — signs, powers and rows of operands

Signs stand before a power and close over it.  Operators of one strength join operands from the left, products inside
and sums around them (`Strength`).  The parser of expressions follows the reader by induction on the number of tokens
left (`expression_tracks`).
-/
namespace FixedStep
namespace Parser

open Reader Cursor

variable {outcome : Except Refusal (List Equation)} {done : List Equation} {part : Part} {fs : List Frame} {c : Cursor}
  {expr : Parser Expr} {n : Nat}

/-! ## Signs -/

/-- The reader behind the signs of an operand, which close over it in the frames that they left. -/
structure BehindSigns (done : List Equation) (part : Part) (fs : List Frame) (c : Cursor) (signs : List (Placed Sign))
    (fs' : List Frame) (c' : Cursor) : Prop where
  run : (beforeOperand done part fs).run c.rest = (beforeOperand done part fs').run c'.rest
  closes : ∀ stop e, closeTight stop e fs' = closeTight stop (signs.foldr signed e) fs
  next : ∀ t ∈ c'.rest.head?, signOf t = none
  begun : c' = c ∧ fs' = fs ∨
    c'.rest.length < c.rest.length ∧ Waits fs' ∧ ∃ token, c.next = some token ∧ opens token = true

theorem begin_sign {t : Placed Token} {s : Placed Sign} (h : signOf t = some s) (done : List Equation) (part : Part)
    (fs : List Frame) : opens t.value = true ∧
      (beforeOperand done part fs).step t = some (beforeOperand done part (.sign s.value s.span.start :: fs)) := by
  obtain ⟨token, place⟩ := t
  cases token <;> cases h <;> exact ⟨rfl, rfl⟩

theorem BehindSigns.cons {t : Placed Token} {ts : List (Placed Token)} {s : Placed Sign} {signs : List (Placed Sign)}
    {fs' : List Frame} {c' : Cursor} (hrest : c.rest = t :: ts) (hs : signOf t = some s)
    (h : BehindSigns done part (.sign s.value s.span.start :: fs) (c.past t ts) signs fs' c') :
    BehindSigns done part fs c (s :: signs) fs' c' := by
  obtain ⟨hopens, hstep⟩ := begin_sign hs done part fs
  have hlt := length_past hrest
  refine ⟨?_, fun stop e => ?_, h.next, .inr ⟨?_, ?_, t.value, next_of_rest hrest, hopens⟩⟩
  · rw [hrest, run_step hstep]
    exact h.run
  · rw [h.closes, closeTight]
    rfl
  · rcases h.begun with ⟨rfl, -⟩ | ⟨hlt', -⟩
    · exact hlt
    · exact Nat.lt_trans hlt' hlt
  · rcases h.begun with ⟨-, rfl⟩ | ⟨-, hwaits, -⟩
    · trivial
    · exact hwaits

theorem behind_signs (done : List Equation) (part : Part) : ∀ (n : Nat) (fs : List Frame) {c : Cursor}, c.Offers [] →
    c.rest.length < n → ∃ signs fs' c', repeatUpTo sign n c = (signs, c'.offering [.somethingElse]) ∧
      BehindSigns done part fs c signs fs' c'
  | 0, _, _, _, hn => absurd hn (Nat.not_lt_zero _)
  | n + 1, fs, c, hoffers, hn => by
    rcases head_cases signOf c with hnone | ⟨t, ts, s, hrest, hs⟩
    · have hsign : sign c = (none, c.offering [.somethingElse]) := by
        rw [sign, select_none hnone, hoffers.refuse]
        rfl
      exact ⟨[], fs, c, repeatUpTo_none hsign n, rfl, fun _ _ => rfl, hnone, .inl ⟨rfl, rfl⟩⟩
    · have hlt := length_past hrest
      obtain ⟨signs, fs', c', hsigns, hbehind⟩ :=
        behind_signs done part n (.sign s.value s.span.start :: fs) (hoffers.past hrest) (by omega)
      refine ⟨s :: signs, fs', c', ?_, hbehind.cons hrest hs⟩
      have hsign : sign c = (some s, c.past t ts) := select_some hrest hs
      rw [repeatUpTo_some hsign, hsigns]

/-! ## Signed powers -/

def tightOffers (callable : Bool) : List Pattern := atomOffers callable ++ [.token .power]

theorem power_read {atom unary : Parser Expr} {base : Expr} {exponent : Option Expr} {c₁ c₂ : Cursor}
    (hatom : atom c = (some base, c₁)) (hexponent : ((just .power).ignoreThen unary).orNot c₁ = (some exponent, c₂)) :
    power atom unary c = (some (match exponent with
      | some exponent => .binary .pow base exponent ⟨c.nextStart, c₂.stop⟩
      | none => base), c₂) := by
  refine (mapWith_some (andThen_some hatom hexponent)).trans ?_
  cases exponent <;> rfl

theorem power_none {atom unary : Parser Expr} {c₁ : Cursor} (hatom : atom c = (none, c₁)) :
    power atom unary c = (none, c₁) :=
  mapWith_none (andThen_none hatom)

/-- A parser follows the reader through operands with their signs and powers. -/
abbrev TracksTight (unary : Parser Expr) (m : Nat) : Prop :=
  unary.Tracks m closeTight tightTokens tightOffers fun _ => True

/-- Where a power leaves the cursor. -/
abbrev TightLeft (outcome : Except Refusal (List Equation)) (done : List Equation) (part : Part) (fs : List Frame)
    (e : Expr) (after : Cursor) : Prop :=
  Leaves outcome done part tightTokens tightOffers (fun gs o => closeTight o.stop o.expr gs = closeTight o.stop e fs) after

variable {unary : Parser Expr} {m : Nat}

section

variable {base : Expr} {stop : Nat} {callable : Bool} {after : Cursor}

/-- A base with an exponent. -/
theorem raised_follows (hunary : TracksTight unary m) (hm : c.rest.length < m + 1)
    (hr : atom expr (c.offering [.somethingElse]) = (some base, after)) (hlt : after.rest.length < c.rest.length)
    (h : Completed outcome done part [] atomOffers fs ⟨base, c.nextStart, stop, callable⟩ after)
    (hpower : after.next = some .power) : Follows outcome c (TightLeft outcome done part fs)
      (power (atom expr) unary (c.offering [.somethingElse])) := by
  obtain ⟨⟨token, place⟩, ts, hrest, rfl⟩ := rest_of_next hpower
  have hlt' := length_past hrest
  have hwaits : Waits (.power base c.nextStart :: fs) := trivial
  have hseparator : just .power after = (some .power, after.past ⟨.power, place⟩ ts) := just_some hrest
  have hraised : outcome = (beforeOperand done part (.power base c.nextStart :: fs)).run ts := by
    rw [h.run, hrest]
    exact run_step rfl
  have hexponent := hunary.behind trivial h.offers hrest (by omega) hraised
  rcases hx : unary (after.past ⟨.power, place⟩ ts) with ⟨_ | exponent, last⟩ <;> rw [hx] at hexponent
  · -- no exponent: the power ends before its operator
    obtain ⟨hrun, hle⟩ := failed_of_follows hwaits hraised hexponent
    rw [power_read hr (orNot_none (ignoreThen_failed hseparator hx))]
    exact .read (.inr ⟨hrun, Nat.lt_of_le_of_lt hle hlt', .power, by decide, hpower⟩) hlt
  · cases hexponent with
    | read hleft hlt'' =>
      rw [power_read hr (orNot_some (ignoreThen_some hseparator hx))]
      refine .read ?_ (Nat.lt_trans (Nat.lt_trans hlt'' hlt') hlt)
      rcases hleft with ⟨gs, o, hcompleted, hclose⟩ | hstuck
      · refine .inl ⟨gs, o, hcompleted, hclose.trans ?_⟩
        rw [closeTight, hcompleted.stop]
        rfl
      · exact .inr hstuck

/-- A base without an exponent. -/
theorem unraised_follows (hr : atom expr (c.offering [.somethingElse]) = (some base, after))
    (hlt : after.rest.length < c.rest.length)
    (h : Completed outcome done part [] atomOffers fs ⟨base, c.nextStart, stop, callable⟩ after)
    (hpower : after.next ≠ some .power) : Follows outcome c (TightLeft outcome done part fs)
      (power (atom expr) unary (c.offering [.somethingElse])) := by
  have hnone : just .power after = (none, after.offering (tightOffers callable)) := by
    rw [Parser.just_none hpower, h.offers.refuse]
    cases callable <;> rfl
  rw [power_read hr (orNot_none (ignoreThen_none hnone))]
  refine .read (.inl ⟨fs, ⟨base, c.nextStart, stop, callable⟩, ⟨h.run, h.stop, offers_offering after _,
    fun token htoken => ?_, h.bare⟩, rfl⟩) hlt
  obtain rfl := List.mem_singleton.1 htoken
  exact hpower

end

theorem power_follows (hexpr : expr.Tracks n closeSum sumTokens continuers Base) (hunary : TracksTight unary m)
    (hn : c.rest.length < n + 1) (hm : c.rest.length < m + 1)
    (houtcome : outcome = (beforeOperand done part fs).run c.rest) (hsign : ∀ t ∈ c.rest.head?, signOf t = none) :
    Follows outcome c (TightLeft outcome done part fs) (power (atom expr) unary (c.offering [.somethingElse])) := by
  have hatom := atom_follows hexpr hn houtcome hsign
  rcases hr : atom expr (c.offering [.somethingElse]) with ⟨_ | base, after⟩ <;> rw [hr] at hatom
  · rw [power_none hr]
    cases hatom with
    | failed hrun hlt hopens => exact .failed hrun hlt hopens
    | refused hnone => exact .refused hnone
  · cases hatom with
    | read hleft hlt =>
      rcases hleft with ⟨fs, ⟨base, start, stop, callable⟩, hcompleted, rfl, rfl, rfl⟩ | hstuck
      · by_cases hpower : after.next = some .power
        · exact raised_follows hunary hm hr hlt hcompleted hpower
        · exact unraised_follows hr hlt hcompleted hpower
      · have hnone : ((just .power).ignoreThen unary).orNot after = (some none, after) :=
          orNot_none (ignoreThen_none (hstuck.just_none (by decide)))
        rw [power_read hr hnone]
        exact .read (.inr (stuck_mono hstuck nofun)) hlt

/-- **Signs and a power are read as one operand.** -/
theorem signedPower_tracks (hexpr : expr.Tracks n closeSum sumTokens continuers Base) (hunary : TracksTight unary m)
    (hmn : m ≤ n) : TracksTight ((sign.repeated 0).foldr (power (atom expr) unary) signed) (m + 1) := by
  intro done part fs c _ hoffers hlt
  obtain ⟨signs, fs', c', hsigns, hbehind⟩ := behind_signs done part (c.rest.length + 1) fs hoffers (Nat.lt_succ_self _)
  have hle : c'.rest.length ≤ c.rest.length := by
    rcases hbehind.begun with ⟨rfl, -⟩ | ⟨hlt', -⟩
    · exact Nat.le_refl _
    · exact Nat.le_of_lt hlt'
  have hpower := power_follows hexpr hunary (by omega) (by omega) hbehind.run hbehind.next
  rcases hr : power (atom expr) unary (c'.offering [.somethingElse]) with ⟨_ | e, after⟩ <;> rw [hr] at hpower
  · rw [foldr_none (repeated_zero hsigns) hr]
    rcases hbehind.begun with ⟨rfl, -⟩ | ⟨hlt', hwaits, hopens⟩
    · cases hpower with
      | failed hrun hlt'' hopens => exact .failed hrun hlt'' hopens
      | refused hnone => exact .refused hnone
    · obtain ⟨hrun, hle'⟩ := failed_of_follows hwaits hbehind.run hpower
      exact .failed hrun (Nat.lt_of_le_of_lt hle' hlt') hopens
  · rw [foldr_some (repeated_zero hsigns) hr]
    cases hpower with
    | read hleft hlt' =>
      refine .read ?_ (Nat.lt_of_lt_of_le hlt' hle)
      rcases hleft with ⟨gs, o, hcompleted, hclose⟩ | hstuck
      · exact .inl ⟨gs, o, hcompleted, hclose.trans (hbehind.closes o.stop e)⟩
      · exact .inr hstuck

section

variable {close : Nat → Expr → List Frame → Expr × List Frame} {operators : List Token} {offered : Bool → List Pattern}
  {Fit : List Frame → Prop}

/-- **A parser in terms of itself follows the reader**, if it does before one token more than the one it asks. -/
theorem tracks_recursive {f : Parser Expr → Parser Expr} (hf : ∀ m p, m ≤ n → p.Tracks m close operators offered Fit →
    (f p).Tracks (m + 1) close operators offered Fit) : (recursive f).Tracks (n + 1) close operators offered Fit := by
  have hupTo : ∀ m, m ≤ n + 1 → Tracks (recursiveUpTo f m) m close operators offered Fit := by
    intro m hm
    induction m with
    | zero => exact fun _ _ _ _ _ _ hlt => absurd hlt (Nat.not_lt_zero _)
    | succ m ih => exact hf m _ (by omega) (ih (by omega))
  intro done part fs c hfit hoffers hlt
  exact hupTo (c.rest.length + 1) (by omega) done part fs c hfit hoffers (Nat.lt_succ_self _)

end

theorem unary_tracks (hexpr : expr.Tracks n closeSum sumTokens continuers Base) :
    TracksTight (Parser.unary expr) (n + 1) :=
  tracks_recursive fun _ _ hm hunary => signedPower_tracks hexpr hunary hm

/-! ## Operators of one strength -/

/-- What the reader does with operators of one strength, `close` behind their operands and `closeAll` behind them. -/
structure Strength (operatorOf : Placed Token → Option Operator) (frame : Operator → Expr → Frame)
    (close closeAll : Nat → Expr → List Frame → Expr × List Frame) (operators added : List Token)
    (offered : Bool → List Pattern) (Fit FitAll : List Frame → Prop) : Prop where
  tokens : ∀ t, (operatorOf t).isSome ↔ t.value ∈ added
  apart : ∀ token ∈ Token.openParen :: operators, token ∉ added
  step : ∀ {t op}, operatorOf t = some op → ∀ done part fs o, continue? done part fs o t =
    some (beforeOperand done part (frame op (closeAll o.stop o.expr fs).1 :: (closeAll o.stop o.expr fs).2))
  closes : ∀ {stop e e' fs fs'}, close stop e fs = close stop e' fs' → closeAll stop e fs = closeAll stop e' fs'
  joins : ∀ stop op l r fs, FitAll fs → closeAll stop r (frame op l :: fs) = (binary l (op, r), fs)
  stays : ∀ stop e fs, FitAll fs → closeAll stop e fs = (e, fs)
  fit : ∀ fs, FitAll fs → Fit fs
  fitFrame : ∀ op l fs, FitAll fs → Fit (frame op l :: fs)
  waits : ∀ op l fs, Waits (frame op l :: fs)
  offers : ∀ callable, addPattern (offered callable) .somethingElse = continuers callable

section

variable {operatorOf : Placed Token → Option Operator} {frame : Operator → Expr → Frame}
  {close closeAll : Nat → Expr → List Frame → Expr × List Frame} {operators added : List Token}
  {offered : Bool → List Pattern} {Fit FitAll : List Frame → Prop} {operand : Parser Expr}

theorem Strength.none_of_stuck (hs : Strength operatorOf frame close closeAll operators added offered Fit FitAll)
    (h : Stuck outcome operators c) (operand : Parser Expr) :
    (select .somethingElse operatorOf).andThen operand c = (none, c) := by
  obtain ⟨token, htoken, hnext⟩ := h.next
  refine andThen_none ((select_none fun t ht => ?_).trans ?_)
  · have hvalue : t.value = token := Option.some.inj ((next_of_head ht).symm.trans hnext)
    exact Option.not_isSome_iff_eq_none.1 fun hsome => hs.apart token htoken (hvalue ▸ (hs.tokens t).1 hsome)
  · rw [refuse_of_beyond h.beyond]

theorem stuck_append (h : Stuck outcome operators c) : Stuck outcome (operators ++ added) c :=
  stuck_mono h fun _ => List.mem_append_left _

theorem Strength.more (hs : Strength operatorOf frame close closeAll operators added offered Fit FitAll)
    (hoperand : operand.Tracks n close operators offered Fit) (hfit : FitAll fs) : ∀ (k : Nat) {c : Cursor}
    {gs : List Frame} {o : Operand} {l : Expr}, c.rest.length < k → c.rest.length < n →
    Completed outcome done part operators offered gs o c → closeAll o.stop o.expr gs = (l, fs) →
    ∃ more after, repeatUpTo ((select .somethingElse operatorOf).andThen operand) k c = (more, after) ∧
      after.rest.length ≤ c.rest.length ∧ Leaves outcome done part (operators ++ added) continuers
        (fun gs o => closeAll o.stop o.expr gs = (more.foldl binary l, fs)) after
  | 0, _, _, _, _, hk, _, _, _ => absurd hk (Nat.not_lt_zero _)
  | k + 1, c, gs, o, l, hk, hn, hcompleted, hclose => by
    rcases head_cases operatorOf c with hnone | ⟨t, ts, op, hrest, hop⟩
    · have hselect : (select .somethingElse operatorOf).andThen operand c =
          (none, c.offering (continuers o.callable)) := by
        refine andThen_none ((select_none hnone).trans ?_)
        rw [hcompleted.offers.refuse, hs.offers]
      refine ⟨[], c.offering (continuers o.callable), repeatUpTo_none hselect k, Nat.le_refl _, .inl ⟨gs, o,
        ⟨hcompleted.run, hcompleted.stop, offers_offering c _, fun token htoken heq => ?_, hcompleted.bare⟩, hclose⟩⟩
      rcases List.mem_append.1 htoken with htoken | htoken
      · exact hcompleted.next token htoken heq
      · obtain ⟨t, ts, hrest, rfl⟩ := rest_of_next heq
        have hsome := (hs.tokens t).2 htoken
        rw [hnone t (by rw [show c.rest = t :: ts from hrest]; rfl)] at hsome
        cases hsome
    · have hlt := length_past hrest
      have hselect : select .somethingElse operatorOf c = (some op, c.past t ts) := select_some hrest hop
      have hnext : outcome = (beforeOperand done part (frame op l :: fs)).run ts := by
        rw [hcompleted.run, hrest]
        refine run_step ((step_afterOperand done part gs o t).trans ((hs.step hop done part gs o).trans ?_))
        rw [hclose]
      have hitem := hoperand.behind (hs.fitFrame op l fs hfit) hcompleted.offers hrest (by omega) hnext
      rcases hr : operand (c.past t ts) with ⟨_ | r, after⟩ <;> rw [hr] at hitem
      · -- no operand behind the operator: the row ends before it
        obtain ⟨hrun, hle⟩ := failed_of_follows (hs.waits op l fs) hnext hitem
        refine ⟨[], after.backTo c, repeatUpTo_none (andThen_failed hselect hr) k, Nat.le_refl _,
          .inr ⟨hrun, Nat.lt_of_le_of_lt hle hlt, t.value, ?_, next_of_rest hrest⟩⟩
        refine List.mem_cons_of_mem _ (List.mem_append_right _ ((hs.tokens t).1 ?_))
        rw [hop]
        rfl
      · cases hitem with
        | read hleft hlt' =>
          rw [repeatUpTo_some (andThen_some hselect hr)]
          rcases hleft with ⟨gs', o', hcompleted', hclose'⟩ | hstuck
          · have hjoined := (hs.closes hclose').trans (hs.joins o'.stop op l r fs hfit)
            obtain ⟨more, last, hmore, hle, hlast⟩ := hs.more hoperand hfit k (by omega) (by omega) hcompleted' hjoined
            exact ⟨(op, r) :: more, last, by rw [hmore], by omega, hlast⟩
          · rw [repeatUpTo_of_same (hs.none_of_stuck hstuck operand)]
            exact ⟨[(op, r)], after, rfl, by omega, .inr (stuck_append hstuck)⟩

/-- **A row of operands follows the reader**, if its operands do. -/
theorem Strength.chain (hs : Strength operatorOf frame close closeAll operators added offered Fit FitAll)
    (hoperand : operand.Tracks n close operators offered Fit) :
    (Parser.chain operand operatorOf).Tracks n closeAll (operators ++ added) continuers FitAll := by
  intro done part fs c hfit hoffers hlt
  have hfirst := hoperand done part fs c (hs.fit fs hfit) hoffers hlt
  rcases hr : operand c with ⟨_ | e, after⟩ <;> rw [hr] at hfirst
  · rw [Parser.chain, foldl_none hr]
    cases hfirst with
    | failed hrun hlt' hopens => exact .failed hrun hlt' hopens
    | refused hnone => exact .refused hnone
  · cases hfirst with
    | read hleft hlt' =>
      rcases hleft with ⟨gs, o, hcompleted, hclose⟩ | hstuck
      · have hclosed := (hs.closes hclose).trans (hs.stays o.stop e fs hfit)
        obtain ⟨more, last, hmore, hle, hlast⟩ :=
          hs.more hoperand hfit (after.rest.length + 1) (Nat.lt_succ_self _) (by omega) hcompleted hclosed
        rw [Parser.chain, foldl_some hr (repeated_zero hmore)]
        refine .read ?_ (Nat.lt_of_le_of_lt hle hlt')
        rcases hlast with ⟨gs', o', hcompleted', hclose'⟩ | hstuck
        · exact .inl ⟨gs', o', hcompleted', hclose'.trans (hs.stays _ _ fs hfit).symm⟩
        · exact .inr hstuck
      · rw [Parser.chain, foldl_some hr (repeated_zero (repeatUpTo_of_same (hs.none_of_stuck hstuck operand) _))]
        exact .read (.inr (stuck_append hstuck)) hlt'

end

/-- A sum may wait around a product. -/
def FitsProduct : List Frame → Prop
  | [] | .group _ :: _ | .arguments _ _ :: _ | .sum _ _ :: _ => True
  | _ => False

theorem productStrength : Strength productOperatorOf .product closeTight closeProduct tightTokens [.star, .slash]
    tightOffers (fun _ => True) FitsProduct where
  tokens t := by
    obtain ⟨token, place⟩ := t
    cases token <;> simp [productOperatorOf]
  apart := by decide
  step := by
    rintro ⟨token, place⟩ op h done part fs o
    cases token <;> cases h <;> rfl
  closes := by
    intro stop e e' fs fs' h
    rw [closeProduct_eq, closeProduct_eq, h]
  joins stop op l r fs _ := by
    rw [closeProduct_eq, closeTight]
    · rfl
    all_goals exact nofun
  stays stop e fs hfit := by
    rcases fs with _ | ⟨_ | _ | _ | _ | _ | _, gs⟩ <;> first | exact hfit.elim | rfl
  fit _ _ := trivial
  fitFrame _ _ _ _ := trivial
  waits _ _ _ := trivial
  offers callable := by cases callable <;> rfl

theorem sumStrength : Strength sumOperatorOf .sum closeProduct closeSum productTokens [.plus, .minus]
    continuers FitsProduct Base where
  tokens t := by
    obtain ⟨token, place⟩ := t
    cases token <;> simp [sumOperatorOf]
  apart := by decide
  step := by
    rintro ⟨token, place⟩ op h done part fs o
    cases token <;> cases h <;> rfl
  closes := by
    intro stop e e' fs fs' h
    rw [closeSum_eq, closeSum_eq, h]
  joins stop op l r fs _ := rfl
  stays stop e fs hfit := closeSum_base hfit stop e
  fit fs hfit := by
    rcases fs with _ | ⟨_ | _ | _ | _ | _ | _, gs⟩ <;> first | exact hfit.elim | trivial
  fitFrame _ _ _ _ := trivial
  waits _ _ _ := trivial
  offers callable := by cases callable <;> rfl

/-- **The parser of expressions follows the reader.** -/
theorem expression_tracks (n : Nat) : expression.Tracks n closeSum sumTokens continuers Base := by
  have hexpression : expression.Tracks (n + 1) closeSum sumTokens continuers Base := by
    refine tracks_recursive fun m expr _ hexpr => ?_
    exact sumStrength.chain (productStrength.chain (unary_tracks hexpr))
  intro done part fs c hfit hoffers hlt
  exact hexpression done part fs c hfit hoffers (Nat.lt_succ_of_lt hlt)

end Parser
end FixedStep
