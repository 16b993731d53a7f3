import FixedStep.Proofs.Dimension
import FixedStep.Proofs.Lowered
/-!
# Typing — the dimension system, and that lowering decides it

An expression's dimension is derived from the set of equations, the catalog and the constants alone (`HasUnit`); no
scope is built and nothing is lowered.  Lowering finds the dimension of every expression that has one
(`lower_of_hasUnit`) and of no other (`hasUnit_of_lower`), so sets that resolve are those whose equations are all well
dimensioned.
-/
namespace FixedStep

/-! ## Rules -/

/-- A name is a state variable of the set. -/
def EquationSet.Declares (set : EquationSet) (name : String) : Prop := ∃ eq ∈ set.equations, eq.target.name = name

instance (set : EquationSet) (name : String) : Decidable (set.Declares name) :=
  inferInstanceAs (Decidable (∃ eq ∈ set.equations, eq.target.name = name))

/-- A name is no state variable, no constant and no reading of the clock. -/
structure EquationSet.LeavesFree (set : EquationSet) (constants : Constants) (name : String) : Prop where
  undeclared : ¬ set.Declares name
  notConstant : constants.find? name = none
  notClock : name ≠ "t" ∧ name ≠ "dt"

/-- The value of an exponent known beforehand: a number or a constant, under signs. -/
inductive Fixed (set : EquationSet) (constants : Constants) : Expr → Float → Prop where
  | number (v : Float) (sp : Span) : Fixed set constants (.number v sp) v
  | constant {name : String} (sp : Span) {q : Quantity} :
    ¬ set.Declares name → constants.find? name = some q → Fixed set constants (.name name sp) q.value
  | neg {e : Expr} (sp : Span) {k : Float} : Fixed set constants e k → Fixed set constants (.signed .neg e sp) (-k)
  | plus {e : Expr} (sp : Span) {k : Float} : Fixed set constants e k → Fixed set constants (.signed .plus e sp) k

/-- A function takes arguments of some dimensions to a result of another: its rule says so, or for want of a rule they
are the declared ones. -/
def Function.Yields (g : Function) (args : List Dimension) (d : Dimension) : Prop :=
  (∃ rule, g.rule = some rule ∧ rule args = .ok d) ∨
    (g.rule = none ∧ args = g.signature.inputs ∧ d = g.signature.output)

mutual

/-- **The dimension of an expression.**  A state variable hides a constant, a constant hides the clock, and a function
is never a value. -/
inductive HasUnit (set : EquationSet) (catalog : Catalog) (constants : Constants) : Expr → Dimension → Prop where
  | number (v : Float) (sp : Span) : HasUnit set catalog constants (.number v sp) .one
  | state {eq : Equation} (sp : Span) {d : Dimension} :
    eq ∈ set.equations → eq.unit.unit = .ok d → HasUnit set catalog constants (.name eq.target.name sp) d
  | constant {name : String} (sp : Span) {q : Quantity} :
    ¬ set.Declares name → constants.find? name = some q → HasUnit set catalog constants (.name name sp) q.dimension
  | clock {name : String} (sp : Span) :
    ¬ set.Declares name → constants.find? name = none → name = "t" ∨ name = "dt" →
      HasUnit set catalog constants (.name name sp) .time
  | signed (sign : Sign) {e : Expr} (sp : Span) {d : Dimension} :
    HasUnit set catalog constants e d → HasUnit set catalog constants (.signed sign e sp) d
  | sum {op : Operator} {l r : Expr} (sp : Span) {d : Dimension} : op = .add ∨ op = .sub →
    HasUnit set catalog constants l d → HasUnit set catalog constants r d →
      HasUnit set catalog constants (.binary op l r sp) d
  | product {l r : Expr} (sp : Span) {a b d : Dimension} :
    HasUnit set catalog constants l a → HasUnit set catalog constants r b → Dimension.Combines (· + ·) a b d →
      HasUnit set catalog constants (.binary .mul l r sp) d
  | quotient {l r : Expr} (sp : Span) {a b d : Dimension} :
    HasUnit set catalog constants l a → HasUnit set catalog constants r b → Dimension.Combines (· - ·) a b d →
      HasUnit set catalog constants (.binary .div l r sp) d
  | plainPower {l r : Expr} (sp : Span) : HasUnit set catalog constants l .one →
    HasUnit set catalog constants r .one → HasUnit set catalog constants (.binary .pow l r sp) .one
  | power {l r : Expr} (sp : Span) {a d : Dimension} {k : Float} : a ≠ .one → HasUnit set catalog constants l a →
    HasUnit set catalog constants r .one → Fixed set constants r k → a.power k = .ok d →
      HasUnit set catalog constants (.binary .pow l r sp) d
  | call {f : Ident} {args : List Expr} (sp : Span) {g : Function} {units : List Dimension} {d : Dimension} :
    set.LeavesFree constants f.name → catalog.find? f.name = some g → args.length = g.arity →
      HasUnits set catalog constants args units → g.Yields units d →
        HasUnit set catalog constants (.call f args sp) d

/-- The dimensions of arguments. -/
inductive HasUnits (set : EquationSet) (catalog : Catalog) (constants : Constants) :
    List Expr → List Dimension → Prop where
  | nil : HasUnits set catalog constants [] []
  | cons {e : Expr} {es : List Expr} {d : Dimension} {ds : List Dimension} : HasUnit set catalog constants e d →
    HasUnits set catalog constants es ds → HasUnits set catalog constants (e :: es) (d :: ds)

end

/-- **A set of equations is well dimensioned**: no target is defined twice, every unit states a dimension, and every
right-hand side has the dimension stated for its target. -/
structure EquationSet.WellDimensioned (set : EquationSet) (catalog : Catalog) (constants : Constants) : Prop where
  distinct : (set.equations.map (·.target.name)).Nodup
  stated : ∀ eq ∈ set.equations, ∃ d, eq.unit.unit = .ok d
  equal : ∀ eq ∈ set.equations, ∀ rhs, eq.rhs = some rhs →
    ∃ d, eq.unit.unit = .ok d ∧ HasUnit set catalog constants rhs d

/-! ## Calls -/

theorem Function.matchInputs_eq_ok {name : String} {output d : Dimension} :
    ∀ {i : Nat} {args inputs : List Dimension}, args.length = inputs.length →
      (matchInputs name output i args inputs = .ok d ↔ args = inputs ∧ d = output)
  | _, [], [], _ => by
    rw [matchInputs]
    · exact ⟨fun h => ⟨rfl, (Except.ok.inj h).symm⟩, fun h => congrArg _ h.2.symm⟩
    · nofun
  | i, a :: args, b :: inputs, hlen => by
    rw [matchInputs]
    split
    · rename_i hab
      rw [matchInputs_eq_ok (Nat.succ.inj hlen), List.cons.injEq]
      simp only [hab, true_and]
    · rename_i hab
      exact ⟨nofun, fun h => absurd (List.cons.inj h.1).1 hab⟩

/-- **A call's dimension** is judged by the rule, or by the declared dimensions. -/
theorem Function.resultUnit_eq_ok {g : Function} {args : List Dimension} {d : Dimension} (hlen : args.length = g.arity) :
    g.resultUnit args = .ok d ↔ g.Yields args d := by
  rw [resultUnit, if_neg (by simp only [hlen, ne_eq, not_true_eq_false, not_false_eq_true]), Yields]
  cases g.rule with
  | some rule => simp
  | none => simp [Checked.ofExcept_eq_ok, matchInputs_eq_ok (show args.length = g.signature.inputs.length from hlen)]

namespace Scope

/-! ## Operations -/

theorem operationUnit_sum {op : Operator} {e : Expr} {n : Node} {a b d : Dimension} (hop : op = .add ∨ op = .sub) :
    operationUnit op e a n b = .ok d ↔ a = b ∧ d = a := by
  have hsame : operationUnit op e a n b = if a = b then .ok a else refuse (.mismatch (.operands op e.text) a b) := by
    rcases hop with rfl | rfl <;> rfl
  rw [hsame]
  split
  · rename_i hab
    exact ⟨fun h => ⟨hab, (Except.ok.inj h).symm⟩, fun h => congrArg _ h.2.symm⟩
  · rename_i hab
    exact ⟨fun h => absurd h refuse_ne_ok, fun h => absurd h.1 hab⟩

theorem operationUnit_mul {e : Expr} {n : Node} {a b d : Dimension} :
    operationUnit .mul e a n b = .ok d ↔ Dimension.Combines (· + ·) a b d :=
  Checked.ofOption_eq_ok.trans Dimension.mul?_eq_some

theorem operationUnit_div {e : Expr} {n : Node} {a b d : Dimension} :
    operationUnit .div e a n b = .ok d ↔ Dimension.Combines (· - ·) a b d :=
  Checked.ofOption_eq_ok.trans Dimension.div?_eq_some

/-- A base with units needs an exponent known beforehand. -/
theorem operationUnit_pow {e : Expr} {n : Node} {a b d : Dimension} :
    operationUnit .pow e a n b = .ok d ↔
      b = .one ∧ (a = .one ∧ d = .one ∨ a ≠ .one ∧ ∃ k, n.constant? = some k ∧ a.power k = .ok d) := by
  unfold operationUnit
  -- the exponent is judged first, and its value matters only under a base with units
  by_cases hb : b = .one
  · by_cases ha : a = .one
    · subst hb ha
      simp only [show Dimension.one.isOne = true from rfl, true_and, ne_eq, not_true_eq_false, false_and, or_false]
      exact ⟨fun h => (Except.ok.inj h).symm, fun h => h ▸ rfl⟩
    · have hunits : a.isOne = false := Bool.eq_false_iff.2 fun h => ha (Dimension.isOne_iff.1 h)
      subst hb
      simp only [show Dimension.one.isOne = true from rfl, hunits, ha, true_and, false_and, false_or, ne_eq,
        not_false_eq_true]
      cases n.constant? with
      | none => exact ⟨fun h => absurd h refuse_ne_ok, nofun⟩
      | some k =>
        refine Checked.mapRefusal_eq_ok.trans (Checked.ofExcept_eq_ok.trans ?_)
        exact ⟨fun h => ⟨k, rfl, h⟩, fun ⟨_, hk, h⟩ => Option.some.inj hk ▸ h⟩
  · have hplain : b.isOne = false := Bool.eq_false_iff.2 fun h => hb (Dimension.isOne_iff.1 h)
    simp only [hplain, hb, false_and, iff_false]
    exact refuse_ne_ok

variable {set : EquationSet} {catalog : Catalog} {constants : Constants} {s : Scope}

/-! ## Names -/

theorem declares_of_slot? (hb : Built set catalog constants s) {name : String} {slot : Nat}
    (h : s.slot? name = some slot) :
    ∃ eq ∈ set.equations, eq.target.name = name ∧ eq.unit.unit = .ok (s.unitOf slot) := by
  obtain ⟨hnames, hunits⟩ := declare_ok hb.declared
  obtain ⟨v, hv, rfl⟩ := getElem?_of_slot? h
  have hname := congrArg (·[slot]?) hnames
  have hunit := congrArg (·[slot]?) hunits
  simp only [List.getElem?_map, hv, Option.map_some] at hname hunit
  obtain ⟨eq, heq, htarget⟩ := Option.map_eq_some_iff.1 hname.symm
  rw [heq, Option.map_some, Option.some.injEq] at hunit
  refine ⟨eq, List.mem_of_getElem? heq, htarget, ?_⟩
  rw [← hunit, unitOf, hv]
  rfl

theorem slot?_of_mem (hb : Built set catalog constants s) {eq : Equation} (hmem : eq ∈ set.equations) :
    ∃ slot, s.slot? eq.target.name = some slot ∧ eq.unit.unit = .ok (s.unitOf slot) := by
  obtain ⟨hnames, hunits⟩ := declare_ok hb.declared
  obtain ⟨i, hi⟩ := List.mem_iff_getElem?.1 hmem
  have hname := congrArg (·[i]?) hnames
  have hunit := congrArg (·[i]?) hunits
  simp only [List.getElem?_map, hi, Option.map_some] at hname hunit
  obtain ⟨v, hv, hvname⟩ := Option.map_eq_some_iff.1 hname
  rw [hv, Option.map_some, Option.some.injEq] at hunit
  have hnodup := (nodup_of_declare hb.declared).1
  rw [← hnames] at hnodup
  refine ⟨i, hvname ▸ slot?_of_getElem? hnodup hv, ?_⟩
  rw [← hunit, unitOf, hv]
  rfl

theorem slot?_eq_none_iff (hb : Built set catalog constants s) {name : String} :
    s.slot? name = none ↔ ¬ set.Declares name := by
  rw [slot?_eq_none, (declare_ok hb.declared).1]
  simp only [List.mem_map, EquationSet.Declares]

theorem reading?_eq_none {name : String} : reading? name = none ↔ name ≠ "t" ∧ name ≠ "dt" := by
  unfold reading?
  split
  · rename_i h
    exact ⟨nofun, fun h' => absurd h h'.1⟩
  · rename_i h
    split
    · rename_i h'
      exact ⟨nofun, fun h'' => absurd h' h''.2⟩
    · rename_i h'
      exact ⟨fun _ => ⟨h, h'⟩, fun _ => rfl⟩

theorem reading?_eq_some {name : String} (h : name = "t" ∨ name = "dt") : ∃ reading, reading? name = some reading := by
  rcases h with rfl | rfl
  · exact ⟨.time, rfl⟩
  · exact ⟨.step, rfl⟩

theorem value?_eq_none (hb : Built set catalog constants s) {name : String} :
    s.value? name = none ↔ set.LeavesFree constants name := by
  have hslot : s.slot? name = none ↔ ¬ set.Declares name := slot?_eq_none_iff hb
  have hreading : reading? name = none ↔ name ≠ "t" ∧ name ≠ "dt" := reading?_eq_none
  unfold value?
  rw [hb.constants_eq]
  cases hs : s.slot? name with
  | some slot => exact ⟨nofun, fun h => by cases hs.symm.trans (hslot.2 h.undeclared)⟩
  | none =>
    cases hc : constants.find? name with
    | some q => exact ⟨nofun, fun h => by cases hc.symm.trans h.notConstant⟩
    | none =>
      cases hr : reading? name with
      | some r => exact ⟨nofun, fun h => by cases hr.symm.trans (hreading.2 h.notClock)⟩
      | none => exact ⟨fun _ => ⟨hslot.1 hs, hc, hreading.1 hr⟩, fun _ => rfl⟩

theorem free_of_function (hb : Built set catalog constants s) {name : String} {g : Function}
    (h : s.find? name = some (.function g)) : set.LeavesFree constants name ∧ catalog.find? name = some g := by
  obtain ⟨hv, hg⟩ := find?_eq_function.1 h
  rw [hb.functions_eq name] at hg
  split at hg
  · exact ⟨(value?_eq_none hb).1 hv, hg⟩
  · cases hg

theorem function_of_free (hb : Built set catalog constants s) {name : String} {g : Function}
    (hcalled : name ∈ calledNames set) (hfree : set.LeavesFree constants name) (hg : catalog.find? name = some g) :
    s.find? name = some (.function g) := by
  have hv := (value?_eq_none hb).2 hfree
  exact find?_eq_function.2 ⟨hv, by rw [hb.functions_eq name, if_pos ⟨List.mem_append_left _ hcalled, hv⟩, hg]⟩

/-! ## Soundness -/

theorem lowerName_ok (hb : Built set catalog constants s) {name : String} (sp : Span) {n : Node} {d : Dimension}
    (h : s.lowerName name = .ok (n, d)) :
    HasUnit set catalog constants (.name name sp) d ∧
      ∀ k, n.constant? = some k ↔ Fixed set constants (.name name sp) k := by
  unfold lowerName at h
  unfold find? at h
  rw [hb.constants_eq] at h
  -- the cases follow the order of the search: targets, constants, readings of the clock, functions
  cases hs : s.slot? name with
  | some slot =>
    rw [hs] at h
    cases h
    obtain ⟨eq, hmem, rfl, hunit⟩ := declares_of_slot? hb hs
    refine ⟨.state sp hmem hunit, fun k => ⟨nofun, fun hfixed => ?_⟩⟩
    cases hfixed with
    | constant _ hundeclared _ => exact absurd ⟨eq, hmem, rfl⟩ hundeclared
  | none =>
    have hundeclared := (slot?_eq_none_iff hb).1 hs
    rw [hs] at h
    cases hc : constants.find? name with
    | some q =>
      rw [hc] at h
      cases h
      refine ⟨.constant sp hundeclared hc, fun k => ⟨fun hk => ?_, fun hfixed => ?_⟩⟩
      · obtain rfl := Option.some.inj hk
        exact .constant sp hundeclared hc
      · cases hfixed with
        | constant _ _ hq =>
          rw [hc] at hq
          cases hq
          rfl
    | none =>
      rw [hc] at h
      cases hr : reading? name with
      | none =>
        rw [hr] at h
        cases hf : s.functions.find? name <;> rw [hf] at h <;> cases h
      | some reading =>
        rw [hr] at h
        cases h
        have hname : name = "t" ∨ name = "dt" := by
          by_cases ht : name = "t"
          · exact .inl ht
          · refine .inr (Decidable.byContradiction fun hdt => ?_)
            cases (reading?_eq_none.2 ⟨ht, hdt⟩).symm.trans hr
        refine ⟨.clock sp hundeclared hc hname, fun k => ⟨nofun, fun hfixed => ?_⟩⟩
        cases hfixed with
        | constant _ _ hq => cases hc.symm.trans hq

/-- **A lowered exponent is constant** when it was a number or a constant under signs. -/
theorem constant?_iff (hb : Built set catalog constants s) : ∀ {e : Expr} {n : Node} {d : Dimension},
    s.lower e = .ok (n, d) → ∀ k, n.constant? = some k ↔ Fixed set constants e k
  | .number v sp, _, _, h, k => by
    cases h
    exact ⟨fun hk => Option.some.inj hk ▸ .number v sp, fun hk => by cases hk; rfl⟩
  | .name name sp, _, _, h, k => by
    rw [lower] at h
    exact (lowerName_ok hb sp h).2 k
  | .signed .neg e sp, _, _, h, k => by
    obtain ⟨n, hn, rfl⟩ := lower_neg.1 h
    have ih := constant?_iff hb hn
    rw [Node.constant?, Option.map_eq_some_iff]
    constructor
    · rintro ⟨v, hv, rfl⟩
      exact .neg sp ((ih v).1 hv)
    · intro hk
      cases hk with
      | neg _ hv => exact ⟨_, (ih _).2 hv, rfl⟩
  | .signed .plus e sp, _, _, h, k => by
    rw [lower] at h
    rw [constant?_iff hb h k]
    constructor
    · exact fun hk => .plus sp hk
    · intro hk
      cases hk with
      | plus _ hk => exact hk
  | .binary op l r sp, _, _, h, k => by
    obtain ⟨ln, ld, rn, rd, -, -, -, rfl⟩ := lower_binary.1 h
    -- an operation is never constant, not even one of two numbers
    constructor <;> intro hk <;> cases hk
  | .call f args sp, _, _, h, k => by
    obtain ⟨g, lowered, -, -, -, rfl⟩ := lower_call.1 h
    constructor <;> intro hk <;> cases hk

theorem hasUnit_of_operation {op : Operator} {e l r : Expr} {sp : Span} {n : Node} {a b d : Dimension}
    (hl : HasUnit set catalog constants l a) (hr : HasUnit set catalog constants r b)
    (hn : ∀ k, n.constant? = some k ↔ Fixed set constants r k) (h : operationUnit op e a n b = .ok d) :
    HasUnit set catalog constants (.binary op l r sp) d := by
  cases op with
  | add =>
    obtain ⟨rfl, rfl⟩ := (operationUnit_sum (.inl rfl)).1 h
    exact .sum sp (.inl rfl) hl hr
  | sub =>
    obtain ⟨rfl, rfl⟩ := (operationUnit_sum (.inr rfl)).1 h
    exact .sum sp (.inr rfl) hl hr
  | mul => exact .product sp hl hr (operationUnit_mul.1 h)
  | div => exact .quotient sp hl hr (operationUnit_div.1 h)
  | pow =>
    obtain ⟨rfl, ⟨rfl, rfl⟩ | ⟨hunits, k, hk, hpower⟩⟩ := operationUnit_pow.1 h
    · exact .plainPower sp hl hr
    · exact .power sp hunits hl hr ((hn k).1 hk) hpower

theorem callee_ok (hb : Built set catalog constants s) {name : String} {count : Nat} {g : Function}
    (h : s.callee name count = .ok g) :
    set.LeavesFree constants name ∧ catalog.find? name = some g ∧ count = g.arity := by
  obtain ⟨hfound, hcount⟩ := callee_eq_ok.1 h
  obtain ⟨hfree, hg⟩ := free_of_function hb hfound
  exact ⟨hfree, hg, hcount⟩

theorem lowerAll_length : ∀ {es : List Expr} {lowered : List (Node × Dimension)}, s.lowerAll es = .ok lowered →
    lowered.length = es.length
  | [], _, h => by
    cases h
    rfl
  | e :: es, _, h => by
    obtain ⟨first, rest, -, hrest, rfl⟩ := lowerAll_cons.1 h
    exact congrArg _ (lowerAll_length hrest)

mutual

/-- **Soundness**: the dimension found by lowering is derivable. -/
theorem hasUnit_of_lower (hb : Built set catalog constants s) : ∀ {e : Expr} {n : Node} {d : Dimension},
    s.lower e = .ok (n, d) → HasUnit set catalog constants e d
  | .number v sp, _, _, h => by
    cases h
    exact .number v sp
  | .name name sp, _, _, h => by
    rw [lower] at h
    exact (lowerName_ok hb sp h).1
  | .signed .neg e sp, _, _, h => by
    obtain ⟨n, hn, rfl⟩ := lower_neg.1 h
    exact .signed .neg sp (hasUnit_of_lower hb hn)
  | .signed .plus e sp, _, _, h => by
    rw [lower] at h
    exact .signed .plus sp (hasUnit_of_lower hb h)
  | .binary op l r sp, _, _, h => by
    obtain ⟨ln, ld, rn, rd, hl, hr, hd, rfl⟩ := lower_binary.1 h
    exact hasUnit_of_operation (hasUnit_of_lower hb hl) (hasUnit_of_lower hb hr) (constant?_iff hb hr) hd
  | .call f args sp, _, _, h => by
    obtain ⟨g, lowered, hcallee, hargs, hd, rfl⟩ := lower_call.1 h
    obtain ⟨hfree, hg, hcount⟩ := callee_ok hb hcallee
    have hlen : (lowered.map (·.2)).length = g.arity := by rw [List.length_map, lowerAll_length hargs, hcount]
    exact .call sp hfree hg hcount (hasUnits_of_lowerAll hb hargs) ((Function.resultUnit_eq_ok hlen).1 hd)

theorem hasUnits_of_lowerAll (hb : Built set catalog constants s) :
    ∀ {es : List Expr} {lowered : List (Node × Dimension)}, s.lowerAll es = .ok lowered →
      HasUnits set catalog constants es (lowered.map (·.2))
  | [], _, h => by
    cases h
    exact .nil
  | e :: es, _, h => by
    obtain ⟨⟨n, d⟩, rest, hfirst, hrest, rfl⟩ := lowerAll_cons.1 h
    exact .cons (hasUnit_of_lower hb hfirst) (hasUnits_of_lowerAll hb hrest)

end

/-! ## Completeness -/

theorem lowerName_of_hasUnit (hb : Built set catalog constants s) {name : String} {sp : Span} {d : Dimension}
    (h : HasUnit set catalog constants (.name name sp) d) : ∃ n, s.lowerName name = .ok (n, d) := by
  unfold lowerName find?
  rw [hb.constants_eq]
  cases h with
  | state _ hmem hunit =>
    obtain ⟨slot, hslot, hstated⟩ := slot?_of_mem hb hmem
    obtain rfl := Except.ok.inj (hstated.symm.trans hunit)
    rw [hslot]
    exact ⟨_, rfl⟩
  | constant _ hundeclared hq =>
    rw [(slot?_eq_none_iff hb).2 hundeclared, hq]
    exact ⟨_, rfl⟩
  | clock _ hundeclared hnone hname =>
    obtain ⟨reading, hreading⟩ := reading?_eq_some hname
    rw [(slot?_eq_none_iff hb).2 hundeclared, hnone, hreading]
    exact ⟨_, rfl⟩

theorem operation_of_hasUnit {op : Operator} {e l r : Expr} {sp : Span} {d : Dimension}
    (h : HasUnit set catalog constants (.binary op l r sp) d) : ∃ a b, HasUnit set catalog constants l a ∧
      HasUnit set catalog constants r b ∧
        ∀ n : Node, (∀ k, n.constant? = some k ↔ Fixed set constants r k) → operationUnit op e a n b = .ok d := by
  cases h with
  | sum _ hop hl hr => exact ⟨d, d, hl, hr, fun n _ => (operationUnit_sum hop).2 ⟨rfl, rfl⟩⟩
  | product _ hl hr hd => exact ⟨_, _, hl, hr, fun n _ => operationUnit_mul.2 hd⟩
  | quotient _ hl hr hd => exact ⟨_, _, hl, hr, fun n _ => operationUnit_div.2 hd⟩
  | plainPower _ hl hr => exact ⟨_, _, hl, hr, fun n _ => operationUnit_pow.2 ⟨rfl, .inl ⟨rfl, rfl⟩⟩⟩
  | power _ hunits hl hr hk hpower =>
    exact ⟨_, _, hl, hr, fun n hn => operationUnit_pow.2 ⟨rfl, .inr ⟨hunits, _, (hn _).2 hk, hpower⟩⟩⟩

theorem callee_of_free (hb : Built set catalog constants s) {name : String} {count : Nat} {g : Function}
    (hcalled : name ∈ calledNames set) (hfree : set.LeavesFree constants name) (hg : catalog.find? name = some g)
    (hcount : count = g.arity) : s.callee name count = .ok g :=
  callee_eq_ok.2 ⟨function_of_free hb hcalled hfree hg, hcount⟩

mutual

/-- **Completeness**: an expression with a dimension is lowered, and that dimension is found. -/
theorem lower_of_hasUnit (hb : Built set catalog constants s) : ∀ {e : Expr} {d : Dimension},
    (∀ name ∈ calledIn e, name ∈ calledNames set) → HasUnit set catalog constants e d → ∃ n, s.lower e = .ok (n, d)
  | .number v sp, _, _, h => by
    cases h
    exact ⟨_, rfl⟩
  | .name name sp, _, _, h => by
    rw [lower]
    exact lowerName_of_hasUnit hb h
  | .signed .neg e sp, _, hcalled, .signed _ _ h => by
    have hoperand : ∀ name ∈ calledIn e, name ∈ calledNames set := hcalled
    obtain ⟨n, hn⟩ := lower_of_hasUnit hb hoperand h
    exact ⟨_, lower_neg.2 ⟨n, hn, rfl⟩⟩
  | .signed .plus e sp, _, hcalled, .signed _ _ h => by
    rw [lower]
    exact lower_of_hasUnit hb hcalled h
  | .binary op l r sp, d, hcalled, h => by
    obtain ⟨a, b, hl, hr, hd⟩ := operation_of_hasUnit (e := .binary op l r sp) h
    obtain ⟨ln, hln⟩ := lower_of_hasUnit hb (fun name hname => hcalled name (List.mem_append_left _ hname)) hl
    obtain ⟨rn, hrn⟩ := lower_of_hasUnit hb (fun name hname => hcalled name (List.mem_append_right _ hname)) hr
    exact ⟨_, lower_binary.2 ⟨ln, a, rn, b, hln, hrn, hd rn (constant?_iff hb hrn), rfl⟩⟩
  | .call f args sp, d, hcalled, .call _ hfree hg hcount hargs hd => by
    obtain ⟨lowered, hlowered, hunits⟩ := lowerAll_of_hasUnits hb
      (fun name hname => hcalled name (List.mem_cons_of_mem _ hname)) hargs
    have hcallee := callee_of_free hb (hcalled f.name List.mem_cons_self) hfree hg hcount
    have hlen := (List.length_map (·.2)).trans ((lowerAll_length hlowered).trans hcount)
    have hresult := (Function.resultUnit_eq_ok hlen).2 (hunits ▸ hd)
    exact ⟨_, lower_call.2 ⟨_, lowered, hcallee, hlowered, hresult, rfl⟩⟩

theorem lowerAll_of_hasUnits (hb : Built set catalog constants s) : ∀ {es : List Expr} {ds : List Dimension},
    (∀ name ∈ calledInAll es, name ∈ calledNames set) → HasUnits set catalog constants es ds →
      ∃ lowered, s.lowerAll es = .ok lowered ∧ lowered.map (·.2) = ds
  | [], _, _, .nil => ⟨[], rfl, rfl⟩
  | e :: es, _, hcalled, .cons h hs => by
    obtain ⟨n, hn⟩ := lower_of_hasUnit hb (fun name hname => hcalled name (List.mem_append_left _ hname)) h
    obtain ⟨rest, hrest, rfl⟩ := lowerAll_of_hasUnits hb
      (fun name hname => hcalled name (List.mem_append_right _ hname)) hs
    exact ⟨_, lowerAll_cons.2 ⟨_, rest, hn, hrest, rfl⟩, rfl⟩

end

mutual

theorem called_known : ∀ {e : Expr} {d : Dimension}, HasUnit set catalog constants e d →
    ∀ name ∈ calledIn e, (catalog.find? name).isSome
  | .number _ _, _, _, _, hname => absurd hname List.not_mem_nil
  | .name _ _, _, _, _, hname => absurd hname List.not_mem_nil
  | .signed _ _ _, _, .signed _ _ h, name, hname => called_known h name hname
  | .binary op l r sp, _, h, name, hname => by
    obtain ⟨a, b, hl, hr, -⟩ := operation_of_hasUnit (e := .binary op l r sp) h
    rcases List.mem_append.1 hname with hname | hname
    · exact called_known hl name hname
    · exact called_known hr name hname
  | .call f args _, _, .call _ _ hg _ hargs _, name, hname => by
    rcases List.mem_cons.1 hname with rfl | hname
    · rw [hg, Option.isSome_some]
    · exact called_known_all hargs name hname

theorem called_known_all : ∀ {es : List Expr} {ds : List Dimension}, HasUnits set catalog constants es ds →
    ∀ name ∈ calledInAll es, (catalog.find? name).isSome
  | [], _, .nil, _, hname => absurd hname List.not_mem_nil
  | _ :: _, _, .cons h hs, name, hname => by
    rcases List.mem_append.1 hname with hname | hname
    · exact called_known h name hname
    · exact called_known_all hs name hname

end

/-! ## Sets of equations -/

theorem called_of_mem {eq : Equation} (hmem : eq ∈ set.equations) {rhs : Expr} (hrhs : eq.rhs = some rhs) :
    ∀ name ∈ calledIn rhs, name ∈ calledNames set := fun _ hname =>
  List.mem_flatMap.2 ⟨rhs, List.mem_filterMap.2 ⟨eq, hmem, hrhs⟩, hname⟩

theorem build_of_wellDimensioned (h : set.WellDimensioned catalog constants) :
    ∃ s, build set catalog constants = .ok s := by
  obtain ⟨vars, hvars⟩ := exists_declare [] 0 h.distinct (fun _ hname => absurd hname List.not_mem_nil) h.stated
  refine ⟨_, build_iff.2 ⟨vars, hvars, fun name hname _ => ?_, rfl⟩⟩
  obtain ⟨rhs, hrhs, hcalled⟩ := List.mem_flatMap.1 hname
  obtain ⟨eq, hmem, heq⟩ := List.mem_filterMap.1 hrhs
  obtain ⟨d, -, hd⟩ := h.equal eq hmem rhs heq
  exact called_known hd name hcalled

/-- **Equations are lowered** when each right-hand side has the dimension stated for its target. -/
theorem lowerEquations_iff (hb : Built set catalog constants s) : ∀ {eqs : List Equation},
    (∀ eq ∈ eqs, eq ∈ set.equations) → ((∃ updates, s.lowerEquations eqs = .ok updates) ↔
      ∀ eq ∈ eqs, ∀ rhs, eq.rhs = some rhs → ∃ d, eq.unit.unit = .ok d ∧ HasUnit set catalog constants rhs d)
  | [], _ => ⟨nofun, fun _ => ⟨[], rfl⟩⟩
  | eq :: eqs, hsub => by
    have hmem := hsub eq List.mem_cons_self
    have hrest : ∀ e ∈ eqs, e ∈ set.equations := fun e he => hsub e (List.mem_cons_of_mem _ he)
    have ih := lowerEquations_iff hb hrest
    rw [List.forall_mem_cons, ← ih]
    simp only [lowerEquations_cons]
    constructor
    · rintro ⟨updates, ⟨hrhs, h⟩ | ⟨rhs, slot, node, rest, hrhs, hslot, hlower, h, -⟩⟩
      · exact ⟨fun rhs hrhs' => absurd (hrhs.symm.trans hrhs') nofun, updates, h⟩
      · obtain ⟨place, hplace, hunit⟩ := slot?_of_mem hb hmem
        obtain rfl := Option.some.inj (hslot.symm.trans hplace)
        refine ⟨fun rhs' hrhs' => ?_, rest, h⟩
        obtain rfl := Option.some.inj (hrhs.symm.trans hrhs')
        exact ⟨_, hunit, hasUnit_of_lower hb hlower⟩
    · rintro ⟨hhead, rest, h⟩
      cases hrhs : eq.rhs with
      | none => exact ⟨rest, .inl ⟨rfl, h⟩⟩
      | some rhs =>
        obtain ⟨d, hd, hrhsUnit⟩ := hhead rhs hrhs
        obtain ⟨slot, hslot, hunit⟩ := slot?_of_mem hb hmem
        obtain rfl := Except.ok.inj (hunit.symm.trans hd)
        obtain ⟨node, hnode⟩ := lower_of_hasUnit hb (called_of_mem hmem hrhs) hrhsUnit
        exact ⟨_, .inr ⟨rhs, slot, node, rest, rfl, hslot, hnode, h, rfl⟩⟩

end Scope

theorem wellDimensioned_of_resolve {set : EquationSet} {catalog : Catalog} {constants : Constants} {r : Resolved}
    (h : resolve set catalog constants = .ok r) : set.WellDimensioned catalog constants := by
  simp only [resolve, bind_eq_ok, pure_eq_ok] at h
  obtain ⟨s, hbuild, updates, hupdates, -⟩ := h
  have hb := Scope.built_of_build hbuild
  refine ⟨(Scope.nodup_of_declare hb.declared).1, fun eq hmem => ?_, ?_⟩
  · obtain ⟨slot, -, hunit⟩ := Scope.slot?_of_mem hb hmem
    exact ⟨_, hunit⟩
  · exact (Scope.lowerEquations_iff hb fun _ hmem => hmem).1 ⟨updates, hupdates⟩

theorem resolve_of_wellDimensioned {set : EquationSet} {catalog : Catalog} {constants : Constants}
    (h : set.WellDimensioned catalog constants) : ∃ r, resolve set catalog constants = .ok r := by
  obtain ⟨s, hbuild⟩ := Scope.build_of_wellDimensioned h
  have hb := Scope.built_of_build hbuild
  obtain ⟨updates, hupdates⟩ := (Scope.lowerEquations_iff hb fun _ hmem => hmem).2 h.equal
  exact ⟨_, bind_eq_ok.2 ⟨s, hbuild, bind_eq_ok.2 ⟨updates, hupdates, rfl⟩⟩⟩

/-- **Sets that resolve are the well-dimensioned ones**, whatever the catalog and the constants. -/
theorem resolve_iff_wellDimensioned (set : EquationSet) (catalog : Catalog) (constants : Constants) :
    (∃ r, resolve set catalog constants = .ok r) ↔ set.WellDimensioned catalog constants :=
  ⟨fun ⟨_, h⟩ => wellDimensioned_of_resolve h, resolve_of_wellDimensioned⟩

end FixedStep
