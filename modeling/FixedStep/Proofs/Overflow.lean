import FixedStep.Catalog.Builtin
import FixedStep.CodeObject
import FixedStep.Proofs.Typing
/-!
# Overflow — when compiling ends without an answer

A product or quotient may need an exponent outside eight bits.  Where that happens first is said without lowering
anything: in a unit (`Expr.UnitOverflows`), in a right-hand side (`Overflows`), or in a set of equations
(`EquationSet.Overflows`).  Compiling a text overflows exactly there (`compileSource_eq_overflow`), and has an answer
everywhere else.
-/
namespace FixedStep

/-! ## Units -/

/-- **Evaluating a unit leaves eight bits.**  The left operand comes first, and the right one only in a product or
quotient. -/
inductive Expr.UnitOverflows : Expr → Prop where
  | plus {e : Expr} (sp : Span) : UnitOverflows e → UnitOverflows (.signed .plus e sp)
  | left (op : Operator) {l r : Expr} (sp : Span) : UnitOverflows l → UnitOverflows (.binary op l r sp)
  | right {op : Operator} {l r : Expr} (sp : Span) {a : Dimension} : op = .mul ∨ op = .div → l.unit = .ok a →
    UnitOverflows r → UnitOverflows (.binary op l r sp)
  | product {l r : Expr} (sp : Span) {a b : Dimension} : l.unit = .ok a → r.unit = .ok b →
    Dimension.Leaves (· + ·) a b → UnitOverflows (.binary .mul l r sp)
  | quotient {l r : Expr} (sp : Span) {a b : Dimension} : l.unit = .ok a → r.unit = .ok b →
    Dimension.Leaves (· - ·) a b → UnitOverflows (.binary .div l r sp)

namespace Expr

theorem unitOverflows_of_unit : ∀ {e : Expr}, e.unit = .error .overflow → e.UnitOverflows
  | .name n sp, h => by
    rw [unit] at h
    exact absurd h Checked.ofExcept_ne_overflow
  | .signed .plus e sp, h => by
    rw [unit] at h
    exact .plus sp (unitOverflows_of_unit h)
  | .binary op l r sp, h => by
    rw [unit, bind_eq_overflow] at h
    rcases h with hl | ⟨a, ha, h⟩
    · exact .left op sp (unitOverflows_of_unit hl)
    cases op with
    | add => cases h
    | sub => cases h
    | mul =>
      rcases bind_eq_overflow.1 h with hr | ⟨b, hb, h⟩
      · exact .right sp (.inl rfl) ha (unitOverflows_of_unit hr)
      · exact .product sp ha hb (Dimension.zip?_eq_none.1 (Checked.ofOption_eq_overflow.1 h))
    | div =>
      rcases bind_eq_overflow.1 h with hr | ⟨b, hb, h⟩
      · exact .right sp (.inr rfl) ha (unitOverflows_of_unit hr)
      · exact .quotient sp ha hb (Dimension.zip?_eq_none.1 (Checked.ofOption_eq_overflow.1 h))
    | pow =>
      simp only at h
      split at h
      · exact absurd h Checked.ofExcept_ne_overflow
      · cases h

theorem unit_of_unitOverflows {e : Expr} (h : e.UnitOverflows) : e.unit = .error .overflow := by
  induction h with
  | plus sp _ ih => rwa [unit]
  | left op sp _ ih => rw [unit, bind_eq_overflow]; exact .inl ih
  | right sp hop ha _ ih =>
    rw [unit, bind_eq_overflow]
    refine .inr ⟨_, ha, ?_⟩
    rcases hop with rfl | rfl <;> exact bind_eq_overflow.2 (.inl ih)
  | product sp ha hb hleaves =>
    rw [unit, bind_eq_overflow]
    refine .inr ⟨_, ha, bind_eq_overflow.2 (.inr ⟨_, hb, ?_⟩)⟩
    exact Checked.ofOption_eq_overflow.2 (Dimension.zip?_eq_none.2 hleaves)
  | quotient sp ha hb hleaves =>
    rw [unit, bind_eq_overflow]
    refine .inr ⟨_, ha, bind_eq_overflow.2 (.inr ⟨_, hb, ?_⟩)⟩
    exact Checked.ofOption_eq_overflow.2 (Dimension.zip?_eq_none.2 hleaves)

/-- **A unit overflows** where a product or quotient of units does. -/
theorem unit_eq_overflow {e : Expr} : e.unit = .error .overflow ↔ e.UnitOverflows :=
  ⟨unitOverflows_of_unit, unit_of_unitOverflows⟩

end Expr

/-! ## Right-hand sides -/

mutual

/-- **Finding an expression's dimension leaves eight bits**: in a product or quotient, in a function's own rule, or in
an operand or argument, of which those to the left have dimensions. -/
inductive Overflows (set : EquationSet) (catalog : Catalog) (constants : Constants) : Expr → Prop where
  | signed (sign : Sign) {e : Expr} (sp : Span) :
    Overflows set catalog constants e → Overflows set catalog constants (.signed sign e sp)
  | left (op : Operator) {l r : Expr} (sp : Span) :
    Overflows set catalog constants l → Overflows set catalog constants (.binary op l r sp)
  | right (op : Operator) {l r : Expr} (sp : Span) {a : Dimension} : HasUnit set catalog constants l a →
    Overflows set catalog constants r → Overflows set catalog constants (.binary op l r sp)
  | product {l r : Expr} (sp : Span) {a b : Dimension} : HasUnit set catalog constants l a →
    HasUnit set catalog constants r b → Dimension.Leaves (· + ·) a b →
      Overflows set catalog constants (.binary .mul l r sp)
  | quotient {l r : Expr} (sp : Span) {a b : Dimension} : HasUnit set catalog constants l a →
    HasUnit set catalog constants r b → Dimension.Leaves (· - ·) a b →
      Overflows set catalog constants (.binary .div l r sp)
  | argument {f : Ident} {args : List Expr} (sp : Span) {g : Function} : set.LeavesFree constants f.name →
    catalog.find? f.name = some g → args.length = g.arity → OverflowsIn set catalog constants args →
      Overflows set catalog constants (.call f args sp)
  | rule {f : Ident} {args : List Expr} (sp : Span) {g : Function} {units : List Dimension} {rule : UnitRule} :
    set.LeavesFree constants f.name → catalog.find? f.name = some g → args.length = g.arity →
      HasUnits set catalog constants args units → g.rule = some rule → rule units = .error .overflow →
        Overflows set catalog constants (.call f args sp)

/-- An argument overflows, and those before it have dimensions. -/
inductive OverflowsIn (set : EquationSet) (catalog : Catalog) (constants : Constants) : List Expr → Prop where
  | here {e : Expr} (es : List Expr) :
    Overflows set catalog constants e → OverflowsIn set catalog constants (e :: es)
  | later {e : Expr} {es : List Expr} {d : Dimension} : HasUnit set catalog constants e d →
    OverflowsIn set catalog constants es → OverflowsIn set catalog constants (e :: es)

end

theorem Function.resultUnit_eq_overflow {g : Function} {args : List Dimension} (hlen : args.length = g.arity) :
    g.resultUnit args = .error .overflow ↔ ∃ rule, g.rule = some rule ∧ rule args = .error .overflow := by
  rw [resultUnit, if_neg (by simp only [hlen, ne_eq, not_true_eq_false, not_false_eq_true])]
  cases g.rule with
  | some rule => simp
  | none => simp [Checked.ofExcept_ne_overflow]

namespace Scope

theorem operationUnit_eq_overflow {op : Operator} {e : Expr} {n : Node} {a b : Dimension} :
    operationUnit op e a n b = .error .overflow ↔
      op = .mul ∧ Dimension.Leaves (· + ·) a b ∨ op = .div ∧ Dimension.Leaves (· - ·) a b := by
  cases op with
  | add => simp only [operationUnit]; split <;> simp [refuse]
  | sub => simp only [operationUnit]; split <;> simp [refuse]
  | mul =>
    simp only [operationUnit, Checked.ofOption_eq_overflow, true_and, reduceCtorEq, false_and, or_false]
    exact Dimension.zip?_eq_none
  | div =>
    simp only [operationUnit, Checked.ofOption_eq_overflow, true_and, reduceCtorEq, false_and, false_or]
    exact Dimension.zip?_eq_none
  | pow =>
    simp only [reduceCtorEq, false_and, or_false, iff_false, operationUnit]
    split
    · exact refuse_ne_overflow
    · split
      · exact pure_ne_overflow
      · split
        · rw [Checked.mapRefusal_eq_overflow]
          exact Checked.ofExcept_ne_overflow
        · exact refuse_ne_overflow

variable {set : EquationSet} {catalog : Catalog} {constants : Constants} {s : Scope}

theorem lowerName_ne_overflow {name : String} : s.lowerName name ≠ .error .overflow := by
  intro h
  unfold lowerName at h
  split at h <;> cases h

theorem callee_ne_overflow {name : String} {count : Nat} : s.callee name count ≠ .error .overflow := by
  unfold callee
  split
  · split <;> nofun
  · nofun
  · nofun

mutual

theorem overflows_of_lower (hb : Built set catalog constants s) : ∀ {e : Expr}, s.lower e = .error .overflow →
    Overflows set catalog constants e
  | .name name sp, h => by
    rw [lower] at h
    exact absurd h lowerName_ne_overflow
  | .signed .neg e sp, h => by
    simp only [lower, bind_eq_overflow, pure_ne_overflow, and_false, exists_false, or_false] at h
    exact .signed .neg sp (overflows_of_lower hb h)
  | .signed .plus e sp, h => by
    rw [lower] at h
    exact .signed .plus sp (overflows_of_lower hb h)
  | .binary op l r sp, h => by
    simp only [lower, bind_eq_overflow, pure_ne_overflow, and_false, exists_false, or_false, Prod.exists] at h
    rcases h with hl | ⟨ln, a, hl, hr | ⟨rn, b, hr, h⟩⟩
    · exact .left op sp (overflows_of_lower hb hl)
    · exact .right op sp (hasUnit_of_lower hb hl) (overflows_of_lower hb hr)
    · rcases operationUnit_eq_overflow.1 h with ⟨rfl, hleaves⟩ | ⟨rfl, hleaves⟩
      · exact .product sp (hasUnit_of_lower hb hl) (hasUnit_of_lower hb hr) hleaves
      · exact .quotient sp (hasUnit_of_lower hb hl) (hasUnit_of_lower hb hr) hleaves
  | .call f args sp, h => by
    simp only [lower, bind_eq_overflow, pure_ne_overflow, and_false, exists_false, or_false, callee_ne_overflow,
      false_or, Checked.mapRefusal_eq_overflow] at h
    obtain ⟨g, hcallee, hargs | ⟨lowered, hargs, h⟩⟩ := h
    · obtain ⟨hfree, hg, hcount⟩ := callee_ok hb hcallee
      exact .argument sp hfree hg hcount (overflowsIn_of_lowerAll hb hargs)
    · obtain ⟨hfree, hg, hcount⟩ := callee_ok hb hcallee
      have hlen := (List.length_map (·.2)).trans ((lowerAll_length hargs).trans hcount)
      -- the lowered arguments have as many dimensions as the function takes, so its rule was asked
      obtain ⟨rule, hrule, hover⟩ := (Function.resultUnit_eq_overflow hlen).1 h
      exact .rule sp hfree hg hcount (hasUnits_of_lowerAll hb hargs) hrule hover

theorem overflowsIn_of_lowerAll (hb : Built set catalog constants s) : ∀ {es : List Expr},
    s.lowerAll es = .error .overflow → OverflowsIn set catalog constants es
  | e :: es, h => by
    simp only [lowerAll, bind_eq_overflow, pure_ne_overflow, and_false, exists_false, or_false] at h
    rcases h with h | ⟨⟨n, d⟩, hn, h⟩
    · exact .here es (overflows_of_lower hb h)
    · exact .later (hasUnit_of_lower hb hn) (overflowsIn_of_lowerAll hb h)

end

mutual

theorem lower_of_overflows (hb : Built set catalog constants s) : ∀ {e : Expr},
    (∀ name ∈ calledIn e, name ∈ calledNames set) → Overflows set catalog constants e →
      s.lower e = .error .overflow
  | .signed .neg e sp, hcalled, .signed _ _ h => by
    rw [lower, bind_eq_overflow]
    exact .inl (lower_of_overflows hb hcalled h)
  | .signed .plus e sp, hcalled, .signed _ _ h => by
    rw [lower]
    exact lower_of_overflows hb hcalled h
  | .binary op l r sp, hcalled, h => by
    have hleft : ∀ name ∈ calledIn l, name ∈ calledNames set := fun name hname =>
      hcalled name (List.mem_append_left _ hname)
    have hright : ∀ name ∈ calledIn r, name ∈ calledNames set := fun name hname =>
      hcalled name (List.mem_append_right _ hname)
    simp only [lower, bind_eq_overflow, pure_ne_overflow, and_false, exists_false, or_false, Prod.exists]
    cases h with
    | left _ _ h => exact .inl (lower_of_overflows hb hleft h)
    | right _ _ hl h =>
      obtain ⟨ln, hln⟩ := lower_of_hasUnit hb hleft hl
      exact .inr ⟨ln, _, hln, .inl (lower_of_overflows hb hright h)⟩
    -- an operation is only come to once both operands have their dimensions
    | product _ hl hr hleaves =>
      obtain ⟨ln, hln⟩ := lower_of_hasUnit hb hleft hl
      obtain ⟨rn, hrn⟩ := lower_of_hasUnit hb hright hr
      exact .inr ⟨ln, _, hln, .inr ⟨rn, _, hrn, operationUnit_eq_overflow.2 (.inl ⟨rfl, hleaves⟩)⟩⟩
    | quotient _ hl hr hleaves =>
      obtain ⟨ln, hln⟩ := lower_of_hasUnit hb hleft hl
      obtain ⟨rn, hrn⟩ := lower_of_hasUnit hb hright hr
      exact .inr ⟨ln, _, hln, .inr ⟨rn, _, hrn, operationUnit_eq_overflow.2 (.inr ⟨rfl, hleaves⟩)⟩⟩
  | .call f args sp, hcalled, h => by
    have hargs : ∀ name ∈ calledInAll args, name ∈ calledNames set := fun name hname =>
      hcalled name (List.mem_cons_of_mem _ hname)
    simp only [lower, bind_eq_overflow, pure_ne_overflow, and_false, exists_false, or_false,
      Checked.mapRefusal_eq_overflow]
    cases h with
    | argument _ hfree hg hcount h =>
      have hcallee := callee_of_free hb (hcalled f.name List.mem_cons_self) hfree hg hcount
      exact .inr ⟨_, hcallee, .inl (lowerAll_of_overflowsIn hb hargs h)⟩
    | rule _ hfree hg hcount hunits hrule hover =>
      have hcallee := callee_of_free hb (hcalled f.name List.mem_cons_self) hfree hg hcount
      obtain ⟨lowered, hlowered, rfl⟩ := lowerAll_of_hasUnits hb hargs hunits
      have hlen := (List.length_map (·.2)).trans ((lowerAll_length hlowered).trans hcount)
      exact .inr ⟨_, hcallee, .inr ⟨lowered, hlowered, (Function.resultUnit_eq_overflow hlen).2 ⟨_, hrule, hover⟩⟩⟩

theorem lowerAll_of_overflowsIn (hb : Built set catalog constants s) : ∀ {es : List Expr},
    (∀ name ∈ calledInAll es, name ∈ calledNames set) → OverflowsIn set catalog constants es →
      s.lowerAll es = .error .overflow
  | e :: es, hcalled, .here _ h => by
    rw [lowerAll, bind_eq_overflow]
    exact .inl (lower_of_overflows hb (fun name hname => hcalled name (List.mem_append_left _ hname)) h)
  | e :: es, hcalled, .later hd h => by
    obtain ⟨n, hn⟩ := lower_of_hasUnit hb (fun name hname => hcalled name (List.mem_append_left _ hname)) hd
    simp only [lowerAll, bind_eq_overflow, pure_ne_overflow, and_false, exists_false, or_false]
    exact .inr ⟨_, hn, lowerAll_of_overflowsIn hb (fun name hname => hcalled name (List.mem_append_right _ hname)) h⟩

end

/-! ## Sets of equations -/

theorem declare_eq_overflow : ∀ {eqs : List Equation} {taken : List String} {k : Nat},
    declare taken k eqs = .error .overflow ↔ ∃ before eq after, eqs = before ++ eq :: after ∧
      ((before ++ [eq]).map (·.target.name)).Nodup ∧ (∀ name ∈ taken, name ∉ (before ++ [eq]).map (·.target.name)) ∧
      (∀ e ∈ before, ∃ d, e.unit.unit = .ok d) ∧ eq.unit.UnitOverflows
  | [], _, _ => by
    constructor
    · intro h
      exact absurd h pure_ne_overflow
    · rintro ⟨before, eq, after, h, -⟩
      cases before <;> cases h
  | first :: eqs, taken, k => by
    rw [declare]
    split
    · -- a target that is taken is refused before its unit is looked at
      rename_i hmem
      refine ⟨fun h => absurd h refuse_ne_overflow, ?_⟩
      rintro ⟨before, eq, after, h, -, hfresh, -⟩
      refine absurd ?_ (hfresh _ hmem)
      cases before <;> obtain ⟨rfl, -⟩ := List.cons.inj h <;> exact List.mem_cons_self
    · rename_i hmem
      simp only [bind_eq_overflow, Checked.mapRefusal_eq_overflow, Checked.mapRefusal_eq_ok, pure_ne_overflow, and_false,
        exists_false, or_false, Expr.unit_eq_overflow, declare_eq_overflow]
      -- either this unit overflows, or it has a dimension and a later one overflows
      constructor
      · rintro (hunit | ⟨d, hd, before, eq, after, rfl, hnodup, hfresh, hstated, hunit⟩)
        · refine ⟨[], first, eqs, rfl, List.pairwise_singleton _ _, fun name hname hmem' => ?_, List.forall_mem_nil _, hunit⟩
          obtain rfl := List.mem_singleton.1 hmem'
          exact hmem hname
        · refine ⟨first :: before, eq, after, rfl, ?_, fun name hname hmem' => ?_, ?_, hunit⟩
          · exact List.nodup_cons.2 ⟨hfresh _ List.mem_cons_self, hnodup⟩
          · rcases List.mem_cons.1 hmem' with rfl | hmem'
            · exact hmem hname
            · exact hfresh name (List.mem_cons_of_mem _ hname) hmem'
          · exact List.forall_mem_cons.2 ⟨⟨d, hd⟩, hstated⟩
      · rintro ⟨before, eq, after, h, hnodup, hfresh, hstated, hunit⟩
        cases before with
        | nil =>
          obtain ⟨rfl, rfl⟩ := List.cons.inj h
          exact .inl hunit
        | cons e before =>
          obtain ⟨rfl, rfl⟩ := List.cons.inj h
          obtain ⟨⟨d, hd⟩, hstated⟩ := List.forall_mem_cons.1 hstated
          obtain ⟨hhead, hnodup⟩ := List.nodup_cons.1 hnodup
          refine .inr ⟨d, hd, before, eq, after, rfl, hnodup, fun name hname hmem' => ?_, hstated, hunit⟩
          rcases List.mem_cons.1 hname with rfl | hname
          · exact hhead hmem'
          · exact hfresh name hname (List.mem_cons_of_mem _ hmem')

theorem foldlM_bindCalled_ne_overflow : ∀ {names : List String} {s : Scope},
    names.foldlM (bindCalled catalog) s ≠ .error .overflow
  | [], _ => nofun
  | name :: names, s => by
    rw [List.foldlM_cons, ne_eq, bind_eq_overflow, not_or, bindCalled_eq]
    refine ⟨?_, fun ⟨_, _, h⟩ => foldlM_bindCalled_ne_overflow h⟩
    split <;> nofun

theorem build_eq_overflow : build set catalog constants = .error .overflow ↔
    declare [] 0 set.equations = .error .overflow := by
  simp only [build, bind_eq_overflow, foldlM_bindCalled_ne_overflow, pure_ne_overflow, and_false, exists_false,
    or_false]

theorem leavesFree_of_value? (hnames : s.stateVariables.map (·.name) = set.equations.map (·.target.name))
    (hconstants : s.constants = constants) {name : String} (h : s.value? name = none) :
    set.LeavesFree constants name := by
  unfold value? at h
  split at h
  · cases h
  · cases h
  · cases h
  · rename_i hslot hconstant hreading
    refine ⟨?_, hconstants ▸ hconstant, reading?_eq_none.1 hreading⟩
    rintro ⟨eq, hmem, rfl⟩
    rw [slot?_eq_none, hnames] at hslot
    exact hslot (List.mem_map_of_mem hmem)

end Scope

/-- The names of a set of equations can be bound: targets are distinct, units state dimensions, and every called name
that stands for nothing else is in the catalog. -/
structure EquationSet.Bindable (set : EquationSet) (catalog : Catalog) (constants : Constants) : Prop where
  distinct : (set.equations.map (·.target.name)).Nodup
  stated : ∀ eq ∈ set.equations, ∃ d, eq.unit.unit = .ok d
  known : ∀ name ∈ Scope.calledNames set, set.LeavesFree constants name → (catalog.find? name).isSome

/-- **A set of equations leaves eight bits**: in the unit of an equation, or, once its names are bound, in a right-hand
side; all that is judged before has a dimension, and the right one. -/
inductive EquationSet.Overflows (set : EquationSet) (catalog : Catalog) (constants : Constants) : Prop where
  | unit {before after : List Equation} {eq : Equation} : set.equations = before ++ eq :: after →
    ((before ++ [eq]).map (·.target.name)).Nodup → (∀ e ∈ before, ∃ d, e.unit.unit = .ok d) →
      eq.unit.UnitOverflows → set.Overflows catalog constants
  | update {before after : List Equation} {eq : Equation} {rhs : Expr} : set.Bindable catalog constants →
    set.equations = before ++ eq :: after →
      (∀ e ∈ before, ∀ r, e.rhs = some r → ∃ d, e.unit.unit = .ok d ∧ HasUnit set catalog constants r d) →
        eq.rhs = some rhs → FixedStep.Overflows set catalog constants rhs → set.Overflows catalog constants

namespace Scope

variable {set : EquationSet} {catalog : Catalog} {constants : Constants} {s : Scope}

theorem bindable_iff : (∃ s, build set catalog constants = .ok s) ↔ set.Bindable catalog constants := by
  constructor
  · rintro ⟨s, hbuild⟩
    have hb := built_of_build hbuild
    refine ⟨(nodup_of_declare hb.declared).1, fun eq hmem => ?_, fun name hname hfree => ?_⟩
    · obtain ⟨slot, -, hunit⟩ := slot?_of_mem hb hmem
      exact ⟨_, hunit⟩
    · exact hb.known name hname ((value?_eq_none hb).2 hfree)
  · intro h
    obtain ⟨vars, hvars⟩ := exists_declare [] 0 h.distinct (fun _ hname => absurd hname List.not_mem_nil) h.stated
    refine ⟨_, build_iff.2 ⟨vars, hvars, fun name hname hvalue => h.known name hname ?_, rfl⟩⟩
    exact leavesFree_of_value? (declare_ok hvars).1 rfl hvalue

theorem lowerEquations_cons_eq_overflow {eq : Equation} {eqs : List Equation} :
    s.lowerEquations (eq :: eqs) = .error .overflow ↔
      (eq.rhs = none ∧ s.lowerEquations eqs = .error .overflow) ∨
        ∃ rhs slot, eq.rhs = some rhs ∧ s.slot? eq.target.name = some slot ∧
          (s.lower rhs = .error .overflow ∨
            ∃ node, s.lower rhs = .ok (node, s.unitOf slot) ∧ s.lowerEquations eqs = .error .overflow) := by
  rw [lowerEquations]
  cases eq.rhs with
  | none => simp
  | some rhs =>
    cases s.slot? eq.target.name with
    | none => simp [refuse]
    | some slot =>
      simp only [bind_eq_overflow, Prod.exists]
      constructor
      · rintro (h | ⟨node, found, hlower, h⟩)
        · exact .inr ⟨rhs, slot, rfl, rfl, .inl h⟩
        · split at h
          · rcases bind_eq_overflow.1 h with h | ⟨_, h, -⟩ <;> cases h
          · rename_i heq
            obtain rfl := Decidable.not_not.1 heq
            rcases bind_eq_overflow.1 h with hrest | ⟨_, -, hpure⟩
            · exact .inr ⟨rhs, slot, rfl, rfl, .inr ⟨node, hlower, hrest⟩⟩
            · exact absurd hpure pure_ne_overflow
      · rintro (⟨h, -⟩ | ⟨_, _, h, hslot, hlower⟩)
        · cases h
        · obtain rfl := Option.some.inj h
          obtain rfl := Option.some.inj hslot
          refine hlower.imp_right ?_
          rintro ⟨node, hnode, hrest⟩
          refine ⟨node, _, hnode, ?_⟩
          rw [if_neg (fun hne => hne rfl)]
          exact bind_eq_overflow.2 (.inl hrest)

theorem lowerEquations_eq_overflow (hb : Built set catalog constants s) : ∀ {eqs : List Equation},
    (∀ eq ∈ eqs, eq ∈ set.equations) → (s.lowerEquations eqs = .error .overflow ↔
      ∃ before eq after rhs, eqs = before ++ eq :: after ∧
        (∀ e ∈ before, ∀ r, e.rhs = some r → ∃ d, e.unit.unit = .ok d ∧ HasUnit set catalog constants r d) ∧
        eq.rhs = some rhs ∧ Overflows set catalog constants rhs)
  | [], _ => by
    refine ⟨nofun, ?_⟩
    rintro ⟨before, eq, after, rhs, h, -⟩
    cases before <;> cases h
  | first :: eqs, hsub => by
    have hmem := hsub first List.mem_cons_self
    have ih := lowerEquations_eq_overflow hb fun e he => hsub e (List.mem_cons_of_mem _ he)
    obtain ⟨slot, hslot, hunit⟩ := slot?_of_mem hb hmem
    rw [lowerEquations_cons_eq_overflow, ih]
    constructor
    · rintro (⟨hrhs, before, eq, after, rhs, rfl, hbefore, h⟩ | ⟨rhs, place, hrhs, hplace, h⟩)
      · refine ⟨first :: before, eq, after, rhs, rfl, List.forall_mem_cons.2 ⟨?_, hbefore⟩, h⟩
        intro r hr
        cases hrhs.symm.trans hr
      · obtain rfl := Option.some.inj (hslot.symm.trans hplace)
        rcases h with h | ⟨node, hnode, before, eq, after, rhs', rfl, hbefore, h⟩
        · exact ⟨[], first, eqs, rhs, rfl, nofun, hrhs, overflows_of_lower hb h⟩
        · refine ⟨first :: before, eq, after, rhs', rfl, List.forall_mem_cons.2 ⟨?_, hbefore⟩, h⟩
          intro r hr
          obtain rfl := Option.some.inj (hrhs.symm.trans hr)
          exact ⟨_, hunit, hasUnit_of_lower hb hnode⟩
    · rintro ⟨before, eq, after, rhs, h, hbefore, hrhs, hover⟩
      cases before with
      | nil =>
        obtain ⟨rfl, rfl⟩ := List.cons.inj h
        exact .inr ⟨rhs, slot, hrhs, hslot, .inl (lower_of_overflows hb (called_of_mem hmem hrhs) hover)⟩
      | cons e before =>
        obtain ⟨rfl, rfl⟩ := List.cons.inj h
        obtain ⟨hfirst, hbefore⟩ := List.forall_mem_cons.1 hbefore
        -- the first equation is judged before the others, so it has to have the dimension it states
        have hrest : ∃ before' eq' after' rhs', before ++ eq :: after = before' ++ eq' :: after' ∧
            (∀ e ∈ before', ∀ r, e.rhs = some r → ∃ d, e.unit.unit = .ok d ∧ HasUnit set catalog constants r d) ∧
            eq'.rhs = some rhs' ∧ Overflows set catalog constants rhs' :=
          ⟨before, eq, after, rhs, rfl, hbefore, hrhs, hover⟩
        cases hr : first.rhs with
        | none => exact .inl ⟨rfl, hrest⟩
        | some r =>
          obtain ⟨d, hd, hdimension⟩ := hfirst r hr
          obtain rfl := Except.ok.inj (hunit.symm.trans hd)
          obtain ⟨node, hnode⟩ := lower_of_hasUnit hb (called_of_mem hmem hr) hdimension
          exact .inr ⟨r, slot, rfl, hslot, .inr ⟨node, hnode, hrest⟩⟩

end Scope

theorem resolve_eq_overflow {set : EquationSet} {catalog : Catalog} {constants : Constants} :
    resolve set catalog constants = .error .overflow ↔ set.Overflows catalog constants := by
  simp only [resolve, bind_eq_overflow, pure_ne_overflow, and_false, exists_false, or_false, Scope.build_eq_overflow,
    Scope.declare_eq_overflow]
  constructor
  · rintro (⟨before, eq, after, h, hnodup, -, hstated, hunit⟩ | ⟨s, hbuild, h⟩)
    · exact .unit h hnodup hstated hunit
    · obtain ⟨before, eq, after, rhs, h, hbefore, hrhs, hover⟩ :=
        (Scope.lowerEquations_eq_overflow (Scope.built_of_build hbuild) fun _ hmem => hmem).1 h
      exact .update (Scope.bindable_iff.1 ⟨s, hbuild⟩) h hbefore hrhs hover
  · rintro (⟨h, hnodup, hstated, hunit⟩ | ⟨hbindable, h, hbefore, hrhs, hover⟩)
    · exact .inl ⟨_, _, _, h, hnodup, List.forall_mem_nil _, hstated, hunit⟩
    · obtain ⟨s, hbuild⟩ := Scope.bindable_iff.2 hbindable
      refine .inr ⟨s, hbuild, ?_⟩
      exact (Scope.lowerEquations_eq_overflow (Scope.built_of_build hbuild) fun _ hmem => hmem).2
        ⟨_, _, _, _, h, hbefore, hrhs, hover⟩

/-! ## Rules -/

namespace UnitRule

theorem dimensionless_ne_overflow {args : List Dimension} : dimensionless args ≠ .error .overflow :=
  Checked.ofExcept_ne_overflow

theorem preserve_ne_overflow {args : List Dimension} : preserve args ≠ .error .overflow := by
  unfold preserve
  split <;> nofun

/-- Halves of exponents fit where the exponents did. -/
theorem squareRoot_ne_overflow {args : List Dimension} : squareRoot args ≠ .error .overflow := by
  rw [squareRoot, ne_eq, bind_eq_overflow, not_or]
  refine ⟨preserve_ne_overflow, ?_⟩
  rintro ⟨d, -, h⟩
  split at h
  · cases h
  · cases h
  · rename_i hroot
    exact absurd (Dimension.root_eq_overflow.1 hroot).1 (by decide)

end UnitRule

theorem rule_of_mem_builtins : ∀ f ∈ Catalog.builtins,
    f.rule = some .dimensionless ∨ f.rule = some .preserve ∨ f.rule = some .squareRoot := by
  simp [Catalog.builtins, Catalog.builtin]

theorem standard_ne_overflow {name : String} {f : Function} (h : Catalog.standard.find? name = some f)
    (units : List Dimension) : f.resultUnit units ≠ .error .overflow := by
  have hentry := NameMap.mem_of_mem_ofList (NameMap.mem_entries_iff.2 h)
  obtain ⟨g, hg, hgf⟩ := List.mem_map.1 hentry
  obtain ⟨-, rfl⟩ := Prod.mk.inj hgf
  intro hover
  by_cases hlen : units.length = g.arity
  · obtain ⟨rule, hrule, hover⟩ := (Function.resultUnit_eq_overflow hlen).1 hover
    rcases rule_of_mem_builtins g hg with h | h | h
    all_goals obtain rfl := Option.some.inj (h.symm.trans hrule)
    · exact UnitRule.dimensionless_ne_overflow hover
    · exact UnitRule.preserve_ne_overflow hover
    · exact UnitRule.squareRoot_ne_overflow hover
  · rw [Function.resultUnit, if_pos hlen] at hover
    cases hover

/-! ## Texts -/

namespace Compiler

theorem compileSource_eq_overflow {c : Compiler} {source : String} {constants : Constants} {backend : Backend} :
    c.compileSource source constants backend = .error .overflow ↔
      ∃ set, readEquations source = .ok set ∧ set.Overflows c.catalog constants := by
  simp only [compileSource, compile, bind_eq_overflow, Checked.ofExcept_ne_overflow, Checked.ofExcept_eq_ok, false_or,
    resolve_eq_overflow]
  refine exists_congr fun set => and_congr_right fun _ => or_iff_left ?_
  rintro ⟨r, -, h⟩
  cases backend with
  | interpreted => cases h
  | native =>
    simp only at h
    split at h <;> cases h

/-- **Compiling has an answer**, code or a refusal, unless the text is a set of equations that leaves eight bits.  Powers
never do, and no rule of the standard catalog does. -/
theorem compileSource_answers (c : Compiler) (source : String) (constants : Constants) (backend : Backend) :
    (((∃ code, c.compileSource source constants backend = .ok code) ∨
        ∃ e, c.compileSource source constants backend = refuse e) ↔
      ∀ set, readEquations source = .ok set → ¬ set.Overflows c.catalog constants) ∧
    ∀ name f, Catalog.standard.find? name = some f → ∀ units, f.resultUnit units ≠ .error .overflow := by
  refine ⟨?_, fun name f h units => standard_ne_overflow h units⟩
  have hover : c.compileSource source constants backend = .error .overflow ↔ _ := compileSource_eq_overflow
  constructor
  · rintro h set hset hleaves
    have heq := hover.2 ⟨set, hset, hleaves⟩
    rcases h with ⟨code, h⟩ | ⟨e, h⟩ <;> cases h.symm.trans heq
  · intro h
    -- code and refusals are answers, so only an overflow is left to exclude
    cases hresult : c.compileSource source constants backend with
    | ok code => exact .inl ⟨code, rfl⟩
    | error fault =>
      cases fault with
      | refused e => exact .inr ⟨e, rfl⟩
      | overflow =>
        obtain ⟨set, hset, hleaves⟩ := hover.1 hresult
        exact absurd hleaves (h set hset)

/-- Two powers of the metre fit, and their product does not. -/
theorem compileSource_wideProduct : (⟨Catalog.standard, none⟩ : Compiler).compileSource
    "x : metre ** 100 * metre ** 100" .empty .interpreted = .error .overflow := by
  with_unfolding_all rfl

end Compiler
end FixedStep
