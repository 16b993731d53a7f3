import FixedStep.Proofs.Registration
import Mathlib.Data.List.Basic
/-!
# Plain — sets of equations about plain numbers resolve

Where every target, constant and function is declared without dimension, no rule can refuse and no exponent can leave
its range: zero is closed under all that is done to exponents.  A function's rule is arbitrary, but it was checked at
the declared dimensions when the function was built, and here it is applied nowhere else.
-/
namespace FixedStep

/-- **What an expression may mention itself**: a target or a constant without dimension, and a function that is
declared for plain numbers and given as many arguments as it takes. -/
def EquationSet.PlainAt (set : EquationSet) (catalog : Catalog) (constants : Constants) : Expr → Prop
  | .name name _ => set.Declares name ∨ ∃ q, constants.find? name = some q ∧ q.dimension = .one
  | .call f args _ => set.LeavesFree constants f.name ∧
      ∃ g, catalog.find? f.name = some g ∧ g.signature.isPlain ∧ args.length = g.arity
  | _ => True

/-- **A set of equations about plain numbers**: no target is defined twice, every unit is that of plain numbers, and so
is all that the right-hand sides mention. -/
structure EquationSet.IsPlain (set : EquationSet) (catalog : Catalog) (constants : Constants) : Prop where
  distinct : (set.equations.map (·.target.name)).Nodup
  units : ∀ eq ∈ set.equations, eq.unit.unit = .ok .one
  parts : ∀ p ∈ set.parts, set.PlainAt catalog constants p

/-- The rule of a function that was built is checked at the declared dimensions, whatever it does elsewhere. -/
theorem Function.yields_one {d : Draft} {g : Function} (hbuild : d.build = .ok g) (hplain : g.signature.isPlain) :
    g.Yields (List.replicate g.arity .one) .one := by
  obtain ⟨hcoherent, rfl⟩ := Draft.build_iff.1 hbuild
  have hdeclared : d.function.Yields d.signature.inputs d.signature.output :=
    (Function.resultUnit_eq_ok rfl).1 hcoherent.resultUnit
  have hsignature : d.signature = .plain d.function.arity := Signature.isPlain_iff.1 hplain
  have hinputs : d.signature.inputs = List.replicate d.function.arity .one := congrArg Signature.inputs hsignature
  have houtput : d.signature.output = .one := congrArg Signature.output hsignature
  rwa [hinputs, houtput] at hdeclared

section

variable {set : EquationSet} {catalog : Catalog} {constants : Constants}

mutual

/-- **Plain numbers stay plain** under everything an expression does to them. -/
theorem HasUnit.one (hcatalog : catalog.Registered) (hunits : ∀ eq ∈ set.equations, eq.unit.unit = .ok .one) :
    ∀ {e : Expr}, (∀ p ∈ e.parts, set.PlainAt catalog constants p) → HasUnit set catalog constants e .one
  | .number v sp, _ => .number v sp
  | .name name sp, h => by
    by_cases hdeclared : set.Declares name
    · obtain ⟨eq, hmem, rfl⟩ := hdeclared
      exact .state sp hmem (hunits eq hmem)
    · rcases h _ List.mem_cons_self with hdeclared' | ⟨q, hq, hone⟩
      · exact absurd hdeclared' hdeclared
      · exact hone ▸ .constant sp hdeclared hq
  | .signed sign e sp, h => .signed sign sp (HasUnit.one hcatalog hunits (List.forall_mem_cons.1 h).2)
  | .binary op l r sp, h => by
    obtain ⟨hleft, hright⟩ := List.forall_mem_append.1 (List.forall_mem_cons.1 h).2
    have hl := HasUnit.one hcatalog hunits hleft
    have hr := HasUnit.one hcatalog hunits hright
    cases op with
    | add => exact .sum sp (.inl rfl) hl hr
    | sub => exact .sum sp (.inr rfl) hl hr
    | mul => exact .product sp hl hr (Dimension.mul?_eq_some.1 rfl)
    | div => exact .quotient sp hl hr (Dimension.div?_eq_some.1 rfl)
    | pow => exact .plainPower sp hl hr
  | .call f args sp, h => by
    obtain ⟨⟨hfree, g, hg, hplain, hcount⟩, hparts⟩ := List.forall_mem_cons.1 h
    obtain ⟨d, hbuild⟩ := Catalog.exists_build_of_registered hcatalog hg
    have hargs := HasUnits.ones hcatalog hunits hparts
    rw [hcount] at hargs
    exact .call sp hfree hg hcount hargs (Function.yields_one hbuild hplain)

theorem HasUnits.ones (hcatalog : catalog.Registered) (hunits : ∀ eq ∈ set.equations, eq.unit.unit = .ok .one) :
    ∀ {es : List Expr}, (∀ p ∈ Expr.partsAll es, set.PlainAt catalog constants p) →
      HasUnits set catalog constants es (List.replicate es.length .one)
  | [], _ => .nil
  | _ :: _, h => by
    obtain ⟨hhead, htail⟩ := List.forall_mem_append.1 h
    exact .cons (HasUnit.one hcatalog hunits hhead) (HasUnits.ones hcatalog hunits htail)

end

theorem EquationSet.IsPlain.hasUnit_of_mem_parts (hcatalog : catalog.Registered) (h : set.IsPlain catalog constants)
    {e : Expr} (he : e ∈ set.parts) : HasUnit set catalog constants e .one :=
  HasUnit.one hcatalog h.units fun _ hp => h.parts _ (parts_trans hp he)

/-- **Sets of equations about plain numbers resolve**, however deep the expressions are, and everything in them is found
to be a plain number. -/
theorem resolve_of_isPlain (hcatalog : catalog.Registered) (h : set.IsPlain catalog constants) :
    ∃ r, resolve set catalog constants = .ok r ∧ ∀ e ∈ set.parts, ∃ n, r.scope.lower e = .ok (n, .one) := by
  have hwell : set.WellDimensioned catalog constants := by
    refine ⟨h.distinct, fun eq hmem => ⟨.one, h.units eq hmem⟩, fun eq hmem rhs hrhs => ⟨.one, h.units eq hmem, ?_⟩⟩
    exact h.hasUnit_of_mem_parts hcatalog (EquationSet.mem_parts.2 ⟨eq, hmem, rhs, hrhs, rhs.mem_parts_self⟩)
  obtain ⟨r, hr⟩ := resolve_of_wellDimensioned hwell
  refine ⟨r, hr, fun e he => ?_⟩
  exact Scope.lower_of_hasUnit (Resolved.built_of_resolve hr) (EquationSet.calledIn_of_mem_parts he)
    (h.hasUnit_of_mem_parts hcatalog he)

end

/-! ## A rule nobody foresaw -/

/-- The mean of two quantities of one dimension. -/
def mean : Draft where
  name := "mean"
  arity := 2
  implementation
    | x :: y :: _ => (x + y) / 2.0
    | _ => 0.0
  leastArguments := 2
  rule := some fun args => match args with
    | [a, b] => if a = b then .ok a else refuse (.mismatch (.argumentOf 2 "mean") a b)
    | _ => refuse (.arity 2 args.length)

/-- `x = sqrt(x ** y) - mean(-x, k) / y : 1`, with `y : second / second`. -/
def plainSet : EquationSet :=
  ⟨[⟨⟨"x", ⟨0, 1⟩⟩,
      some (.binary .sub
        (.call ⟨"sqrt", ⟨4, 8⟩⟩ [.binary .pow (.name "x" ⟨9, 10⟩) (.name "y" ⟨14, 15⟩) ⟨9, 15⟩] ⟨4, 16⟩)
        (.binary .div
          (.call ⟨"mean", ⟨19, 23⟩⟩ [.signed .neg (.name "x" ⟨25, 26⟩) ⟨24, 26⟩, .name "k" ⟨28, 29⟩] ⟨19, 30⟩)
          (.name "y" ⟨33, 34⟩) ⟨19, 34⟩) ⟨4, 34⟩),
      .number 1.0 ⟨37, 38⟩, ⟨0, 38⟩⟩,
    ⟨⟨"y", ⟨39, 40⟩⟩, none, .binary .div (.name "second" ⟨43, 49⟩) (.name "second" ⟨52, 58⟩) ⟨43, 58⟩, ⟨39, 58⟩⟩],
    ⟨0, 58⟩⟩

theorem resolve_of_isPlain_mean : ∃ catalog r, mean.build = .ok mean.function ∧
    Catalog.standard.register mean.function = (.ok (), catalog) ∧
      resolve plainSet catalog (.ofList [("k", .plain 3.0)]) = .ok r := by
  have hbuild : mean.build = .ok mean.function := rfl
  have hregister : Catalog.standard.register mean.function =
    (.ok (), Catalog.standard.insert "mean" mean.function) := rfl
  have hplain : plainSet.IsPlain (Catalog.standard.insert "mean" mean.function) (.ofList [("k", .plain 3.0)]) := by
    have hx : plainSet.Declares "x" := by decide
    have hy : plainSet.Declares "y" := by decide
    have hsqrt : plainSet.LeavesFree (.ofList [("k", .plain 3.0)]) "sqrt" := ⟨by decide, rfl, by decide⟩
    have hmean : plainSet.LeavesFree (.ofList [("k", .plain 3.0)]) "mean" := ⟨by decide, rfl, by decide⟩
    refine ⟨by decide, ?_, List.forall_iff_forall_mem.1 ?_⟩
    · exact List.forall_iff_forall_mem.1 ⟨rfl, rfl⟩
    · exact ⟨trivial, ⟨hsqrt, _, rfl, rfl, rfl⟩, trivial, .inl hx, .inl hy, trivial, ⟨hmean, _, rfl, rfl, rfl⟩, trivial,
        .inl hx, .inr ⟨_, rfl, rfl⟩, .inl hy⟩
  obtain ⟨r, hr, -⟩ := resolve_of_isPlain (.register .standard hbuild hregister) hplain
  exact ⟨_, r, hbuild, hregister, hr⟩

end FixedStep
