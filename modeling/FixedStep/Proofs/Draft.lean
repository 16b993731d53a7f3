import FixedStep.Proofs.Typing
/-!
# Draft — what is checked when a function is built, and what calls may rely on

Building asks four things of a draft (`Draft.Coherent`), some of them only where a rule or an implementation over
quantities is given, and nothing else decides (`Draft.build_iff`).  A function that was built keeps to its declared
dimensions, and a call on quantities is the plain call beside the judgment of its dimensions (`Draft.declared_of_build`).
-/
namespace FixedStep

namespace UnitRule

variable {name : String} {inputs : List Dimension} {output found : Dimension}

theorem confirm_eq_ok {u : Unit} : confirm name output found = .ok u ↔ found = output := by
  unfold confirm
  split
  · rename_i heq
    exact ⟨fun _ => heq, fun _ => rfl⟩
  · rename_i hne
    exact ⟨fun h => absurd h refuse_ne_ok, fun heq => absurd heq hne⟩

/-- **A rule passes its check** when it takes the declared inputs to the declared output. -/
theorem check_eq_ok {rule : UnitRule} {u : Unit} :
    check name rule inputs output = .ok u ↔ rule inputs = .ok output := by
  simp only [check, bind_eq_ok, confirm_eq_ok, exists_eq_right]

theorem checkOperands_eq_ok {f : QuantityFunction} {u : Unit} : checkOperands name f inputs output = .ok u ↔
    ∃ q, f (inputs.map fun d => ⟨1.0, d⟩) = .ok q ∧ q.dimension = output := by
  simp only [checkOperands, bind_eq_ok, confirm_eq_ok]

end UnitRule

theorem Signature.isPlain_iff {s : Signature} : s.isPlain ↔ s = .plain s.inputs.length := by
  obtain ⟨inputs, output⟩ := s
  simp only [isPlain, plain, Bool.and_eq_true, List.all_eq_true, Dimension.isOne_iff, Signature.mk.injEq,
    List.eq_replicate_iff, true_and, and_comm]

/-! ## Calls -/

namespace Function

variable {f : Function}

theorem length_of_resultUnit {units : List Dimension} {d : Dimension} (h : f.resultUnit units = .ok d) :
    units.length = f.arity := by
  unfold resultUnit at h
  split at h
  · exact absurd h refuse_ne_ok
  · rename_i hcount
    exact Decidable.not_not.1 hcount

/-- **A call on quantities is judged by their dimensions alone**, and then has the value of the plain call. -/
theorem callQuantities_eq_ok {args : List Quantity} {q : Quantity} : f.callQuantities args = .ok q ↔
    f.resultUnit (args.map (·.dimension)) = .ok q.dimension ∧ f.call (args.map (·.value)) = .ok q.value := by
  simp only [callQuantities, bind_eq_ok, pure_eq_ok, Checked.ofExcept_eq_ok]
  constructor
  · rintro ⟨d, hd, v, hv, rfl⟩
    exact ⟨hd, hv⟩
  · rintro ⟨hd, hv⟩
    exact ⟨q.dimension, hd, q.value, hv, rfl⟩

theorem callQuantities_of_error {args : List Quantity} {fault : Fault UnitError}
    (h : f.resultUnit (args.map (·.dimension)) = .error fault) : f.callQuantities args = .error fault := by
  rw [callQuantities, h]
  rfl

/-- **How the three ways of using a function agree**: the dimension of its result, a call on numbers and a call on
quantities. -/
structure CallsAgree (f : Function) : Prop where
  unitsCounted : ∀ units : List Dimension, units.length ≠ f.arity →
    f.resultUnit units = refuse (.arity f.arity units.length)
  numbersCounted : ∀ xs : List Float, xs.length ≠ f.arity → f.call xs = .error (.arity f.arity xs.length)
  quantitiesCounted : ∀ args : List Quantity, args.length ≠ f.arity →
    f.callQuantities args = refuse (.arity f.arity args.length)
  accepted : ∀ args : List Quantity,
    (∃ q, f.callQuantities args = .ok q) ↔ ∃ d, f.resultUnit (args.map (·.dimension)) = .ok d
  value : ∀ (args : List Quantity) (q : Quantity), f.callQuantities args = .ok q →
    f.call (args.map (·.value)) = .ok q.value ∧ f.resultUnit (args.map (·.dimension)) = .ok q.dimension
  fault : ∀ (args : List Quantity) (fault : Fault UnitError),
    f.resultUnit (args.map (·.dimension)) = .error fault → f.callQuantities args = .error fault

theorem callsAgree (f : Function) : f.CallsAgree := by
  have hunits : ∀ units : List Dimension, units.length ≠ f.arity →
      f.resultUnit units = refuse (.arity f.arity units.length) := fun _ hcount => if_pos hcount
  refine ⟨hunits, fun _ hcount => if_pos hcount, fun args hcount => ?_, fun args => ⟨?_, ?_⟩,
    fun _ _ h => (callQuantities_eq_ok.1 h).symm, fun _ _ => callQuantities_of_error⟩
  · have hrefused := hunits (args.map (·.dimension)) (by rwa [List.length_map])
    rw [List.length_map] at hrefused
    exact callQuantities_of_error hrefused
  · rintro ⟨q, hq⟩
    exact ⟨_, (callQuantities_eq_ok.1 hq).1⟩
  · rintro ⟨d, hd⟩
    -- the plain call refuses only a count, and the count was judged with the dimensions
    have hcount : (args.map (·.value)).length = f.arity := by
      rw [List.length_map, ← length_of_resultUnit hd, List.length_map]
    exact ⟨⟨_, d⟩, callQuantities_eq_ok.2 ⟨hd, if_neg fun hne => hne hcount⟩⟩

end Function

/-! ## Building -/

namespace Draft

/-- **What building asks of a draft.**  Its dimensions are declared for as many arguments as it takes; a rule and an
implementation over quantities confirm them; and without either they are those of plain numbers. -/
structure Coherent (d : Draft) : Prop where
  count : d.signature.inputs.length = d.arity
  rule : ∀ rule, d.rule = some rule → rule d.signature.inputs = .ok d.signature.output
  overQuantities : ∀ f, d.overQuantities = some f →
    ∃ q, f (d.signature.inputs.map fun u => ⟨1.0, u⟩) = .ok q ∧ q.dimension = d.signature.output
  plain : d.rule = none → d.overQuantities = none → d.signature = .plain d.arity

variable {d : Draft} {f : Function}

theorem coherent_iff : d.Coherent ↔ d.signature.inputs.length = d.arity ∧
    (∀ rule, d.rule = some rule → rule d.signature.inputs = .ok d.signature.output) ∧
    (∀ f, d.overQuantities = some f →
      ∃ q, f (d.signature.inputs.map fun u => ⟨1.0, u⟩) = .ok q ∧ q.dimension = d.signature.output) ∧
    (d.rule = none → d.overQuantities = none → d.signature = .plain d.arity) :=
  ⟨fun h => ⟨h.count, h.rule, h.overQuantities, h.plain⟩, fun ⟨hcount, hrule, hover, hplain⟩ =>
    ⟨hcount, hrule, hover, hplain⟩⟩

/-- **A draft is built when it is coherent**, and to nothing but its own function. -/
theorem build_iff : d.build = .ok f ↔ d.Coherent ∧ f = d.function := by
  unfold build
  rw [ite_refuse_eq_ok, coherent_iff, Decidable.not_not, and_assoc]
  refine and_congr_right fun hcount => ?_
  have hplain : d.signature.isPlain ↔ d.signature = .plain d.arity := hcount ▸ Signature.isPlain_iff
  have hsame : d.function = f ↔ f = d.function := eq_comm
  -- a check is there only where its part is given
  cases hrule : d.rule with
  | none =>
    cases hover : d.overQuantities with
    | none =>
      simp only [ite_refuse_eq_ok, pure_eq_ok]
      simp [hplain, hsame]
    | some g =>
      simp only [bind_eq_ok, ite_refuse_eq_ok, pure_eq_ok, UnitRule.checkOperands_eq_ok]
      simp [hsame]
  | some rule =>
    cases hover : d.overQuantities with
    | none =>
      simp only [bind_eq_ok, ite_refuse_eq_ok, pure_eq_ok, UnitRule.check_eq_ok]
      simp [hsame]
    | some g =>
      simp only [bind_eq_ok, ite_refuse_eq_ok, pure_eq_ok, UnitRule.check_eq_ok, UnitRule.checkOperands_eq_ok]
      simp [hsame, and_assoc]

/-- The declared inputs are accepted, by the rule or because they are declared. -/
theorem Coherent.resultUnit (h : d.Coherent) : d.function.resultUnit d.signature.inputs = .ok d.signature.output := by
  refine (Function.resultUnit_eq_ok rfl).2 ?_
  cases hrule : d.rule with
  | some rule => exact .inl ⟨rule, hrule, h.rule rule hrule⟩
  | none => exact .inr ⟨hrule, rfl, rfl⟩

/-- A function without a rule accepts the declared inputs and nothing else. -/
theorem resultUnit_of_rule_none (hrule : d.rule = none) {units : List Dimension} {u : Dimension} :
    d.function.resultUnit units = .ok u ↔ units = d.signature.inputs ∧ u = d.signature.output := by
  constructor
  · intro h
    rcases (Function.resultUnit_eq_ok (Function.length_of_resultUnit h)).1 h with ⟨rule, hsome, -⟩ | ⟨-, hunits, hu⟩
    · cases hrule.symm.trans hsome
    · exact ⟨hunits, hu⟩
  · rintro ⟨rfl, rfl⟩
    exact (Function.resultUnit_eq_ok rfl).2 (.inr ⟨hrule, rfl, rfl⟩)

/-- **A function that was built keeps to its declared dimensions.**  It declares one for each argument and takes them to
the declared output; without a rule and an implementation over quantities it takes plain numbers to plain numbers and
accepts nothing else; and its calls on quantities, its calls on numbers and the dimensions of its results agree. -/
theorem declared_of_build (h : d.build = .ok f) : (f.signature.inputs.length = d.arity ∧ f.arity = d.arity) ∧
    f.resultUnit f.signature.inputs = .ok f.signature.output ∧
    (d.rule = none → d.overQuantities = none → f.signature = .plain d.arity ∧
      ∀ units u, f.resultUnit units = .ok u ↔ units = List.replicate d.arity .one ∧ u = .one) ∧
    f.CallsAgree := by
  obtain ⟨hcoherent, rfl⟩ := build_iff.1 h
  refine ⟨⟨hcoherent.count, hcoherent.count⟩, hcoherent.resultUnit, fun hrule hover => ?_, Function.callsAgree _⟩
  have hplain := hcoherent.plain hrule hover
  refine ⟨hplain, fun units u => ?_⟩
  rw [resultUnit_of_rule_none hrule, hplain]
  rfl

/-- Metres per second, with no rule and an implementation over quantities. -/
def speed : Draft where
  name := "speed"
  arity := 2
  implementation
    | x :: y :: _ => x / y
    | _ => 0.0
  leastArguments := 2
  units := some ⟨[⟨1, 0, 0, 0, 0, 0, 0⟩, .time], ⟨1, 0, -1, 0, 0, 0, 0⟩⟩
  overQuantities := some fun args => match args with
    | [x, y] => do
      let d ← Checked.ofOption (x.dimension.div? y.dimension)
      return ⟨x.value / y.value, d⟩
    | _ => refuse (.arity 2 args.length)

theorem declared_of_build_speed : speed.build = .ok speed.function ∧
    speed.function.resultUnit [⟨1, 0, 0, 0, 0, 0, 0⟩, .time] = .ok ⟨1, 0, -1, 0, 0, 0, 0⟩ ∧
    (∃ q, speed.function.callQuantities [⟨6.0, ⟨1, 0, 0, 0, 0, 0, 0⟩⟩, ⟨2.0, .time⟩] = .ok q) ∧
    speed.function.callQuantities [⟨6.0, .one⟩] = refuse (.arity 2 1) := by
  have hbuild : speed.build = .ok speed.function := rfl
  obtain ⟨-, hdeclared, -, hcalls⟩ := declared_of_build hbuild
  exact ⟨hbuild, hdeclared, (hcalls.accepted _).2 ⟨_, hdeclared⟩, hcalls.quantitiesCounted _ (by decide)⟩

end Draft
end FixedStep
