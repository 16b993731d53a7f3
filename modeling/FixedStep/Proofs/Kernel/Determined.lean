import FixedStep.Proofs.Called
import FixedStep.Proofs.Decimal.Printing
import FixedStep.Proofs.Grammar.Legible
import FixedStep.Proofs.Kernel.Equivalence
/-!
# Determined — a printed expression has one value

Two expressions of a scope that are printed alike are read as one term, and a machine that calls the scope's functions
by their names gives it one value (`evaluate_eq_of_expression_eq`).  The one name that operators share with functions is
that of the power: a function of two arguments called `pow` is printed as the operator is, and has to do what it does.
-/
namespace FixedStep

namespace Kernel

variable {set : EquationSet} {catalog : Catalog} {constants : Constants} {s : Scope}

/-- The functions of a scope have names that a text can hold. -/
theorem isName_of_function (hb : Scope.Built set catalog constants s) (hset : ∀ eq ∈ set.equations, eq.Legible)
    {name : String} {f : Function} (h : s.functions.find? name = some f) : Word.isName name.toList := by
  rw [hb.functions_eq] at h
  split at h
  · rename_i hname
    rcases List.mem_append.1 hname.1 with hcalled | hused
    · obtain ⟨e, he, hname⟩ := List.mem_flatMap.1 hcalled
      obtain ⟨eq, heq, hrhs⟩ := List.mem_filterMap.1 he
      exact Expr.legible_called ((hset eq heq).rhs e hrhs) name hname
    · obtain ⟨e, he, hname⟩ := List.mem_flatMap.1 hused
      obtain ⟨eq, heq, hrhs⟩ := List.mem_filterMap.1 he
      exact Expr.legible_used ((hset eq heq).rhs e hrhs) name hname
  · cases h

theorem isNameRest_of_isName {cs : List Char} (h : Word.isName cs) : cs.all Lexeme.isNameRest := by
  cases cs with
  | nil => cases h
  | cons c cs =>
    obtain ⟨hstart, hrest⟩ := (Bool.and_eq_true _ _).mp h
    exact (Bool.and_eq_true _ _).mpr ⟨Lexeme.isNameRest_of_isNameStart hstart, hrest⟩

theorem nameOf_legible (hb : Scope.Built set catalog constants s) (hset : ∀ eq ∈ set.equations, eq.Legible) {slot : Nat}
    (hslot : slot < s.stateVariables.length) : (s.nameOf slot).toList.all Lexeme.isNameRest := by
  have hmem := Resolved.nameOf_mem hslot
  rw [(Scope.declare_ok hb.declared).1] at hmem
  obtain ⟨eq, heq, hname⟩ := List.mem_map.1 hmem
  rw [← hname]
  exact isNameRest_of_isName (hset eq heq).target

/-- **The words of a printed expression are those of one term.** -/
theorem term_eq_of_expression_eq {n n' : Node} (hn : Named s n) (hn' : Named s n')
    (h : expression s n = expression s n') : term id s n = term id s n' := by
  have hnil : ∀ c ∈ ([] : List Char).head?, Word.ends c := fun _ h => by cases h
  have hcut := cut_expression hn hnil
  have hcut' := cut_expression hn' hnil
  rw [← h, hcut] at hcut'
  have hwords : words id s n = words id s n' := by simpa [Word.cut, Word.Pending.words?] using hcut'
  have hread := ofWords?_words id s n
  rw [hwords, ofWords?_words] at hread
  exact (Option.some.inj hread).symm

/-! ## A machine for a scope -/

/-- Every literal is read as its number. -/
theorem read_literal {v : Float} (hfinite : Binary.isFinite v) :
    (some (Decimal.ofSpelling (String.ofList (magnitudeText v)).toList).toFloat).map
      (if Binary.isNegative v then Float.neg else id) = some v := by
  rw [String.toList_ofList, Option.map_some]
  split
  · rename_i hsign
    exact congrArg some (literalLayout.neg_toFloat_magnitude hfinite hsign)
  · rename_i hsign
    exact congrArg some (literalLayout.toFloat_magnitude_of_nonneg hfinite (Bool.eq_false_iff.2 hsign))

/-- A machine that has the functions of a scope under their names, and the power under its own. -/
def Machine.host (s : Scope) : Machine where
  number word := some (Decimal.ofSpelling word.toList).toFloat
  neg := Float.neg
  arithmetic := Operator.apply
  library name xs :=
    match name, xs with
    | "pow", [x, y] => some (Float.pow x y)
    | name, xs => (s.functions.find? name).map fun f => f.implementation xs

theorem host_calculates (s : Scope) : (Machine.host s).Calculates := ⟨fun _ => rfl, fun _ _ _ _ => rfl, fun _ _ => rfl⟩

/-- A function of two arguments called `pow` does what the operator does. -/
def PowersAgree (s : Scope) : Prop :=
  ∀ f, s.functions.find? "pow" = some f → f.arity = 2 → ∀ x y, f.implementation [x, y] = Float.pow x y

theorem provides_host (hpow : PowersAgree s) {f : Function} (h : s.functions.find? f.name = some f) :
    Provides (Machine.host s) id f := by
  intro xs hxs
  simp only [Machine.host, id]
  split
  · rename_i x y hname
    rw [hname] at h
    exact congrArg some (hpow f h hxs.symm x y).symm
  · rw [h]
    rfl

theorem runnable_lower (hkeyed : catalog.Keyed) (hb : Scope.Built set catalog constants s) (hpow : PowersAgree s)
    {e : Expr} {n : Node} {d : Dimension} (h : s.lower e = .ok (n, d)) : Runnable catalog s (Machine.host s) id n :=
  ⟨⟨Scope.lower_slots h, fun f hf => provides_host hpow (Scope.functions_of_lower hkeyed hb h f hf),
    fun _ _ => value_literal (fun _ => rfl) read_literal⟩, Scope.lower_callsIn hb h⟩

theorem named_lower (hkeyed : catalog.Keyed) (hb : Scope.Built set catalog constants s)
    (hset : ∀ eq ∈ set.equations, eq.Legible) {e : Expr} {n : Node} {d : Dimension} (h : s.lower e = .ok (n, d)) :
    Named s n :=
  ⟨fun slot hslot => nameOf_legible hb hset (Scope.lower_slots h slot hslot),
    fun f hf => isName_of_function hb hset (Scope.functions_of_lower hkeyed hb h f hf), fun _ _ => trivial⟩

/-- **What is printed alike has one value.**  In the scope of a text's equations, over any constants and any functions
under names of their own, expressions that are printed alike have equal columns in every view; a function of two
arguments called `pow` is asked to do what the operator does. -/
theorem evaluate_eq_of_expression_eq {source : String} (hparse : (parse source).equations = some set)
    (hkeyed : catalog.Keyed) (hbuild : Scope.build set catalog constants = .ok s) (hpow : PowersAgree s) {e e' : Expr}
    {n n' : Node} {d d' : Dimension} (hn : s.lower e = .ok (n, d)) (hn' : s.lower e' = .ok (n', d'))
    (htext : expression s n = expression s n') {v : View} (hv : v.Square s.stateVariables.length) :
    v.evaluate n = v.evaluate n' := by
  have hset := legible_of_parse hparse
  have hb := Scope.built_of_build hbuild
  have hdistinct : (s.stateVariables.map (·.name)).Nodup := by
    rw [(Scope.declare_ok hb.declared).1]
    exact (Scope.nodup_of_declare hb.declared).1
  have hterm := term_eq_of_expression_eq (named_lower hkeyed hb hset hn) (named_lower hkeyed hb hset hn') htext
  have hmirrors := mirrors_start hdistinct hv.count
  have hlength := View.length_evaluate hv (Scope.lower_slots hn)
  have hlength' := View.length_evaluate hv (Scope.lower_slots hn')
  refine List.ext_getElem? fun i => ?_
  -- at every element both columns have the value of the one term
  by_cases hi : i < v.len
  · have hagrees : AgreesAt s _ v i :=
      ⟨fun slot hslot => congrArg (Option.bind · (·[i]?)) (hmirrors.arrays slot hslot), hmirrors.t, hmirrors.dt⟩
    rw [← value_term (host_calculates s) hv hi hagrees (runnable_lower hkeyed hb hpow hn), hterm,
      value_term (host_calculates s) hv hi hagrees (runnable_lower hkeyed hb hpow hn')]
  · rw [List.getElem?_eq_none (by omega), List.getElem?_eq_none (by omega)]

/-! ## A function called `pow` -/

/-- A function of two arguments under the name that the power has. -/
def namedPow (f : Float → Float → Float) : Function where
  name := "pow"
  signature := .plain 2
  implementation
    | x :: y :: _ => f x y
    | _ => 0.0
  leastArguments := 2
  rule := none
  interpreted := none
  native := some ⟨"", ""⟩

/-- The built-in functions and `namedPow f`. -/
def withPow (f : Float → Float → Float) : Catalog := Catalog.standard.insert "pow" (namedPow f)

theorem register_namedPow (f : Float → Float → Float) :
    Catalog.standard.register (namedPow f) = (.ok (), withPow f) := rfl

/-- `pow(x, k)` -/
def calledPow : Expr := .call ⟨"pow", ⟨4, 7⟩⟩ [.name "x" ⟨8, 9⟩, .name "k" ⟨11, 12⟩] ⟨4, 13⟩

/-- `x ** -2` -/
def writtenPow : Expr := .binary .pow (.name "x" ⟨22, 23⟩) (.signed .neg (.number 2.0 ⟨28, 29⟩) ⟨27, 29⟩) ⟨22, 29⟩

/-- `a = pow(x, k) : 1` and `b = x ** -2 : 1`, with `x : 1` -/
def squares : EquationSet :=
  ⟨[⟨⟨"a", ⟨0, 1⟩⟩, some calledPow, .number 1.0 ⟨16, 17⟩, ⟨0, 17⟩⟩,
    ⟨⟨"b", ⟨18, 19⟩⟩, some writtenPow, .number 1.0 ⟨32, 33⟩, ⟨18, 33⟩⟩,
    ⟨⟨"x", ⟨34, 35⟩⟩, none, .number 1.0 ⟨38, 39⟩, ⟨34, 39⟩⟩], ⟨0, 39⟩⟩

/-- The scope of `squares` where `k` is -2. -/
def squaresScope (f : Float → Float → Float) : Scope :=
  ⟨[⟨"a", .one, some 0⟩, ⟨"b", .one, some 1⟩, ⟨"x", .one, none⟩], .ofList [("k", ⟨-2.0, .one⟩)],
    .ofList [("pow", namedPow f)]⟩

/-- One element, with `x` at 2. -/
def two : View := ⟨1, [[0.0], [0.0], [2.0]], 0.0, 0.5⟩

/-- A call of the power and a use of the operator, printed alike: `pow(_var_x[_i], (-2.0))`. -/
theorem evaluate_namedPower : ∃ n n', (squaresScope Float.pow).lower calledPow = .ok (n, .one) ∧
    (squaresScope Float.pow).lower writtenPow = .ok (n', .one) ∧ n ≠ n' ∧
      expression (squaresScope Float.pow) n = expression (squaresScope Float.pow) n' ∧
        two.evaluate n = two.evaluate n' := by
  have hparse : (parse "a = pow(x, k) : 1\nb = x ** -2 : 1\nx : 1").equations = some squares := by
    with_unfolding_all rfl
  have hkeyed := Catalog.keyed_register Catalog.keyed_standard (register_namedPow Float.pow)
  have hbuild : Scope.build squares (withPow Float.pow) (.ofList [("k", ⟨-2.0, .one⟩)]) =
    .ok (squaresScope Float.pow) := rfl
  have hpow : PowersAgree (squaresScope Float.pow) := by
    intro f h _ x y
    obtain rfl := Option.some.inj h
    rfl
  have hn : (squaresScope Float.pow).lower calledPow =
    .ok (.call (namedPow Float.pow) [.state 2, .const (-2.0)], .one) := rfl
  have hn' : (squaresScope Float.pow).lower writtenPow = .ok (.binary .pow (.state 2) (.neg (.const 2.0)), .one) := rfl
  have hsquare : two.Square 3 := ⟨rfl, by decide⟩
  exact ⟨_, _, hn, hn', nofun, rfl, evaluate_eq_of_expression_eq hparse hkeyed hbuild hpow hn hn' rfl hsquare⟩

/-- A sum or a difference that is called `pow` is printed as the power is, and at 2 and -2 the power is not both. -/
theorem evaluate_namedSum : ∃ f ∈ [Float.add, Float.sub], ∃ n n', (squaresScope f).lower calledPow = .ok (n, .one) ∧
    Catalog.standard.register (namedPow f) = (.ok (), withPow f) ∧
    (parse "a = pow(x, k) : 1\nb = x ** -2 : 1\nx : 1").equations = some squares ∧
    resolve squares (withPow f) (.ofList [("k", ⟨-2.0, .one⟩)]) = .ok ⟨squaresScope f, [⟨0, n⟩, ⟨1, n'⟩]⟩ ∧
      expression (squaresScope f) n = expression (squaresScope f) n' ∧ two.evaluate n ≠ two.evaluate n' := by
  have h : ∃ f ∈ [Float.add, Float.sub], f 2.0 (-2.0) ≠ Float.pow 2.0 (-2.0) := by
    by_contra! hall
    have hsum := hall _ List.mem_cons_self
    have hdifference := hall Float.sub (List.mem_cons_of_mem _ List.mem_cons_self)
    exact absurd (hsum.trans hdifference.symm) (by decide +kernel)
  obtain ⟨f, hf, hne⟩ := h
  refine ⟨f, hf, .call (namedPow f) [.state 2, .const (-2.0)], .binary .pow (.state 2) (.neg (.const 2.0)), rfl, rfl,
    by with_unfolding_all rfl, rfl, rfl, fun heq => hne ?_⟩
  exact (List.cons.inj heq).1

end Kernel
end FixedStep
