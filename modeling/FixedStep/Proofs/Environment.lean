import FixedStep.Proofs.Called
import FixedStep.Proofs.Evaluation
/-!
# Environment — a run told by names, without slots

An environment has a column for every name that is used as a value and an implementation for every name that is called.
An expression has its column there as it was written (`evaluate_of_lower`), and a run of a resolved set performs the
equations themselves, one after the other (`runFrom_of_resolve`).
-/
namespace FixedStep

/-- What names stand for while expressions are evaluated. -/
@[ext]
structure Environment where
  len : Nat
  value : String → Column
  function : String → List Float → Float

namespace Environment

def write (env : Environment) (name : String) (values : Column) : Environment :=
  ⟨env.len, fun other => if other = name then values else env.value other, env.function⟩

theorem write_comm (env : Environment) {a b : String} (hne : a ≠ b) (x y : Column) :
    (env.write a x).write b y = (env.write b y).write a x := by
  refine Environment.ext rfl (funext fun name => ?_) rfl
  dsimp only [write]
  by_cases ha : name = a
  · rw [if_pos ha, if_neg (ha ▸ hne), if_pos ha]
  · rw [if_neg ha, if_neg ha]

mutual

/-- The column of an expression, as it was written. -/
def column (env : Environment) : Expr → Column
  | .number v _ => List.replicate env.len v
  | .name n _ => env.value n
  | .signed .neg e _ => (env.column e).map Float.neg
  | .signed .plus e _ => env.column e
  | .binary op l r _ => List.zipWith op.apply (env.column l) (env.column r)
  | .call f args _ => (rows env.len (env.columns args)).map (env.function f.name)

def columns (env : Environment) : List Expr → List Column
  | [] => []
  | e :: es => env.column e :: env.columns es

end

variable {env : Environment} {name : String} {values : Column}

mutual

/-- **A write under a name that an expression does not use** leaves its column alone. -/
theorem column_write : ∀ {e : Expr}, name ∉ Scope.usedIn e → (env.write name values).column e = env.column e
  | .number _ _, _ => rfl
  | .name n _, h => if_neg fun heq : n = name => h (heq ▸ List.mem_cons_self)
  | .signed .neg e _, h => by
    rw [column, column, column_write (e := e) h]
  | .signed .plus e _, h => by
    rw [column, column, column_write (e := e) h]
  | .binary op l r _, h => by
    obtain ⟨hl, hr⟩ := not_or.1 (mt List.mem_append.2 h)
    rw [column, column, column_write hl, column_write hr]
  | .call f args _, h => by
    have hargs : name ∉ Scope.usedInAll args := h
    rw [column, column, columns_write hargs]
    rfl

theorem columns_write : ∀ {es : List Expr}, name ∉ Scope.usedInAll es →
    (env.write name values).columns es = env.columns es
  | [], _ => rfl
  | e :: es, h => by
    obtain ⟨he, hes⟩ := not_or.1 (mt List.mem_append.2 h)
    rw [columns, columns, column_write he, columns_write hes]

end

/-- An equation writes the column of its right-hand side under the name of its target. -/
def perform (env : Environment) (eq : Equation) : Environment :=
  match eq.rhs with
  | none => env
  | some rhs => env.write eq.target.name (env.column rhs)

end Environment

/-! ## The environment of a view -/

namespace Scope

variable {set : EquationSet} {catalog : Catalog} {constants : Constants} {s : Scope} {v : View}

/-- What the names of a scope stand for at a view. -/
def environment (s : Scope) (v : View) : Environment :=
  ⟨v.len,
    fun name => match s.value? name with
      | some (.state slot) => v.column slot
      | some (.constant q) => List.replicate v.len q.value
      | some (.clock reading) => List.replicate v.len (v.reading reading)
      | _ => [],
    fun name => match s.functions.find? name with
      | some f => f.implementation
      | none => fun _ => 0.0⟩

theorem evaluate_of_lowerName {name : String} {n : Node} {d : Dimension} (h : s.lowerName name = .ok (n, d)) :
    v.evaluate n = (s.environment v).value name := by
  dsimp only [environment]
  rcases lowerName_eq_ok.1 h with ⟨slot, hvalue, rfl, -⟩ | ⟨q, hvalue, rfl, -⟩ | ⟨reading, hvalue, rfl, -⟩ <;>
    rw [hvalue] <;> rfl

mutual

/-- **An expression has the column of what it was lowered to.** -/
theorem evaluate_of_lower (hb : Built set catalog constants s) : ∀ {e : Expr} {n : Node} {d : Dimension},
    s.lower e = .ok (n, d) → v.evaluate n = (s.environment v).column e
  | .number _ _, _, _, h => by
    cases h
    rfl
  | .name _ _, _, _, h => by
    rw [lower] at h
    exact evaluate_of_lowerName h
  | .signed .neg e _, _, _, h => by
    obtain ⟨n, hn, rfl⟩ := lower_neg.1 h
    rw [View.evaluate, evaluate_of_lower hb hn, Environment.column]
  | .signed .plus e _, _, _, h => by
    rw [lower] at h
    rw [evaluate_of_lower hb h, Environment.column]
  | .binary op l r sp, _, _, h => by
    obtain ⟨ln, ld, rn, rd, hl, hr, -, rfl⟩ := lower_binary.1 h
    rw [View.evaluate, evaluate_of_lower hb hl, evaluate_of_lower hb hr, Environment.column]
  | .call f args sp, _, _, h => by
    obtain ⟨g, lowered, hcallee, hargs, -, rfl⟩ := lower_call.1 h
    have hfunction : (s.environment v).function f.name = g.implementation := by
      dsimp only [environment]
      rw [functions_of_callee hcallee]
    rw [View.evaluate, evaluateAll_of_lowerAll hb hargs, Environment.column, hfunction]
    rfl

theorem evaluateAll_of_lowerAll (hb : Built set catalog constants s) : ∀ {es : List Expr}
    {lowered : List (Node × Dimension)}, s.lowerAll es = .ok lowered →
      v.evaluateAll (lowered.map (·.1)) = (s.environment v).columns es
  | [], _, h => by
    cases h
    rfl
  | e :: es, _, h => by
    obtain ⟨⟨n, d⟩, rest, hfirst, hrest, rfl⟩ := lowerAll_cons.1 h
    rw [List.map_cons, View.evaluateAll, evaluate_of_lower hb hfirst, evaluateAll_of_lowerAll hb hrest,
      Environment.columns]

end

/-! ## Runs -/

theorem nameOf_of_slot? {name : String} {slot : Nat} (h : s.slot? name = some slot) : s.nameOf slot = name := by
  obtain ⟨x, hx, rfl⟩ := getElem?_of_slot? h
  rw [nameOf, hx]
  rfl

theorem environment_write (hcount : v.columns.length = s.stateVariables.length) {name : String} {slot : Nat}
    (hslot : s.slot? name = some slot) (c : Column) :
    s.environment (v.write slot c) = (s.environment v).write name c := by
  have hlt : slot < v.columns.length := hcount ▸ slot_lt_of_slot? hslot
  refine Environment.ext rfl (funext fun other => ?_) rfl
  dsimp only [environment, Environment.write]
  -- a slot has one name, so no other name is written
  by_cases hother : other = name
  · rw [if_pos hother, hother, value?_eq_state.2 hslot]
    exact (View.column_write hlt c slot).trans (if_pos rfl)
  · rw [if_neg hother]
    cases hvalue : s.value? other with
    | none => rfl
    | some b =>
      cases b with
      | state place =>
        have hplace := value?_eq_state.1 hvalue
        have hne : slot ≠ place := by
          rintro rfl
          exact hother ((nameOf_of_slot? hplace).symm.trans (nameOf_of_slot? hslot))
        exact (View.column_write hlt c place).trans (if_neg hne)
      | constant q => rfl
      | clock reading => cases reading <;> rfl
      | function f => rfl

/-- **Updates in order perform their equations in order.** -/
theorem environment_updateAll (hb : Built set catalog constants s) : ∀ {eqs : List Equation} {us : List Update}
    {v : View}, s.lowerEquations eqs = .ok us → v.columns.length = s.stateVariables.length →
      s.environment (v.updateAll us) = eqs.foldl Environment.perform (s.environment v)
  | [], _, _, h, _ => by
    cases h
    rfl
  | eq :: eqs, _, v, h, hcount => by
    rw [List.foldl_cons]
    rcases lowerEquations_cons.1 h with ⟨hrhs, hrest⟩ | ⟨rhs, slot, node, rest, hrhs, hslot, hlower, hrest, rfl⟩
    · rw [environment_updateAll hb hrest hcount, Environment.perform, hrhs]
    · have hafter : (v.update ⟨slot, node⟩).columns.length = s.stateVariables.length :=
        List.length_set.trans hcount
      rw [View.updateAll_cons, environment_updateAll hb hrest hafter, Environment.perform, hrhs, View.update,
        environment_write hcount hslot, evaluate_of_lower hb hlower]

/-- What updates have written, told by the names of their equations' targets. -/
theorem written_of_lowerEquations (v : View) : ∀ {eqs : List Equation} {us : List Update},
    s.lowerEquations eqs = .ok us → (us.map fun u => (s.nameOf u.target, v.column u.target)) =
      (eqs.filter (·.rhs.isSome)).map fun eq => (eq.target.name, (s.environment v).value eq.target.name)
  | [], _, h => by
    cases h
    rfl
  | eq :: eqs, _, h => by
    rcases lowerEquations_cons.1 h with ⟨hrhs, hrest⟩ | ⟨rhs, slot, node, rest, hrhs, hslot, -, hrest, rfl⟩
    · rw [List.filter_cons_of_neg (by rw [hrhs]; exact Bool.false_ne_true), written_of_lowerEquations v hrest]
    · have hvalue : (s.environment v).value eq.target.name = v.column slot := by
        dsimp only [environment]
        rw [value?_eq_state.2 hslot]
      rw [List.filter_cons_of_pos (by rw [hrhs]; rfl), List.map_cons, List.map_cons, written_of_lowerEquations v hrest,
        nameOf_of_slot? hslot, hvalue]

end Scope

/-- The columns that equations leave under the names of their targets. -/
def Environment.outcome (env : Environment) (eqs : List Equation) : NameMap Column :=
  .ofList ((eqs.filter (·.rhs.isSome)).map fun eq => (eq.target.name, (eqs.foldl perform env).value eq.target.name))

/-- **A run performs the equations by their names.** -/
theorem Resolved.runFrom_of_resolve {set : EquationSet} {catalog : Catalog} {constants : Constants} {r : Resolved}
    (h : resolve set catalog constants = .ok r) {s : Snapshot} {columns : List Column}
    (hcolumns : s.columns r.scope = .ok columns) :
    r.runFrom s columns = (r.scope.environment ⟨s.len, columns, s.t, s.dt⟩).outcome set.equations := by
  have hcount := (square_columns hcolumns).count
  have hupdates := updates_of_resolve h
  rw [runFrom, outputs, Scope.written_of_lowerEquations _ hupdates,
    Scope.environment_updateAll (built_of_resolve h) hupdates hcount, Environment.outcome]

end FixedStep
