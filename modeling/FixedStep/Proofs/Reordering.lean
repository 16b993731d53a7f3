import FixedStep.Catalog.Builtin
import FixedStep.CodeObject
import FixedStep.Proofs.Environment
/-!
# Reordering — only updates that depend on each other are held in order

Two equations neither of which reads what the other writes can be performed in either order (`perform_comm`).  So a set
of equations may be reordered as long as dependent updates keep their order (`EquationSet.Reorders`): it resolves if it
did, and every execution has the same outcome (`execute_reordered`).
-/
namespace FixedStep

/-! ## Dependence -/

namespace Equation

/-- The right-hand side of an equation uses a name as a value. -/
def Reads (eq : Equation) (name : String) : Prop := ∃ rhs ∈ eq.rhs, name ∈ Scope.usedIn rhs

/-- Two updates of which one reads the target of the other. -/
def Dependent (a b : Equation) : Prop :=
  a.rhs.isSome ∧ b.rhs.isSome ∧ (a.Reads b.target.name ∨ b.Reads a.target.name)

instance (eq : Equation) (name : String) : Decidable (eq.Reads name) :=
  inferInstanceAs (Decidable (∃ rhs ∈ eq.rhs, name ∈ Scope.usedIn rhs))

instance (a b : Equation) : Decidable (Dependent a b) :=
  inferInstanceAs (Decidable (a.rhs.isSome ∧ b.rhs.isSome ∧ (a.Reads b.target.name ∨ b.Reads a.target.name)))

end Equation

open Equation (Dependent)

/-- **The same equations in another order**: of two dependent updates, the one that was first is first again. -/
structure EquationSet.Reorders (set set' : EquationSet) : Prop where
  perm : set.equations.Perm set'.equations
  kept : set.equations.Pairwise fun a b => Dependent a b → [a, b].Sublist set'.equations

namespace Environment

/-- **Equations that do not depend on each other** may be performed in either order. -/
theorem perform_comm (env : Environment) {a b : Equation} (hne : a.target.name ≠ b.target.name)
    (hindependent : ¬ Dependent a b) : (env.perform a).perform b = (env.perform b).perform a := by
  cases ha : a.rhs with
  | none => simp only [perform, ha]
  | some l =>
    cases hb : b.rhs with
    | none => simp only [perform, ha, hb]
    | some r =>
      have hl : b.target.name ∉ Scope.usedIn l := fun h =>
        hindependent ⟨by rw [ha]; rfl, by rw [hb]; rfl, .inl ⟨l, ha, h⟩⟩
      have hr : a.target.name ∉ Scope.usedIn r := fun h =>
        hindependent ⟨by rw [ha]; rfl, by rw [hb]; rfl, .inr ⟨r, hb, h⟩⟩
      simp only [perform, ha, hb]
      rw [column_write hl, column_write hr, write_comm env hne]

/-- An equation may be performed before all those that do not depend on it. -/
theorem foldl_perform_front {x : Equation} : ∀ {front : List Equation} (env : Environment) (rest : List Equation),
    (∀ y ∈ front, y.target.name ≠ x.target.name ∧ ¬ Dependent y x) →
      (front ++ x :: rest).foldl perform env = (x :: (front ++ rest)).foldl perform env
  | [], _, _, _ => rfl
  | y :: front, env, rest, h => by
    obtain ⟨⟨hne, hindependent⟩, hfront⟩ := List.forall_mem_cons.1 h
    rw [List.cons_append, List.foldl_cons, foldl_perform_front _ rest hfront, List.foldl_cons,
      perform_comm env hne hindependent]
    rfl

/-- **A reordering performs to the same end**, where the targets are distinct. -/
theorem foldl_perform_reordered : ∀ {xs ys : List Equation} (env : Environment), xs.Perm ys →
    (xs.map (·.target.name)).Nodup → (ys.Pairwise fun a b => Dependent a b → [a, b].Sublist xs) →
      xs.foldl perform env = ys.foldl perform env
  | [], ys, env, hperm, _, _ => by rw [hperm.nil_eq]
  | x :: xs, ys, env, hperm, hdistinct, hkept => by
    obtain ⟨hfresh, hdistinct⟩ := List.nodup_cons.1 hdistinct
    -- `x` stands somewhere in the other order, and nothing before it there depends on it
    obtain ⟨front, rest, rfl⟩ := List.append_of_mem (hperm.mem_iff.1 List.mem_cons_self)
    have hrest : xs.Perm (front ++ rest) := (List.perm_cons x).1 (hperm.trans List.perm_middle)
    have hmem : ∀ y ∈ front ++ rest, y ∈ xs := fun y hy => hrest.mem_iff.2 hy
    have hnot : x ∉ xs := fun h => hfresh (List.mem_map_of_mem h)
    have hfront : ∀ y ∈ front, y.target.name ≠ x.target.name ∧ ¬ Dependent y x := by
      intro y hy
      have hyxs := hmem y (List.mem_append_left _ hy)
      refine ⟨fun heq => hfresh (List.mem_map.2 ⟨y, hyxs, heq⟩), fun hdependent => ?_⟩
      -- `y` would have to stand before `x` in a list that begins with `x`
      have hsublist := (List.pairwise_append.1 hkept).2.2 y hy x List.mem_cons_self hdependent
      rcases List.sublist_cons_iff.1 hsublist with h | ⟨more, heq, h⟩
      · exact hnot (h.mem (List.mem_cons_of_mem _ List.mem_cons_self))
      · rw [← (List.cons.inj heq).2] at h
        exact hnot (h.mem List.mem_cons_self)
    have hkept' : (front ++ rest).Pairwise fun a b => Dependent a b → [a, b].Sublist xs := by
      have hshorter : (front ++ rest).Sublist (front ++ x :: rest) :=
        (List.Sublist.refl front).append (List.sublist_cons_self x rest)
      refine (hkept.sublist hshorter).imp_of_mem fun {a b} ha _ hsublist hdependent => ?_
      rcases List.sublist_cons_iff.1 (hsublist hdependent) with h | ⟨more, heq, -⟩
      · exact h
      · obtain rfl := (List.cons.inj heq).1
        exact absurd (hmem _ ha) hnot
    rw [foldl_perform_front env rest hfront, List.foldl_cons, List.foldl_cons,
      foldl_perform_reordered (env.perform x) hrest hdistinct hkept']

end Environment

/-! ## Dimensions -/

variable {set set' : EquationSet} {catalog : Catalog} {constants : Constants}

theorem EquationSet.declares_iff (hmem : ∀ eq, eq ∈ set.equations ↔ eq ∈ set'.equations) (name : String) :
    set.Declares name ↔ set'.Declares name :=
  exists_congr fun eq => and_congr_left fun _ => hmem eq

theorem EquationSet.leavesFree_iff (hmem : ∀ eq, eq ∈ set.equations ↔ eq ∈ set'.equations) (name : String) :
    set.LeavesFree constants name ↔ set'.LeavesFree constants name :=
  ⟨fun h => ⟨mt (declares_iff hmem name).2 h.undeclared, h.notConstant, h.notClock⟩,
    fun h => ⟨mt (declares_iff hmem name).1 h.undeclared, h.notConstant, h.notClock⟩⟩

theorem Fixed.reordered (hmem : ∀ eq, eq ∈ set.equations ↔ eq ∈ set'.equations) {e : Expr} {k : Float}
    (h : Fixed set constants e k) : Fixed set' constants e k := by
  induction h with
  | number v sp => exact .number v sp
  | constant sp hundeclared hconstant =>
    exact .constant sp (mt (EquationSet.declares_iff hmem _).2 hundeclared) hconstant
  | neg sp _ ih => exact .neg sp ih
  | plus sp _ ih => exact .plus sp ih

mutual

/-- Dimensions do not depend on the order of equations. -/
theorem HasUnit.reordered (hmem : ∀ eq, eq ∈ set.equations ↔ eq ∈ set'.equations) : ∀ {e : Expr} {d : Dimension},
    HasUnit set catalog constants e d → HasUnit set' catalog constants e d
  | _, _, .number v sp => .number v sp
  | _, _, .state sp heq hunit => .state sp ((hmem _).1 heq) hunit
  | _, _, .constant sp hundeclared hconstant =>
    .constant sp (mt (EquationSet.declares_iff hmem _).2 hundeclared) hconstant
  | _, _, .clock sp hundeclared hconstant hclock =>
    .clock sp (mt (EquationSet.declares_iff hmem _).2 hundeclared) hconstant hclock
  | _, _, .signed sign sp h => .signed sign sp (h.reordered hmem)
  | _, _, .sum sp hop hl hr => .sum sp hop (hl.reordered hmem) (hr.reordered hmem)
  | _, _, .product sp hl hr hd => .product sp (hl.reordered hmem) (hr.reordered hmem) hd
  | _, _, .quotient sp hl hr hd => .quotient sp (hl.reordered hmem) (hr.reordered hmem) hd
  | _, _, .plainPower sp hl hr => .plainPower sp (hl.reordered hmem) (hr.reordered hmem)
  | _, _, .power sp hbase hl hr hk hd =>
    .power sp hbase (hl.reordered hmem) (hr.reordered hmem) (hk.reordered hmem) hd
  | _, _, .call sp hfree hg hcount hargs hd =>
    .call sp ((EquationSet.leavesFree_iff hmem _).1 hfree) hg hcount (hargs.reordered hmem) hd

theorem HasUnits.reordered (hmem : ∀ eq, eq ∈ set.equations ↔ eq ∈ set'.equations) :
    ∀ {es : List Expr} {ds : List Dimension}, HasUnits set catalog constants es ds →
      HasUnits set' catalog constants es ds
  | _, _, .nil => .nil
  | _, _, .cons h hs => .cons (h.reordered hmem) (hs.reordered hmem)

end

theorem EquationSet.WellDimensioned.reordered (hperm : set.equations.Perm set'.equations)
    (h : set.WellDimensioned catalog constants) : set'.WellDimensioned catalog constants := by
  refine ⟨(hperm.map _).nodup_iff.1 h.distinct, fun eq heq => h.stated eq (hperm.mem_iff.2 heq), ?_⟩
  intro eq heq rhs hrhs
  obtain ⟨d, hd, hrhs⟩ := h.equal eq (hperm.mem_iff.2 heq) rhs hrhs
  exact ⟨d, hd, hrhs.reordered fun _ => hperm.mem_iff⟩

/-- **A set resolves in every order or in none.** -/
theorem resolve_reordered (hperm : set.equations.Perm set'.equations) :
    (∃ r, resolve set catalog constants = .ok r) ↔ ∃ r, resolve set' catalog constants = .ok r := by
  constructor
  · rintro ⟨r, h⟩
    exact resolve_of_wellDimensioned ((wellDimensioned_of_resolve h).reordered hperm)
  · rintro ⟨r, h⟩
    exact resolve_of_wellDimensioned ((wellDimensioned_of_resolve h).reordered hperm.symm)

/-! ## Snapshots -/

namespace Snapshot

theorem column_congr (s : Snapshot) {x y : Variable} (hname : x.name = y.name) (htarget : x.isTarget = y.isTarget) :
    s.column x = s.column y := by
  rw [column, column, hname, htarget]

theorem exists_columnsOf {s : Snapshot} {vars : List Variable} :
    (∃ columns, s.columnsOf vars = .ok columns) ↔ ∀ x ∈ vars, ∃ c, s.column x = .ok c := by
  constructor
  · rintro ⟨columns, h⟩ x hx
    have hmem : s.column x ∈ columns.map Except.ok := columnsOf_eq_ok.1 h ▸ List.mem_map_of_mem hx
    obtain ⟨c, -, hc⟩ := List.mem_map.1 hmem
    exact ⟨c, hc.symm⟩
  · intro h
    refine ⟨vars.map fun x => s.start x.name, columnsOf_eq_ok.2 ?_⟩
    rw [List.map_map]
    refine List.map_congr_left fun x hx => ?_
    obtain ⟨c, hc⟩ := h x hx
    rw [hc, column_eq hc]
    rfl

end Snapshot

namespace Scope

theorem declare_targets : ∀ {eqs : List Equation} {taken : List String} {k : Nat} {vars : List Variable},
    declare taken k eqs = .ok vars →
      (vars.map fun x => (x.name, x.isTarget)) = eqs.map fun eq => (eq.target.name, eq.rhs.isSome)
  | [], _, _, _, h => by
    obtain rfl := Except.ok.inj h
    rfl
  | eq :: eqs, _, _, _, h => by
    obtain ⟨-, unit, rest, -, hrest, rfl⟩ := declare_cons.1 h
    rw [List.map_cons, List.map_cons, declare_targets hrest, Variable.isTarget, Option.isSome_map]

variable {s s' : Scope} {snapshot : Snapshot} {columns columns' : List Column}

/-- The column gathered for a variable is the one found under its name. -/
theorem column_of_columns (hcolumns : snapshot.columns s = .ok columns) {name : String} {slot : Nat}
    (hslot : s.slot? name = some slot) :
    (⟨snapshot.len, columns, snapshot.t, snapshot.dt⟩ : View).column slot = snapshot.start name := by
  obtain ⟨x, hx, rfl⟩ := getElem?_of_slot? hslot
  have hcolumn := congrArg (·[slot]?) (Snapshot.columnsOf_eq_ok.1 hcolumns)
  simp only [List.getElem?_map, hx, Option.map_some] at hcolumn
  obtain ⟨c, hc, heq⟩ := Option.map_eq_some_iff.1 hcolumn.symm
  rw [View.column, hc, Option.getD_some, Snapshot.column_eq heq.symm]

theorem exists_columns_reordered (hperm : set.equations.Perm set'.equations) (hb : Built set catalog constants s)
    (hb' : Built set' catalog constants s') (h : ∃ columns, snapshot.columns s = .ok columns) :
    ∃ columns, snapshot.columns s' = .ok columns := by
  refine Snapshot.exists_columnsOf.2 fun x hx => ?_
  have hmem : (x.name, x.isTarget) ∈ s.stateVariables.map fun x => (x.name, x.isTarget) := by
    rw [declare_targets hb.declared]
    refine (hperm.map _).mem_iff.2 ?_
    rw [← declare_targets hb'.declared]
    exact List.mem_map_of_mem hx
  obtain ⟨y, hy, heq⟩ := List.mem_map.1 hmem
  obtain ⟨hname, htarget⟩ := Prod.mk.inj heq
  obtain ⟨c, hc⟩ := Snapshot.exists_columnsOf.1 h y hy
  exact ⟨c, (snapshot.column_congr hname htarget).symm.trans hc⟩

theorem functions_reordered (hperm : set.equations.Perm set'.equations) (hb : Built set catalog constants s)
    (hb' : Built set' catalog constants s') : s.functions = s'.functions := by
  have hsides : (set.equations.filterMap (·.rhs)).Perm (set'.equations.filterMap (·.rhs)) := hperm.filterMap _
  have hnames : ∀ name, name ∈ calledNames set ++ usedNames set ↔ name ∈ calledNames set' ++ usedNames set' :=
    fun _ => ((hsides.flatMap_right _).append (hsides.flatMap_right _)).mem_iff
  refine NameMap.ext_find? fun name => ?_
  have hvalue : s.value? name = none ↔ s'.value? name = none :=
    (value?_eq_none hb).trans
      ((EquationSet.leavesFree_iff (fun _ => hperm.mem_iff) name).trans (value?_eq_none hb').symm)
  rw [hb.functions_eq, hb'.functions_eq]
  simp only [hnames, hvalue]

/-- **Names stand for the same in every order.** -/
theorem environment_reordered (hperm : set.equations.Perm set'.equations) (hb : Built set catalog constants s)
    (hb' : Built set' catalog constants s') (hcolumns : snapshot.columns s = .ok columns)
    (hcolumns' : snapshot.columns s' = .ok columns') :
    s.environment ⟨snapshot.len, columns, snapshot.t, snapshot.dt⟩ =
      s'.environment ⟨snapshot.len, columns', snapshot.t, snapshot.dt⟩ := by
  refine Environment.ext rfl (funext fun name => ?_) ?_
  · dsimp only [environment]
    cases hslot : s.slot? name with
    | some slot =>
      obtain ⟨eq, hmem, rfl, -⟩ := declares_of_slot? hb hslot
      obtain ⟨slot', hslot', -⟩ := slot?_of_mem hb' (hperm.mem_iff.1 hmem)
      rw [value?_eq_state.2 hslot, value?_eq_state.2 hslot']
      exact (column_of_columns hcolumns hslot).trans (column_of_columns hcolumns' hslot').symm
    | none =>
      have hslot' : s'.slot? name = none := (slot?_eq_none_iff hb').2
        (mt (EquationSet.declares_iff (fun _ => hperm.mem_iff) name).2 ((slot?_eq_none_iff hb).1 hslot))
      unfold value?
      rw [hslot, hslot', hb.constants_eq, hb'.constants_eq]
      cases constants.find? name with
      | some q => rfl
      | none =>
        cases reading? name with
        | none => rfl
        | some reading => cases reading <;> rfl
  · dsimp only [environment]
    rw [functions_reordered hperm hb hb']

end Scope

/-! ## Outcomes -/

theorem Environment.outcome_reordered (h : set.Reorders set') (hdistinct : (set.equations.map (·.target.name)).Nodup)
    (env : Environment) : env.outcome set.equations = env.outcome set'.equations := by
  have hdistinct' : (set'.equations.map (·.target.name)).Nodup := (h.perm.map _).nodup_iff.1 hdistinct
  have hend := foldl_perform_reordered env h.perm.symm hdistinct' h.kept
  rw [outcome, outcome, hend]
  refine NameMap.ofList_perm ((h.perm.filter _).map _) ?_
  rw [List.map_map]
  exact hdistinct.sublist ((List.filter_sublist).map _)

namespace Resolved

variable {r r' : Resolved} {s : Snapshot} {outputs : NameMap Column}

/-- **An outcome of a set is one of every reordering.** -/
theorem execute_of_reorders (h : set.Reorders set') (hr : resolve set catalog constants = .ok r)
    (hr' : resolve set' catalog constants = .ok r') (hrun : r.execute s = .ok outputs) :
    r'.execute s = .ok outputs := by
  obtain ⟨columns, hcolumns, hout⟩ := bind_eq_ok.1 hrun
  obtain rfl := pure_eq_ok.1 hout
  have hb := built_of_resolve hr
  have hb' := built_of_resolve hr'
  obtain ⟨columns', hcolumns'⟩ := Scope.exists_columns_reordered h.perm hb hb' ⟨columns, hcolumns⟩
  refine bind_eq_ok.2 ⟨columns', hcolumns', ?_⟩
  rw [runFrom_of_resolve hr hcolumns, runFrom_of_resolve hr' hcolumns',
    Scope.environment_reordered h.perm hb hb' hcolumns hcolumns',
    Environment.outcome_reordered h (Scope.nodup_of_declare hb.declared).1]
  rfl

/-- **Only dependent updates are held in order.**  A set that resolves does so in every order, and where dependent
updates keep theirs, interpreted code has an outcome for a snapshot exactly if it had, and the same one. -/
theorem execute_reordered (h : set.Reorders set') (catalog : Catalog) (constants : Constants) :
    ((∃ r, resolve set catalog constants = .ok r) ↔ ∃ r', resolve set' catalog constants = .ok r') ∧
      ∀ r r', resolve set catalog constants = .ok r → resolve set' catalog constants = .ok r' →
        ∀ (s : Snapshot) (outputs : NameMap Column),
          ((CodeObject.interpreted r).execute s).1 = .ok outputs ↔
            ((CodeObject.interpreted r').execute s).1 = .ok outputs := by
  refine ⟨resolve_reordered h.perm, fun r r' hr hr' s outputs => ⟨execute_of_reorders h hr hr', fun hrun => ?_⟩⟩
  -- the columns are there in both orders, and so the outcome is the one that the reordering has
  obtain ⟨columns', hcolumns', -⟩ := bind_eq_ok.1 (show r'.execute s = .ok outputs from hrun)
  obtain ⟨columns, hcolumns⟩ := Scope.exists_columns_reordered h.perm.symm (built_of_resolve hr')
    (built_of_resolve hr) ⟨columns', hcolumns'⟩
  have hown : r.execute s = .ok (r.runFrom s columns) := bind_eq_ok.2 ⟨columns, hcolumns, rfl⟩
  have hsame := (execute_of_reorders h hr hr' hown).symm.trans hrun
  exact hown.trans (congrArg _ (Except.ok.inj hsame))

/-! ## An example -/

def voltage (name : String) (rhs : Option Expr) : Equation :=
  ⟨⟨name, ⟨0, 0⟩⟩, rhs, .name "volt" ⟨0, 0⟩, ⟨0, 0⟩⟩

def sum (a b : String) : Expr := .binary .add (.name a ⟨0, 0⟩) (.name b ⟨0, 0⟩) ⟨0, 0⟩

/-- `a = a + b`, `d = a + a` and `c = c + b`, with `b` free. -/
def sums : EquationSet :=
  ⟨[voltage "a" (sum "a" "b"), voltage "d" (sum "a" "a"), voltage "c" (sum "c" "b"), voltage "b" none], ⟨0, 0⟩⟩

/-- The same equations, with `d` still after `a`. -/
def reorderedSums : EquationSet :=
  ⟨[voltage "c" (sum "c" "b"), voltage "a" (sum "a" "b"), voltage "b" none, voltage "d" (sum "a" "a")], ⟨0, 0⟩⟩

theorem reorders_sums : sums.Reorders reorderedSums := by
  constructor
  · have hfront : ([voltage "a" (sum "a" "b"), voltage "d" (sum "a" "a")] ++
        voltage "c" (sum "c" "b") :: [voltage "b" none]).Perm _ := List.perm_middle
    exact hfront.trans (((List.Perm.swap _ _ _).cons _).cons _)
  · simp only [sums, List.pairwise_cons, List.forall_mem_cons, List.not_mem_nil, false_imp_iff, implies_true,
      List.Pairwise.nil, and_true]
    refine ⟨⟨fun _ => ?_, fun h => absurd h (by decide), fun h => absurd h (by decide)⟩,
      ⟨fun h => absurd h (by decide), fun h => absurd h (by decide)⟩, fun h => absurd h (by decide)⟩
    exact .cons _ (.cons_cons _ (.cons _ (.cons_cons _ .slnil)))

def voltages : Snapshot := ⟨1, 0.0, 1.0, .ofList [("a", [1.0]), ("b", [2.0]), ("c", [3.0])]⟩

theorem execute_sums : sums.Reorders reorderedSums ∧ ∃ r r' outputs, resolve sums .standard .empty = .ok r ∧
    resolve reorderedSums .standard .empty = .ok r' ∧ ((CodeObject.interpreted r).execute voltages).1 = .ok outputs ∧
      ((CodeObject.interpreted r').execute voltages).1 = .ok outputs := by
  obtain ⟨hresolves, hruns⟩ := execute_reordered reorders_sums .standard .empty
  obtain ⟨r, hr, outputs, hrun⟩ : ∃ r, resolve sums .standard .empty = .ok r ∧
      ∃ outputs, ((CodeObject.interpreted r).execute voltages).1 = .ok outputs := ⟨_, rfl, _, rfl⟩
  obtain ⟨r', hr'⟩ := hresolves.1 ⟨r, hr⟩
  exact ⟨reorders_sums, r, r', outputs, hr, hr', hrun, (hruns r r' hr hr' voltages outputs).1 hrun⟩

end Resolved
end FixedStep
