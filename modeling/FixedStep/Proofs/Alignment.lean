import FixedStep.Proofs.Called
import FixedStep.Proofs.Lookup
/-!
# Alignment — the numbers of a resolved set line up

Slots are counted where variables are declared, updates are counted there once more, and are lowered in a pass of their
own; functions are bound in a third.  All of them agree (`aligned_of_resolve`): a slot is the place of an equation, a
variable's update is the one that writes its slot, and the functions bound are those called.  So nothing that works on a
resolved set looks up what is not there.
-/
namespace FixedStep

namespace Scope

/-- What an equation is lowered to, if it has a right-hand side. -/
def updateOf? (s : Scope) (eq : Equation) : Option Update := do
  let rhs ← eq.rhs
  let target ← s.slot? eq.target.name
  let lowered ← (s.lower rhs).toOption
  return ⟨target, lowered.1⟩

variable {s : Scope}

theorem updateOf?_eq_some {eq : Equation} {u : Update} : s.updateOf? eq = some u ↔
    ∃ rhs d, eq.rhs = some rhs ∧ s.slot? eq.target.name = some u.target ∧ s.lower rhs = .ok (u.node, d) := by
  have hok : ∀ {x : Checked CompileError (Node × Dimension)} {found}, x.toOption = some found ↔ x = .ok found := by
    intro x found
    cases x with
    | error e => exact ⟨nofun, nofun⟩
    | ok a => exact ⟨fun h => congrArg _ (Option.some.inj h), fun h => congrArg _ (Except.ok.inj h)⟩
  simp only [updateOf?, Option.bind_eq_bind, Option.bind_eq_some_iff, hok, Option.pure_def, Option.some.injEq]
  constructor
  · rintro ⟨rhs, hrhs, target, htarget, ⟨n, d⟩, hlower, rfl⟩
    exact ⟨rhs, d, hrhs, htarget, hlower⟩
  · rintro ⟨rhs, d, hrhs, htarget, hlower⟩
    exact ⟨rhs, hrhs, u.target, htarget, (u.node, d), hlower, rfl⟩

/-- **Updates stand in the order of their equations**, one for each that has a right-hand side. -/
theorem map_updateOf? : ∀ {eqs : List Equation} {us : List Update}, s.lowerEquations eqs = .ok us →
    (eqs.filter (·.rhs.isSome)).map s.updateOf? = us.map some
  | [], _, h => by
    cases h
    rfl
  | eq :: eqs, us, h => by
    rcases lowerEquations_cons.1 h with ⟨hrhs, hrest⟩ | ⟨rhs, slot, node, rest, hrhs, hslot, hlower, hrest, rfl⟩
    · rw [List.filter_cons_of_neg (by rw [hrhs]; exact Bool.false_ne_true), map_updateOf? hrest]
    · rw [List.filter_cons_of_pos (by rw [hrhs]; rfl), List.map_cons, map_updateOf? hrest,
        (updateOf?_eq_some (u := ⟨slot, node⟩)).2 ⟨rhs, _, hrhs, hslot, hlower⟩, List.map_cons]

theorem mem_equations_of_mem {eqs : List Equation} {us : List Update} (h : s.lowerEquations eqs = .ok us) {u : Update}
    (hu : u ∈ us) : ∃ eq ∈ eqs, s.updateOf? eq = some u := by
  have hmem : some u ∈ (eqs.filter (·.rhs.isSome)).map s.updateOf? := by
    rw [map_updateOf? h]
    exact List.mem_map_of_mem hu
  obtain ⟨eq, heq, hfound⟩ := List.mem_map.1 hmem
  exact ⟨eq, (List.mem_filter.1 heq).1, hfound⟩

/-- **The number that a declaration counts is the place of the update**, where `offset` equations and `k` updates went
before. -/
theorem definedBy_iff : ∀ {eqs : List Equation} {taken : List String} {k offset : Nat} {vars : List Variable}
    {us : List Update}, declare taken k eqs = .ok vars → s.lowerEquations eqs = .ok us →
      (∀ (i : Nat) (eq : Equation), eqs[i]? = some eq → s.slot? eq.target.name = some (offset + i)) →
        ∀ (i : Nat) (v : Variable), vars[i]? = some v → ∀ m,
          v.definedBy = some m ↔ ∃ j, m = k + j ∧ us[j]?.map (·.target) = some (offset + i)
  | [], _, _, _, _, _, hvars, _, _, i, v, hv, _ => by
    cases hvars
    cases hv
  | eq :: eqs, taken, k, offset, vars, us, hvars, hus, hslots, i, v, hv, m => by
    obtain ⟨-, unit, rest, -, hrest, rfl⟩ := declare_cons.1 hvars
    have hhead : s.slot? eq.target.name = some offset := hslots 0 eq rfl
    have htail : ∀ (i : Nat) (e : Equation), eqs[i]? = some e → s.slot? e.target.name = some (offset + 1 + i) := by
      intro i e he
      rw [hslots (i + 1) e he]
      exact congrArg some (by omega)
    -- the slots written further on are behind this one
    have hbehind : ∀ {us' : List Update}, s.lowerEquations eqs = .ok us' → ∀ j : Nat,
        us'[j]?.map Update.target ≠ some offset := by
      intro us' hus' j hj
      obtain ⟨u, hu, htarget⟩ := Option.map_eq_some_iff.1 hj
      obtain ⟨e, he, hfound⟩ := mem_equations_of_mem hus' (List.mem_of_getElem? hu)
      obtain ⟨_, _, _, hslot, _⟩ := updateOf?_eq_some.1 hfound
      obtain ⟨place, hplace⟩ := List.mem_iff_getElem?.1 he
      have := Option.some.inj (hslot.symm.trans (htail place e hplace))
      omega
    rcases lowerEquations_cons.1 hus with ⟨hrhs, hrest'⟩ | ⟨rhs, slot, node, us', hrhs, hslot, -, hrest', rfl⟩
    · cases i with
      | zero =>
        obtain rfl := Option.some.inj hv
        simp only [hrhs, Option.map_none]
        exact ⟨nofun, fun ⟨j, _, hj⟩ => absurd hj (hbehind hrest' j)⟩
      | succ i =>
        have hcount : declare (eq.target.name :: taken) k eqs = .ok rest := by simpa [hrhs] using hrest
        rw [definedBy_iff hcount hrest' htail i v hv m, show offset + (i + 1) = offset + 1 + i by omega]
    · obtain rfl := Option.some.inj (hslot.symm.trans hhead)
      cases i with
      | zero =>
        obtain rfl := Option.some.inj hv
        simp only [hrhs, Option.map_some, Option.some.injEq]
        constructor
        · rintro rfl
          exact ⟨0, rfl, rfl⟩
        · rintro ⟨j, rfl, hj⟩
          cases j with
          | zero => rfl
          | succ j => exact absurd hj (hbehind hrest' j)
      | succ i =>
        have hcount : declare (eq.target.name :: taken) (k + 1) eqs = .ok rest := by simpa [hrhs] using hrest
        rw [definedBy_iff hcount hrest' htail i v hv m]
        constructor
        · rintro ⟨j, rfl, hj⟩
          exact ⟨j + 1, by omega, by rw [List.getElem?_cons_succ, hj]; exact congrArg some (by omega)⟩
        · rintro ⟨j, rfl, hj⟩
          cases j with
          | zero =>
            have hfirst : slot = slot + (i + 1) := Option.some.inj hj
            omega
          | succ j =>
            rw [List.getElem?_cons_succ] at hj
            exact ⟨j, by omega, by rw [hj]; exact congrArg some (by omega)⟩

/-- Updates call what their equations call, in the same order. -/
theorem called_of_lowerEquations {set : EquationSet} {catalog : Catalog} {constants : Constants}
    (hkeyed : catalog.Keyed) (hb : Built set catalog constants s) : ∀ {eqs : List Equation} {us : List Update},
      s.lowerEquations eqs = .ok us →
        (us.flatMap fun u => Kernel.calls u.node).map (·.name) = (eqs.filterMap (·.rhs)).flatMap calledIn
  | [], _, h => by
    cases h
    rfl
  | eq :: eqs, _, h => by
    rcases lowerEquations_cons.1 h with ⟨hrhs, hrest⟩ | ⟨rhs, slot, node, rest, hrhs, -, hlower, hrest, rfl⟩
    · rw [List.filterMap_cons_none hrhs, called_of_lowerEquations hkeyed hb hrest]
    · rw [List.filterMap_cons_some hrhs, List.flatMap_cons, List.flatMap_cons, List.map_append,
        calledIn_of_lower hkeyed hb hlower, called_of_lowerEquations hkeyed hb hrest]

theorem find?_of_slot? {name : String} {slot : Nat} (h : s.slot? name = some slot) :
    s.find? name = some (.state slot) := by
  unfold find?
  rw [h]

end Scope

namespace Resolved

variable {set : EquationSet} {catalog : Catalog} {constants : Constants} {r : Resolved}

theorem name_of_resolve (h : resolve set catalog constants = .ok r) (i : Nat) :
    r.scope.stateVariables[i]?.map (·.name) = set.equations[i]?.map (·.target.name) := by
  rw [← List.getElem?_map, ← List.getElem?_map, stateVariables_of_resolve h]

theorem slot_of_resolve (h : resolve set catalog constants = .ok r) {i : Nat} {eq : Equation}
    (heq : set.equations[i]? = some eq) : r.scope.slot? eq.target.name = some i := by
  have hname := name_of_resolve h i
  rw [heq] at hname
  obtain ⟨v, hv, hsame⟩ := Option.map_eq_some_iff.1 hname
  dsimp only at hsame
  rw [← hsame, Scope.slot?_of_getElem? (wellScoped_of_resolve h).distinct hv]

theorem lowered_of_resolve (h : resolve set catalog constants = .ok r) {eq : Equation} (hmem : eq ∈ set.equations)
    {rhs : Expr} (hrhs : eq.rhs = some rhs) : ∃ n d, r.scope.lower rhs = .ok (n, d) := by
  obtain ⟨d, -, hd⟩ := (wellDimensioned_of_resolve h).equal eq hmem rhs hrhs
  obtain ⟨n, hn⟩ := Scope.lower_of_hasUnit (built_of_resolve h) (Scope.called_of_mem hmem hrhs) hd
  exact ⟨n, d, hn⟩

/-- A function called is the catalog's under its name. -/
theorem specified_of_resolve (hkeyed : catalog.Keyed) (h : resolve set catalog constants = .ok r) {u : Update}
    (hu : u ∈ r.updates) {f : Function} (hf : f ∈ Kernel.calls u.node) : catalog.find? f.name = some f := by
  obtain ⟨name, hf'⟩ := Node.found_of_calls (callsIn_of_resolve h u hu) f hf
  rwa [hkeyed name f hf']

/-- **A resolved set lines up** with the equations that it was made from and with the catalog. -/
structure Aligned (r : Resolved) (set : EquationSet) (catalog : Catalog) : Prop where
  slots : ∀ i : Nat, r.scope.stateVariables[i]?.map (·.name) = set.equations[i]?.map (·.target.name)
  found : ∀ (i : Nat) (v : Variable), r.scope.stateVariables[i]? = some v →
    r.scope.slot? v.name = some i ∧ r.scope.find? v.name = some (.state i)
  distinct : (r.scope.stateVariables.map (·.name)).Nodup
  updates : (set.equations.filter (·.rhs.isSome)).map r.scope.updateOf? = r.updates.map some
  definedBy : ∀ (i : Nat) (v : Variable), r.scope.stateVariables[i]? = some v → ∀ k,
    v.definedBy = some k ↔ r.updates[k]?.map (·.target) = some i
  reads : ∀ u ∈ r.updates, ∀ slot ∈ u.node.slots, slot < r.scope.stateVariables.length
  arities : ∀ u ∈ r.updates, u.node.CallsIn catalog
  specified : ∀ u ∈ r.updates, ∀ f ∈ Kernel.calls u.node, catalog.find? f.name = some f
  called : ((r.updates.flatMap fun u => Kernel.calls u.node).map (·.name)) = Scope.calledNames set
  ordered : (r.scope.functions.values.map (·.name)).Pairwise (· < ·)
  functions : ∀ name, name ∈ r.scope.functions.values.map (·.name) ↔ name ∈ Scope.calledNames set

/-- **A set that resolves lines up, and whatever works on it finds what it looks up**: an execution whose columns were
gathered, the count of invalid values, and the statements and outputs of the generated program. -/
theorem aligned_of_resolve {set : EquationSet} {catalog : Catalog} {constants : Constants} {r : Resolved}
    (hkeyed : catalog.Keyed) (h : resolve set catalog constants = .ok r) :
    r.Aligned set catalog ∧
      (∀ (s : Snapshot) (columns : List Column), s.columns r.scope = .ok columns →
        r.runFrom? s columns = some (r.runFrom s columns)) ∧
      (∀ outputs seen : NameMap Column, Group.invalidCountsFrom? r.scope outputs seen r.updates =
        some (Group.invalidCountsFrom r.scope outputs seen r.updates)) ∧
      r.updates.mapM (Kernel.statement? r.scope) = some (Kernel.generate r).statements ∧
      (r.updates.mapM fun u => r.scope.name? u.target) = some (Kernel.generate r).outputs := by
  have hscoped := wellScoped_of_resolve h
  have hcalls := callsIn_of_resolve h
  have hupdates := updates_of_resolve h
  have hb := built_of_resolve h
  have hfound : ∀ (i : Nat) (v : Variable), r.scope.stateVariables[i]? = some v → r.scope.slot? v.name = some i :=
    fun i v hv => Scope.slot?_of_getElem? hscoped.distinct hv
  have hslots : ∀ (i : Nat) (eq : Equation), set.equations[i]? = some eq →
      r.scope.slot? eq.target.name = some (0 + i) := by
    intro i eq heq
    rw [Nat.zero_add, slot_of_resolve h heq]
  refine ⟨⟨name_of_resolve h, fun i v hv => ⟨hfound i v hv, Scope.find?_of_slot? (hfound i v hv)⟩, hscoped.distinct,
    Scope.map_updateOf? hupdates, fun i v hv k => ?_, hscoped.reads, hcalls,
    fun u hu f hf => specified_of_resolve hkeyed h hu hf,
    Scope.called_of_lowerEquations hkeyed hb hupdates, ?_, fun name => ?_⟩,
    fun snapshot columns hcolumns => runFrom?_of_wellScoped hscoped hcolumns,
    fun outputs seen => Group.invalidCountsFrom?_of_wellScoped outputs hscoped.writes hscoped.reads,
    Kernel.generate_of_wellScoped hscoped⟩
  · rw [Scope.definedBy_iff hb.declared hupdates hslots i v hv k]
    simp only [Nat.zero_add, exists_eq_left']
  · rw [Scope.values_functions hkeyed hb]
    exact List.pairwise_map.2 r.scope.functions.increasing
  · rw [Scope.values_functions hkeyed hb]
    exact Scope.mem_functions_iff hkeyed hb (fun eq hmem rhs hrhs => lowered_of_resolve h hmem hrhs) name

/-- The first of two variables is written, by the only update; the other is free. -/
theorem aligned_absolute : Catalog.standard.Keyed ∧ ∃ r, resolve absolute .standard .empty = .ok r ∧
    r.Aligned absolute .standard ∧ r.scope.stateVariables.map (·.definedBy) = [some 0, none] := by
  obtain ⟨r, hr, hdefined⟩ : ∃ r, resolve absolute .standard .empty = .ok r ∧
      r.scope.stateVariables.map (·.definedBy) = [some 0, none] := ⟨_, rfl, rfl⟩
  exact ⟨Catalog.keyed_standard, r, hr, (aligned_of_resolve Catalog.keyed_standard hr).1, hdefined⟩

end Resolved
end FixedStep
