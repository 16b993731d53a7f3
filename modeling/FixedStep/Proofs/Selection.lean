import FixedStep.Abort
import FixedStep.Catalog.Builtin
import FixedStep.Proofs.Evaluation
/-!
# Selection — every element is computed by itself

A selection picks elements of a population, in any order, some of them left out and some more than once.  Evaluating an
expression over the elements picked gives what was picked of its column (`View.evaluate_select`), updates in order keep
that (`View.updateAll_select`), and so a whole execution may be made before or after the selection (`execute_select`).
-/
namespace FixedStep

variable {m n : Nat}

/-! ## Columns -/

namespace Column

/-- The column whose element `i` is the element `σ i` of another. -/
def select (σ : Fin m → Fin n) (xs : Column) : Column := List.ofFn fun i => xs[(σ i).val]?.getD 0.0

theorem length_select (σ : Fin m → Fin n) (xs : Column) : (select σ xs).length = m := List.length_ofFn

theorem getElem?_select (σ : Fin m → Fin n) (xs : Column) (i : Fin m) :
    (select σ xs)[i.val]? = some (xs[(σ i).val]?.getD 0.0) := by
  rw [select, List.getElem?_ofFn, dif_pos i.isLt]

/-- A column that has the elements picked is the selection. -/
theorem eq_select {σ : Fin m → Fin n} {xs ys : Column} (hlen : ys.length = m)
    (h : ∀ i : Fin m, ys[i.val]? = some (xs[(σ i).val]?.getD 0.0)) : ys = select σ xs := by
  refine List.ext_getElem? fun i => ?_
  rcases Nat.lt_or_ge i m with hi | hi
  · rw [h ⟨i, hi⟩, getElem?_select σ xs ⟨i, hi⟩]
  · rw [List.getElem?_eq_none (hlen ▸ hi), List.getElem?_eq_none (by rwa [length_select])]

theorem select_replicate (σ : Fin m → Fin n) (x : Float) : List.replicate m x = select σ (List.replicate n x) := by
  refine eq_select List.length_replicate fun i => ?_
  rw [List.getElem?_replicate_of_lt i.isLt, List.getElem?_replicate_of_lt (σ i).isLt, Option.getD_some]

variable {xs ys : Column}

theorem map_select (σ : Fin m → Fin n) (f : Float → Float) (hxs : xs.length = n) :
    (select σ xs).map f = select σ (xs.map f) := by
  refine eq_select (by rw [List.length_map, length_select]) fun i => ?_
  have hi : (σ i).val < xs.length := hxs ▸ (σ i).isLt
  rw [List.getElem?_map, getElem?_select, List.getElem?_map, List.getElem?_eq_getElem hi]
  rfl

theorem zipWith_select (σ : Fin m → Fin n) (f : Float → Float → Float) (hxs : xs.length = n) (hys : ys.length = n) :
    List.zipWith f (select σ xs) (select σ ys) = select σ (List.zipWith f xs ys) := by
  refine eq_select (by rw [List.length_zipWith, length_select, length_select, Nat.min_self]) fun i => ?_
  have hi : (σ i).val < xs.length := hxs ▸ (σ i).isLt
  have hi' : (σ i).val < ys.length := hys ▸ (σ i).isLt
  rw [List.getElem?_zipWith, getElem?_select, getElem?_select, List.getElem?_zipWith, List.getElem?_eq_getElem hi,
    List.getElem?_eq_getElem hi']
  rfl

/-- The rows of selected columns are the rows picked. -/
theorem rows_select (σ : Fin m → Fin n) (f : List Float → Float) (columns : List Column) :
    (rows m (columns.map (select σ))).map f = select σ ((rows n columns).map f) := by
  refine eq_select (by rw [List.length_map, length_rows]) fun i => ?_
  have hrow : (columns.map (select σ)).map (fun column => column[i.val]?.getD 0.0) =
      columns.map fun column => column[(σ i).val]?.getD 0.0 := by
    rw [List.map_map]
    refine List.map_congr_left fun column _ => ?_
    rw [Function.comp_apply, getElem?_select, Option.getD_some]
  rw [List.getElem?_map, rows_getElem? _ i.isLt, hrow, List.getElem?_map, rows_getElem? _ (σ i).isLt]
  rfl

end Column

/-! ## Views -/

namespace View

/-- What an update sees of the elements picked. -/
def select (σ : Fin m → Fin n) (v : View) : View := ⟨m, v.columns.map (Column.select σ), v.t, v.dt⟩

variable {slots : Nat} {v : View}

theorem column_select (σ : Fin m → Fin n) (hv : v.Square slots) {slot : Nat} (hslot : slot < slots) :
    (v.select σ).column slot = Column.select σ (v.column slot) := by
  have hlt : slot < v.columns.length := hv.count ▸ hslot
  rw [column, select, List.getElem?_map, column, List.getElem?_eq_getElem hlt]
  rfl

mutual

/-- **Elements are evaluated by themselves**: the column over the elements picked is what was picked of the column. -/
theorem evaluate_select (σ : Fin m → Fin n) (hv : v.Square slots) (hlen : v.len = n) : ∀ {e : Node},
    (∀ slot ∈ e.slots, slot < slots) → (v.select σ).evaluate e = Column.select σ (v.evaluate e)
  | .const c, _ => by
    rw [evaluate, evaluate, hlen, ← Column.select_replicate]
    rfl
  | .state slot, he => column_select σ hv (he slot List.mem_cons_self)
  | .clock reading, _ => by
    have hreading : (v.select σ).reading reading = v.reading reading := by cases reading <;> rfl
    rw [evaluate, evaluate, hlen, ← Column.select_replicate, hreading]
    rfl
  | .neg e, he => by
    have hoperand : ∀ slot ∈ e.slots, slot < slots := he
    have hlength := length_evaluate hv hoperand
    rw [evaluate, evaluate, evaluate_select σ hv hlen hoperand, Column.map_select σ _ (hlength.trans hlen)]
  | .binary op l r, he => by
    have hl : ∀ slot ∈ l.slots, slot < slots := fun slot hslot => he slot (List.mem_append_left _ hslot)
    have hr : ∀ slot ∈ r.slots, slot < slots := fun slot hslot => he slot (List.mem_append_right _ hslot)
    have hleft := (length_evaluate hv hl).trans hlen
    have hright := (length_evaluate hv hr).trans hlen
    rw [evaluate, evaluate, evaluate_select σ hv hlen hl, evaluate_select σ hv hlen hr,
      Column.zipWith_select σ _ hleft hright]
  | .call f args, he => by
    have hargs : ∀ slot ∈ Node.slotsAll args, slot < slots := he
    rw [evaluate, evaluate, evaluateAll_select σ hv hlen hargs, hlen, ← Column.rows_select]
    rfl

theorem evaluateAll_select (σ : Fin m → Fin n) (hv : v.Square slots) (hlen : v.len = n) : ∀ {es : List Node},
    (∀ slot ∈ Node.slotsAll es, slot < slots) →
      (v.select σ).evaluateAll es = (v.evaluateAll es).map (Column.select σ)
  | [], _ => rfl
  | e :: es, he => by
    have hfirst : ∀ slot ∈ e.slots, slot < slots := fun slot hslot => he slot (List.mem_append_left _ hslot)
    have hrest : ∀ slot ∈ Node.slotsAll es, slot < slots := fun slot hslot => he slot (List.mem_append_right _ hslot)
    rw [evaluateAll, evaluateAll, evaluate_select σ hv hlen hfirst, evaluateAll_select σ hv hlen hrest, List.map_cons]

end

theorem update_select (σ : Fin m → Fin n) (hv : v.Square slots) (hlen : v.len = n) {u : Update}
    (hreads : ∀ slot ∈ u.node.slots, slot < slots) : (v.select σ).update u = (v.update u).select σ := by
  rw [update, evaluate_select σ hv hlen hreads, update, write, write, select, select, List.map_set]

/-- **Updates in order** keep elements apart. -/
theorem updateAll_select (σ : Fin m → Fin n) : ∀ {us : List Update} {v : View}, v.Square slots → v.len = n →
    (∀ u ∈ us, ∀ slot ∈ u.node.slots, slot < slots) → (v.select σ).updateAll us = (v.updateAll us).select σ
  | [], _, _, _, _ => rfl
  | u :: us, v, hv, hlen, hreads => by
    obtain ⟨hu, hus⟩ := List.forall_mem_cons.1 hreads
    have hafter : (v.update u).Square slots := square_write hv u.target (length_evaluate hv hu)
    rw [updateAll_cons, update_select σ hv hlen hu, updateAll_cons, updateAll_select σ hafter hlen hus]

end View

/-! ## Snapshots -/

namespace Snapshot

/-- The snapshot of the elements picked, at the same time. -/
def select (σ : Fin m → Fin n) (s : Snapshot) : Snapshot := ⟨m, s.t, s.dt, s.values.map (Column.select σ)⟩

theorem column_select {s : Snapshot} (σ : Fin m → Fin s.len) {x : Variable} {c : Column} (h : s.column x = .ok c) :
    (s.select σ).column x = .ok (Column.select σ c) := by
  unfold column at h ⊢
  rw [select, NameMap.find?_map]
  cases hvalues : s.values.find? x.name with
  | some values =>
    rw [hvalues] at h
    dsimp only [Option.map_some] at h ⊢
    split at h
    · cases h
      exact if_pos (Column.length_select σ c)
    · cases h
  | none =>
    rw [hvalues] at h
    dsimp only [Option.map_none] at h ⊢
    split at h
    · rename_i htarget
      cases h
      rw [if_pos htarget, ← Column.select_replicate]
    · cases h

/-- What is gathered of the elements picked is picked of what is gathered. -/
theorem columns_select {s : Snapshot} (σ : Fin m → Fin s.len) {scope : Scope} {columns : List Column}
    (h : s.columns scope = .ok columns) : (s.select σ).columns scope = .ok (columns.map (Column.select σ)) := by
  have hgathered := columnsOf_eq_ok.1 h
  have hmem : ∀ x ∈ scope.stateVariables, ∃ c, s.column x = .ok c := by
    intro x hx
    have hcolumn : s.column x ∈ columns.map Except.ok := hgathered ▸ List.mem_map_of_mem hx
    obtain ⟨c, -, hc⟩ := List.mem_map.1 hcolumn
    exact ⟨c, hc.symm⟩
  have hselected : scope.stateVariables.map (s.select σ).column =
      (scope.stateVariables.map s.column).map (Except.map (Column.select σ)) := by
    rw [List.map_map]
    refine List.map_congr_left fun x hx => ?_
    obtain ⟨c, hc⟩ := hmem x hx
    rw [Function.comp_apply, hc, column_select σ hc]
    rfl
  refine columnsOf_eq_ok.2 ?_
  rw [hselected, hgathered, List.map_map, List.map_map]
  rfl

end Snapshot

/-! ## Executions -/

namespace Resolved

theorem runFrom_select {r : Resolved} (hr : r.WellScoped) {s : Snapshot} (σ : Fin m → Fin s.len)
    {columns : List Column} (h : s.columns r.scope = .ok columns) :
    r.runFrom (s.select σ) (columns.map (Column.select σ)) = (r.runFrom s columns).map (Column.select σ) := by
  have hsquare := square_columns h
  obtain ⟨hafter, -⟩ := View.square_updateAll hsquare hr.reads
  have hupdates := View.updateAll_select σ hsquare rfl hr.reads
  rw [runFrom, runFrom, outputs, outputs, NameMap.map_ofList, List.map_map]
  refine congrArg NameMap.ofList (List.map_congr_left fun u hu => ?_)
  rw [Function.comp_apply, ← View.column_select σ hafter (hr.writes u hu), ← hupdates]
  rfl

/-- **Execution is made element by element.**  Where interpreted code has an outcome for a snapshot, it has one for every
selection of its elements, and that is the same selection of the outcome; it does not abort there either, as long as a
column of that length can be held. -/
theorem execute_select {set : EquationSet} {catalog : Catalog} {constants : Constants} {r : Resolved}
    (h : resolve set catalog constants = .ok r) {s : Snapshot} {outputs : NameMap Column}
    (hrun : ((CodeObject.interpreted r).execute s).1 = .ok outputs) (σ : Fin m → Fin s.len) :
    ((CodeObject.interpreted r).execute (s.select σ)).1 = .ok (outputs.map (Column.select σ)) ∧
      ((CodeObject.interpreted r).aborts s = false → m ≤ Column.limit →
        (CodeObject.interpreted r).aborts (s.select σ) = false) := by
  obtain ⟨columns, hcolumns, hout⟩ := bind_eq_ok.1 (show r.execute s = .ok outputs from hrun)
  obtain rfl := pure_eq_ok.1 hout
  refine ⟨?_, fun haborts hlimit => ?_⟩
  · refine bind_eq_ok.2 ⟨_, Snapshot.columns_select σ hcolumns, ?_⟩
    rw [runFrom_select (wellScoped_of_resolve h) σ hcolumns]
    rfl
  · have hheld : (s.select σ).aborts r.scope = false := by
      rw [Snapshot.aborts, show (s.select σ).len = m from rfl, decide_eq_false (Nat.not_lt.2 hlimit), Bool.false_and]
    rw [CodeObject.aborts, hheld, Bool.false_or, show (s.select σ).len = m from rfl]
    rw [CodeObject.aborts, hcolumns] at haborts
    have hcalls := (Bool.or_eq_false_iff.1 haborts).2
    -- a short call is come to at the first element, and elements are picked only where there are some
    rcases Nat.eq_zero_or_pos m with rfl | hpos
    · rw [decide_eq_false (Nat.lt_irrefl 0), Bool.and_false, Bool.false_and]
    · have hsome : 0 < s.len := (σ ⟨0, hpos⟩).pos
      have hshort : r.hasShortCall = false := by simpa [Except.toOption, hsome] using hcalls
      rw [hshort, Bool.false_and, Bool.false_and]

/-! ## An example -/

/-- `y = y + abs(x) : 1` and `z = y * dt : second`, with `x : 1`. -/
def travelled : EquationSet :=
  ⟨[⟨⟨"y", ⟨0, 1⟩⟩, some (.binary .add (.name "y" ⟨4, 5⟩) (.call ⟨"abs", ⟨8, 11⟩⟩ [.name "x" ⟨12, 13⟩] ⟨8, 14⟩) ⟨4, 14⟩),
      .number 1.0 ⟨17, 18⟩, ⟨0, 18⟩⟩,
    ⟨⟨"z", ⟨19, 20⟩⟩, some (.binary .mul (.name "y" ⟨23, 24⟩) (.name "dt" ⟨27, 29⟩) ⟨23, 29⟩), .name "second" ⟨32, 38⟩,
      ⟨19, 38⟩⟩,
    ⟨⟨"x", ⟨39, 40⟩⟩, none, .number 1.0 ⟨43, 44⟩, ⟨39, 44⟩⟩], ⟨0, 44⟩⟩

/-- Two elements; `z` starts at zero. -/
def travellers : Snapshot := ⟨2, 0.0, 0.5, .ofList [("x", [-1.0, 2.0]), ("y", [3.0, 4.0])]⟩

/-- The second element twice, and then the first. -/
def twiceAndFirst (i : Fin 3) : Fin 2 := if i = 2 then 0 else 1

theorem execute_select_travelled : ∃ r outputs, resolve travelled .standard .empty = .ok r ∧
    ((CodeObject.interpreted r).execute travellers).1 = .ok outputs ∧
      ((CodeObject.interpreted r).execute (travellers.select twiceAndFirst)).1 =
        .ok (outputs.map (Column.select twiceAndFirst)) := by
  obtain ⟨r, hr, outputs, hrun⟩ : ∃ r, resolve travelled .standard .empty = .ok r ∧
      ∃ outputs, ((CodeObject.interpreted r).execute travellers).1 = .ok outputs := ⟨_, rfl, _, rfl⟩
  exact ⟨r, outputs, hr, hrun, (execute_select hr hrun twiceAndFirst).1⟩

end Resolved
end FixedStep
