import FixedStep.Evaluation
import FixedStep.Proofs.Fault
import FixedStep.Proofs.Lowered
import FixedStep.Proofs.NameMap
/-!
# Evaluation — the columns of a run are all of one length

Gathering gives a column for every state variable, as long as the snapshot says (`square_columns`); updates keep it so
(`square_updateAll`), and so every column of an outcome has that length (`of_mem_runFrom`).
-/
namespace FixedStep

/-! ## Snapshots -/

namespace Snapshot

/-- The column that a variable of a name starts from, unless the snapshot is refused. -/
def start (s : Snapshot) (name : String) : Column := (s.values.find? name).getD (List.replicate s.len 0.0)

theorem column_of_some {s : Snapshot} {v : Variable} {values : Column} (h : s.values.find? v.name = some values) :
    s.column v = if values.length = s.len then .ok values else .error (.lengthMismatch v.name s.len values.length) := by
  rw [column, h]

theorem column_of_none {s : Snapshot} {v : Variable} (h : s.values.find? v.name = none) : s.column v =
    if v.isTarget then .ok (List.replicate s.len 0.0) else .error (.missingVariable v.name) := by
  rw [column, h]

theorem column_eq {s : Snapshot} {v : Variable} {c : Column} (h : s.column v = .ok c) : c = s.start v.name := by
  cases hvalues : s.values.find? v.name with
  | some values =>
    rw [column_of_some hvalues] at h
    split at h <;> cases h
    rw [start, hvalues, Option.getD_some]
  | none =>
    rw [column_of_none hvalues] at h
    split at h <;> cases h
    rw [start, hvalues, Option.getD_none]

theorem column_length {s : Snapshot} {v : Variable} {c : Column} (h : s.column v = .ok c) : c.length = s.len := by
  unfold column at h
  split at h
  · split at h
    · rename_i hlen
      cases h
      exact hlen
    · cases h
  · split at h
    · cases h
      exact List.length_replicate
    · cases h

theorem columnsOf_eq_ok {s : Snapshot} : ∀ {vars : List Variable} {columns : List Column},
    s.columnsOf vars = .ok columns ↔ vars.map s.column = columns.map Except.ok
  | [], columns => by
    rw [columnsOf, List.map_nil]
    constructor
    · rintro ⟨⟩
      rfl
    · intro h
      rw [List.map_eq_nil_iff.1 h.symm]
  | v :: vs, columns => by
    simp only [columnsOf, bind_eq_ok, pure_eq_ok, columnsOf_eq_ok]
    cases columns with
    | nil =>
      constructor
      · rintro ⟨_, _, _, _, h⟩
        exact absurd h (List.cons_ne_nil _ _)
      · intro h
        cases h
    | cons c cs =>
      rw [List.map_cons, List.map_cons, List.cons.injEq]
      constructor
      · rintro ⟨first, hfirst, rest, hrest, heq⟩
        obtain ⟨rfl, rfl⟩ := List.cons.inj heq
        exact ⟨hfirst, hrest⟩
      · rintro ⟨hfirst, hrest⟩
        exact ⟨c, hfirst, cs, hrest, rfl⟩

end Snapshot

/-! ## Views -/

theorem length_rows : ∀ (n : Nat) (columns : List Column), (rows n columns).length = n
  | 0, _ => rfl
  | n + 1, columns => congrArg _ (length_rows n (columns.map List.tail))

theorem rows_getElem? : ∀ {n i : Nat} (columns : List Column), i < n →
    (rows n columns)[i]? = some (columns.map fun column => column[i]?.getD 0.0)
  | 0, _, _, h => absurd h (Nat.not_lt_zero _)
  | n + 1, 0, columns, _ => by
    rw [rows, List.getElem?_cons_zero]
    refine congrArg some (List.map_congr_left fun c _ => ?_)
    cases c <;> rfl
  | n + 1, i + 1, columns, h => by
    rw [rows, List.getElem?_cons_succ, rows_getElem? _ (Nat.lt_of_succ_lt_succ h), List.map_map]
    refine congrArg some (List.map_congr_left fun c _ => ?_)
    cases c <;> rfl

namespace View

/-- As many columns as there are slots, each with one value for every element. -/
structure Square (v : View) (slots : Nat) : Prop where
  count : v.columns.length = slots
  lengths : ∀ c ∈ v.columns, c.length = v.len

theorem length_column {v : View} {slots slot : Nat} (hv : v.Square slots) (hslot : slot < slots) :
    (v.column slot).length = v.len := by
  have hlt : slot < v.columns.length := by rw [hv.count]; exact hslot
  rw [column, List.getElem?_eq_getElem hlt, Option.getD_some]
  exact hv.lengths _ (List.getElem_mem hlt)

theorem length_evaluate {v : View} {slots : Nat} (hv : v.Square slots) : ∀ {n : Node},
    (∀ slot ∈ n.slots, slot < slots) → (v.evaluate n).length = v.len
  | .const _, _ => List.length_replicate
  | .state slot, hn => length_column hv (hn slot List.mem_cons_self)
  | .clock _, _ => List.length_replicate
  | .neg n, hn => by
    have hoperand : ∀ slot ∈ n.slots, slot < slots := hn
    rw [evaluate, List.length_map, length_evaluate hv hoperand]
  | .binary op l r, hn => by
    have hl : ∀ slot ∈ l.slots, slot < slots := fun slot hslot => hn slot (List.mem_append_left _ hslot)
    have hr : ∀ slot ∈ r.slots, slot < slots := fun slot hslot => hn slot (List.mem_append_right _ hslot)
    rw [evaluate, List.length_zipWith, length_evaluate hv hl, length_evaluate hv hr, Nat.min_self]
  | .call f args, _ => by rw [evaluate, List.length_map, length_rows]

theorem square_write {v : View} {slots : Nat} (hv : v.Square slots) (slot : Nat) {c : Column} (hc : c.length = v.len) :
    (v.write slot c).Square slots := by
  refine ⟨List.length_set.trans hv.count, fun other hother => ?_⟩
  rcases List.mem_or_eq_of_mem_set hother with hmem | rfl
  · exact hv.lengths other hmem
  · exact hc

theorem column_write {v : View} {slot : Nat} (hslot : slot < v.columns.length) (c : Column) (other : Nat) :
    (v.write slot c).column other = if slot = other then c else v.column other := by
  rw [column, write, column, List.getElem?_set]
  split
  · rename_i h
    subst h
    rfl
  · rfl

theorem updateAll_cons (v : View) (u : Update) (us : List Update) :
    v.updateAll (u :: us) = (v.update u).updateAll us := rfl

/-- **Updates keep every column's length.** -/
theorem square_updateAll {slots : Nat} : ∀ {us : List Update} {v : View}, v.Square slots →
    (∀ u ∈ us, ∀ slot ∈ u.node.slots, slot < slots) → (v.updateAll us).Square slots ∧ (v.updateAll us).len = v.len
  | [], _, hv, _ => ⟨hv, rfl⟩
  | u :: us, v, hv, hreads => by
    obtain ⟨hu, hus⟩ := List.forall_mem_cons.1 hreads
    rw [updateAll_cons]
    exact square_updateAll (square_write hv u.target (length_evaluate hv hu)) hus

end View

/-! ## Outcomes -/

namespace Resolved

/-- The columns gathered for the state variables. -/
theorem square_columns {s : Snapshot} {scope : Scope} {columns : List Column} (h : s.columns scope = .ok columns) :
    (⟨s.len, columns, s.t, s.dt⟩ : View).Square scope.stateVariables.length := by
  have hmap := Snapshot.columnsOf_eq_ok.1 h
  refine ⟨by simpa using (congrArg List.length hmap).symm, fun c hc => ?_⟩
  have hmem : Except.ok c ∈ scope.stateVariables.map s.column := by rw [hmap]; exact List.mem_map_of_mem hc
  obtain ⟨v, -, hv⟩ := List.mem_map.1 hmem
  exact Snapshot.column_length hv

theorem nameOf_mem {s : Scope} {slot : Nat} (h : slot < s.stateVariables.length) :
    s.nameOf slot ∈ s.stateVariables.map (·.name) := by
  rw [Scope.nameOf, List.getElem?_eq_getElem h]
  exact List.mem_map_of_mem (List.getElem_mem h)

/-- **Every column of an outcome** is that of a state variable, one value for every element. -/
theorem of_mem_runFrom {r : Resolved} (hr : r.WellScoped) {s : Snapshot} {columns : List Column}
    (h : s.columns r.scope = .ok columns) {name : String} {values : Column}
    (hmem : (name, values) ∈ (r.runFrom s columns).entries) :
    name ∈ r.scope.stateVariables.map (·.name) ∧ values.length = s.len := by
  obtain ⟨hsquare, hlen⟩ := View.square_updateAll (square_columns h) hr.reads
  obtain ⟨u, hu, heq⟩ := List.mem_map.1 (NameMap.mem_of_mem_ofList hmem)
  obtain ⟨rfl, rfl⟩ := Prod.mk.inj heq
  exact ⟨nameOf_mem (hr.writes u hu), (View.length_column hsquare (hr.writes u hu)).trans hlen⟩

end Resolved
end FixedStep
