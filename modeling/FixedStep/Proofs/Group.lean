import FixedStep.Group
import FixedStep.Proofs.CodeObject
import FixedStep.Proofs.Evaluation
/-!
# Group — a group holds a column for every state variable

The columns that a group starts with are those of its state variables, and so they stay: through `set`, through steps
and through a reset (`Group.Sound`).  A step of a sound group whose code is ready cannot fail, and it merges the outcome
of the equations into the state (`step_of_ready`).
-/
namespace FixedStep

namespace Scope

/-- A state has one column of `len` values for every state variable, and no other. -/
structure Holds (s : Scope) (len : Nat) (state : NameMap Column) : Prop where
  names : ∀ name, (state.find? name).isSome ↔ name ∈ s.stateVariables.map (·.name)
  lengths : ∀ name values, state.find? name = some values → values.length = len

theorem holds_start (s : Scope) (len : Nat) :
    s.Holds len (.ofList (s.stateVariables.map fun v => (v.name, List.replicate len 0.0))) := by
  refine ⟨fun name => ?_, fun name values h => ?_⟩
  · rw [NameMap.ofList, NameMap.isSome_find?_insertAll, List.map_map]
    exact or_iff_right nofun
  · rcases NameMap.mem_or_find?_of_insertAll h with hmem | hfound
    · obtain ⟨v, -, heq⟩ := List.mem_map.1 hmem
      rw [← (Prod.mk.inj heq).2]
      exact List.length_replicate
    · cases hfound

theorem holds_insertAll {s : Scope} {len : Nat} {state : NameMap Column} (h : s.Holds len state)
    {entries : List (String × Column)}
    (hentries : ∀ name values, (name, values) ∈ entries →
      name ∈ s.stateVariables.map (·.name) ∧ values.length = len) : s.Holds len (state.insertAll entries) := by
  refine ⟨fun name => ?_, fun name values hfound => ?_⟩
  · rw [NameMap.isSome_find?_insertAll, h.names]
    refine or_iff_left_of_imp fun hname => ?_
    obtain ⟨⟨n, values⟩, hmem, rfl⟩ := List.mem_map.1 hname
    exact (hentries n values hmem).1
  · rcases NameMap.mem_or_find?_of_insertAll hfound with hmem | hfound
    · exact (hentries name values hmem).2
    · exact h.lengths name values hfound

/-- The columns of a state that holds are those found under the names of the variables. -/
theorem columns_of_holds {s : Scope} {len : Nat} {state : NameMap Column} (h : s.Holds len state) (t dt : Float) :
    (⟨len, t, dt, state⟩ : Snapshot).columns s = .ok (s.stateVariables.map fun v => (state.find? v.name).getD []) := by
  have hcolumn : ∀ v ∈ s.stateVariables, (⟨len, t, dt, state⟩ : Snapshot).column v =
      .ok ((state.find? v.name).getD []) := by
    intro v hv
    obtain ⟨values, hvalues⟩ := Option.isSome_iff_exists.1 ((h.names v.name).2 (List.mem_map_of_mem hv))
    rw [Snapshot.column, hvalues]
    exact if_pos (h.lengths _ _ hvalues)
  refine Snapshot.columnsOf_eq_ok.2 ?_
  rw [List.map_map]
  exact List.map_congr_left hcolumn

theorem exists_columns {s : Scope} {len : Nat} {state : NameMap Column} (h : s.Holds len state) (t dt : Float) :
    ∃ columns, (⟨len, t, dt, state⟩ : Snapshot).columns s = .ok columns := ⟨_, columns_of_holds h t dt⟩

end Scope

/-! ## Outcomes -/

/-- What native code answers is columns of its targets, each with one value for every element. -/
theorem NativeCode.of_mem_outcome {c : NativeCode} (hc : c.resolved.WellScoped) {s : Snapshot}
    {outputs : NameMap Column} (h : c.outcome s = .ok outputs) {name : String} {values : Column}
    (hmem : (name, values) ∈ outputs.entries) :
    name ∈ c.resolved.scope.stateVariables.map (·.name) ∧ values.length = s.len := by
  obtain ⟨columns, -, h⟩ := bind_eq_ok.1 h
  obtain ⟨output, -, h⟩ := bind_eq_ok.1 h
  obtain ⟨written, hwritten, h⟩ := bind_eq_ok.1 h
  obtain rfl := pure_eq_ok.1 h
  have hzip := NameMap.mem_of_mem_ofList hmem
  have hname : name ∈ c.resolved.targets := by
    have hname := (List.of_mem_zip hzip).1
    rwa [c.generated] at hname
  obtain ⟨u, hu, rfl⟩ := List.mem_map.1 hname
  exact ⟨Resolved.nameOf_mem (hc.writes u hu), (Protocol.decodeOutput_shape hwritten).2 values (List.of_mem_zip hzip).2⟩

/-- **An outcome fits the state it came from.** -/
theorem CodeObject.holds_outcome {c : CodeObject} (hc : c.resolved.WellScoped) {s : Snapshot}
    {outputs : NameMap Column} (h : c.outcome s = .ok outputs) {state : NameMap Column}
    (hstate : c.resolved.scope.Holds s.len state) : c.resolved.scope.Holds s.len (state.insertAll outputs.entries) := by
  refine Scope.holds_insertAll hstate fun name values hmem => ?_
  cases c with
  | interpreted r =>
    obtain ⟨columns, hcolumns, hrun⟩ := bind_eq_ok.1 h
    obtain rfl := pure_eq_ok.1 hrun
    exact Resolved.of_mem_runFrom hc hcolumns hmem
  | native c => exact NativeCode.of_mem_outcome hc h hmem

namespace Group

/-- **A sound group**: its state, and the state kept for a reset, are those of its variables. -/
structure Sound (g : Group) : Prop where
  wellScoped : g.code.resolved.WellScoped
  holds : g.code.resolved.scope.Holds g.len g.state
  kept : ∀ state, g.initial = some state → g.code.resolved.scope.Holds g.len state

/-- What never changes in a group. -/
def shape (g : Group) : String × Nat × Resolved × (Snapshot → Except ExecError (NameMap Column)) :=
  (g.name, g.len, g.code.meaning)

theorem meaning_of_shape {g g' : Group} (h : g'.shape = g.shape) : g'.code.meaning = g.code.meaning :=
  congrArg (·.2.2) h

theorem resolved_of_shape {g g' : Group} (h : g'.shape = g.shape) : g'.code.resolved = g.code.resolved :=
  congrArg (·.2.2.1) h

theorem outcome_of_shape {g g' : Group} (h : g'.shape = g.shape) : g'.code.outcome = g.code.outcome :=
  congrArg (·.2.2.2) h

theorem sound_start {code : CodeObject} (h : code.resolved.WellScoped) (name : String) (len : Nat) :
    (start name len code).Sound := ⟨h, Scope.holds_start _ _, nofun⟩

theorem sound_withCode {g : Group} (hg : g.Sound) {code : CodeObject} (hmeaning : code.meaning = g.code.meaning) :
    (g.withCode code).Sound := by
  have h : code.resolved = g.code.resolved := congrArg Prod.fst hmeaning
  refine ⟨?_, ?_, fun state hstate => ?_⟩
  · exact h ▸ hg.wellScoped
  · exact h ▸ hg.holds
  · exact h ▸ hg.kept state hstate

theorem shape_withCode {g : Group} {code : CodeObject} (h : code.meaning = g.code.meaning) :
    (g.withCode code).shape = g.shape := by
  rw [shape, shape]
  exact congrArg (fun meaning => (g.name, g.len, meaning)) h

/-- A variable takes its values, or the group is as it was. -/
theorem set_cases (g : Group) (name : String) (values : Column) : (∃ e, g.set name values = (.error e, g)) ∨
    (g.state.find? name).isSome ∧ values.length = g.len ∧
      g.set name values = (.ok (), ⟨g.name, g.len, g.code, g.state.insert name values, g.initial⟩) := by
  unfold set
  split
  · exact .inl ⟨_, rfl⟩
  · rename_i hcontains
    split
    · exact .inl ⟨_, rfl⟩
    · rename_i hlen
      exact .inr ⟨by simpa [NameMap.contains, Option.isSome_iff_ne_none] using hcontains, Decidable.not_not.1 hlen, rfl⟩

/-- **A refused `set` leaves the group as it is.** -/
theorem set_refused {g : Group} {name : String} {values : Column} {e : NetworkError}
    (h : (g.set name values).1 = .error e) : (g.set name values).2 = g := by
  rcases set_cases g name values with ⟨e', heq⟩ | ⟨-, -, heq⟩ <;> rw [heq] at h ⊢
  cases h

theorem set_keeps (g : Group) (name : String) (values : Column) :
    (g.set name values).2.shape = g.shape ∧ (g.set name values).2.code = g.code ∧
      (g.set name values).2.initial = g.initial := by
  rcases set_cases g name values with ⟨e, heq⟩ | ⟨-, -, heq⟩ <;> rw [heq] <;> exact ⟨rfl, rfl, rfl⟩

theorem sound_set {g : Group} (hg : g.Sound) (name : String) (values : Column) : (g.set name values).2.Sound := by
  rcases set_cases g name values with ⟨e, heq⟩ | ⟨hfound, hlen, heq⟩ <;> rw [heq]
  · exact hg
  · have hentries : ∀ n vs, (n, vs) ∈ [(name, values)] →
        n ∈ g.code.resolved.scope.stateVariables.map (·.name) ∧ vs.length = g.len := by
      intro n vs hmem
      obtain ⟨hname, hvalues⟩ := Prod.mk.inj (List.mem_singleton.1 hmem)
      exact ⟨hname ▸ (hg.holds.names name).1 hfound, hvalues ▸ hlen⟩
    exact ⟨hg.wellScoped, Scope.holds_insertAll hg.holds hentries, hg.kept⟩

theorem sound_capture {g : Group} (hg : g.Sound) : g.capture.Sound := by
  refine ⟨hg.wellScoped, hg.holds, fun state hstate => ?_⟩
  obtain rfl := Option.some.inj hstate
  exact hg.holds

theorem sound_restore {g : Group} (hg : g.Sound) : g.restore.Sound ∧ g.restore.shape = g.shape := by
  unfold restore
  split
  · rename_i state hstate
    exact ⟨⟨hg.wellScoped, hg.kept state hstate, nofun⟩, rfl⟩
  · exact ⟨hg, rfl⟩

theorem prepare_shape (g : Group) : g.prepare.2.shape = g.shape := shape_withCode g.code.prepare_meaning

theorem sound_prepare {g : Group} (hg : g.Sound) : g.prepare.2.Sound := sound_withCode hg g.code.prepare_meaning

theorem step_shape (g : Group) (t dt : Float) : (g.step t dt).2.shape = g.shape := by
  have hsame := g.code.execute_meaning (g.snapshot t dt)
  unfold step
  split <;> rename_i hexecute <;> rw [hexecute] at hsame <;> exact shape_withCode hsame

/-- A step keeps a group sound, whether it fails or not. -/
theorem sound_step {g : Group} (hg : g.Sound) (t dt : Float) : (g.step t dt).2.Sound := by
  have hsame := g.code.execute_meaning (g.snapshot t dt)
  unfold step
  split
  · rename_i e code hexecute
    rw [hexecute] at hsame
    exact sound_withCode hg hsame
  · rename_i outputs code hexecute
    rw [hexecute] at hsame
    have houtcome := CodeObject.execute_eq_ok (congrArg Prod.fst hexecute)
    have hresolved : code.resolved = g.code.resolved := congrArg Prod.fst hsame
    have hafter := sound_withCode hg hsame
    have hholds := CodeObject.holds_outcome hg.wellScoped houtcome hg.holds
    exact ⟨hafter.wellScoped, hresolved ▸ hholds, hafter.kept⟩

/-- The state after a snapshot of it was answered once, and the answer merged into it. -/
def advance (g : Group) (answer : Snapshot → Except ExecError (NameMap Column)) (t dt : Float)
    (state : NameMap Column) : Except ExecError (NameMap Column) := do
  let outputs ← answer ⟨g.len, t, dt, state⟩
  return state.insertAll outputs.entries

/-- Code that does not fail at its work has an answer to every state that a group can have. -/
theorem exists_outcome {g : Group} (hg : g.Sound) (hcode : g.code.Unfailing) (t dt : Float) :
    ∃ outputs, g.code.outcome (g.snapshot t dt) = .ok outputs := by
  obtain ⟨columns, hcolumns⟩ := Scope.exists_columns hg.holds t dt
  exact hcode _ _ (bind_eq_ok.2 ⟨columns, hcolumns, rfl⟩)

/-- **A step of a group with ready code** is its code's outcome, merged into the state. -/
theorem step_of_ready {g : Group} (hready : g.code.Ready) (t dt : Float) :
    g.step t dt = match g.code.outcome (g.snapshot t dt) with
      | .error e => (.error (.execution g.name e), g)
      | .ok outputs =>
        (.ok (g.invalidCounts outputs), ⟨g.name, g.len, g.code, g.state.insertAll outputs.entries, g.initial⟩) := by
  rw [step, CodeObject.execute_of_ready _ hready]
  cases g.code.outcome (g.snapshot t dt) <;> rfl

end Group
end FixedStep
