import FixedStep.Catalog.Builtin
import FixedStep.Proofs.Environment
import FixedStep.Proofs.Kernel.Simulation
import FixedStep.Proofs.Run
import Mathlib.Data.List.Basic
import Mathlib.Data.List.Nodup
/-!
# Onset — the invalid values counted are those that a step brings about

The counts of a step are taken after it, from the state before and the outcome.  They are what the evaluation itself
would have counted: each update, in the frame that it was evaluated in, at the elements where it wrote NaN and read
none (`invalidCounts_eq_onsets`).
-/
namespace FixedStep

/-! ## Frames -/

namespace View

/-- Whether an expression is NaN at an element. -/
def isNaN (v : View) (n : Node) (i : Nat) : Bool := (v.evaluate n)[i]?.any Float.isNaN

/-- **Whether an update brings NaN about** at an element: it computes NaN, and no variable in its expression is. -/
def becomesNaN (v : View) (u : Update) (i : Nat) : Bool :=
  v.isNaN u.node i && !u.node.slots.any fun slot => v.isNaN (.state slot) i

/-- The elements at which an update brings NaN about. -/
def onset (v : View) (u : Update) : Nat := (List.range v.len).countP (v.becomesNaN u)

/-- **Updates with the frames that they are evaluated in**: the targets before an update are written, its own and the
later ones are not. -/
def frames : View → List Update → List (View × Update)
  | _, [] => []
  | v, u :: us => (v, u) :: (v.update u).frames us

/-- The targets at which NaN comes about, in the order of the updates, and at how many elements. -/
def onsets (v : View) (scope : Scope) (us : List Update) : List (String × Nat) :=
  ((v.frames us).map fun f => (scope.nameOf f.2.target, f.1.onset f.2)).filter fun c => 0 < c.2

theorem onsets_cons (v : View) (scope : Scope) (u : Update) (us : List Update) :
    v.onsets scope (u :: us) = if v.onset u = 0 then (v.update u).onsets scope us
      else (scope.nameOf u.target, v.onset u) :: (v.update u).onsets scope us := by
  rw [onsets, frames, List.map_cons, List.filter_cons]
  by_cases h : v.onset u = 0
  · simp [h, onsets]
  · simp [h, Nat.pos_of_ne_zero h, onsets]

theorem column_updateAll_of_not_mem {slot : Nat} : ∀ {us : List Update} {v : View}, slot ∉ us.map (·.target) →
    (v.updateAll us).column slot = v.column slot
  | [], _, _ => rfl
  | u :: us, v, h => by
    rw [List.map_cons, List.mem_cons, not_or] at h
    rw [updateAll_cons, column_updateAll_of_not_mem h.2, update, column, write, List.getElem?_set_ne (Ne.symm h.1),
      column]

/-- What an update writes stays, where no later one has its target. -/
theorem column_updateAll_cons {slots : Nat} {v : View} (hv : v.Square slots) {u : Update} {us : List Update}
    (hu : u.target < slots) (hdistinct : u.target ∉ us.map (·.target)) :
    (v.updateAll (u :: us)).column u.target = v.evaluate u.node := by
  rw [updateAll_cons, column_updateAll_of_not_mem hdistinct, update, column_write (hv.count ▸ hu), if_pos rfl]

end View

/-! ## Counts -/

namespace Group

theorem invalidCount_eq : ∀ (values : Column) (inputs : List Column), invalidCount values inputs =
    (List.range values.length).countP fun i =>
      values[i]?.any Float.isNaN && !inputs.any fun input => input[i]?.any Float.isNaN
  | [], _ => rfl
  | v :: vs, inputs => by
    rw [invalidCount, invalidCount_eq vs, List.length_cons, List.range_succ_eq_map, List.countP_cons, List.countP_map,
      Nat.add_comm]
    congr 2
    · simp [Function.comp_def, List.any_map]
    · simp [List.head?_eq_getElem?]

/-- The columns that the count takes for those read are the columns of a frame. -/
def Sees (scope : Scope) (seen : NameMap Column) (v : View) : Prop :=
  ∀ slot < scope.stateVariables.length, seen.find? (scope.nameOf slot) = some (v.column slot)

variable {scope : Scope} {seen outputs : NameMap Column} {v : View}

theorem sees_update (hdistinct : (scope.stateVariables.map (·.name)).Nodup)
    (hv : v.Square scope.stateVariables.length) (h : Sees scope seen v) {u : Update}
    (hu : u.target < scope.stateVariables.length) :
    Sees scope (seen.insert (scope.nameOf u.target) (v.evaluate u.node)) (v.update u) := by
  intro slot hslot
  rw [View.update, View.column_write (hv.count ▸ hu), NameMap.find?_insert]
  by_cases heq : u.target = slot
  · rw [heq, if_pos rfl, if_pos rfl]
  · have hname : scope.nameOf u.target ≠ scope.nameOf slot := fun hname =>
      heq (Kernel.nameOf_injective hdistinct hu hslot hname)
    rw [if_neg heq, if_neg hname, h slot hslot]

/-- Of what an update wrote and what it read, the count is its onset. -/
theorem invalidCount_of_sees (hv : v.Square scope.stateVariables.length) (h : Sees scope seen v) {u : Update}
    (hu : ∀ slot ∈ u.node.slots, slot < scope.stateVariables.length) :
    invalidCount (v.evaluate u.node) (u.node.slots.filterMap fun slot => seen.find? (scope.nameOf slot)) =
      v.onset u := by
  have hinputs : (u.node.slots.filterMap fun slot => seen.find? (scope.nameOf slot)) = u.node.slots.map v.column :=
    List.filterMap_eq_map_iff_forall_eq_some.2 fun slot hslot => h slot (hu slot hslot)
  rw [hinputs, invalidCount_eq, View.length_evaluate hv hu, View.onset]
  refine congrArg (fun p => (List.range v.len).countP p) (funext fun i => ?_)
  rw [View.becomesNaN, View.isNaN, List.any_map]
  rfl

/-- **The counts are the onsets.**  The frame moves along with the columns taken for read, and an update's outcome is
what it wrote, as its target is its own. -/
theorem invalidCountsFrom_eq_onsets (hdistinct : (scope.stateVariables.map (·.name)).Nodup) :
    ∀ {us : List Update} {seen : NameMap Column} {v : View}, v.Square scope.stateVariables.length →
      Sees scope seen v → (us.map (·.target)).Nodup →
      (∀ u ∈ us, u.target < scope.stateVariables.length ∧ ∀ slot ∈ u.node.slots, slot < scope.stateVariables.length) →
      (∀ u ∈ us, outputs.find? (scope.nameOf u.target) = some ((v.updateAll us).column u.target)) →
        invalidCountsFrom scope outputs seen us = v.onsets scope us
  | [], _, _, _, _, _, _, _ => rfl
  | u :: us, seen, v, hv, hsees, htargets, hslots, houtputs => by
    obtain ⟨⟨hwrites, hreads⟩, hslots⟩ := List.forall_mem_cons.1 hslots
    obtain ⟨hown, htargets⟩ := List.nodup_cons.1 htargets
    obtain ⟨hfound, houtputs⟩ := List.forall_mem_cons.1 houtputs
    rw [View.column_updateAll_cons hv hwrites hown] at hfound
    have hafter := View.square_write hv u.target (View.length_evaluate hv hreads)
    have hrest := invalidCountsFrom_eq_onsets hdistinct hafter (sees_update hdistinct hv hsees hwrites) htargets
      hslots houtputs
    rw [invalidCountsFrom, View.onsets_cons]
    simp only [hfound, invalidCount_of_sees hv hsees hreads, hrest]
    rfl

end Group

/-! ## Steps -/

theorem Scope.targets_of_resolve {set : EquationSet} {catalog : Catalog} {constants : Constants} {r : Resolved}
    (h : resolve set catalog constants = .ok r) :
    r.targets = (set.equations.filter (·.rhs.isSome)).map (·.target.name) := by
  have hwritten := congrArg (List.map Prod.fst)
    (written_of_lowerEquations ⟨0, [], 0.0, 0.0⟩ (Resolved.updates_of_resolve h))
  rw [List.map_map, List.map_map] at hwritten
  exact hwritten

theorem Scope.nodup_targets {set : EquationSet} {catalog : Catalog} {constants : Constants} {r : Resolved}
    (h : resolve set catalog constants = .ok r) : r.targets.Nodup := by
  rw [targets_of_resolve h]
  exact (nodup_of_declare (Resolved.built_of_resolve h).declared).1.sublist (List.filter_sublist.map _)

namespace Group

/-- **A well-formed group that can step**: its equations resolved, its state holds a column for each of their
variables, and its code is ready and computes what the equations say, as interpreted code always does. -/
structure Steppable (g : Group) : Prop where
  resolves : ∃ set catalog constants, resolve set catalog constants = .ok g.code.resolved
  holds : g.code.resolved.scope.Holds g.len g.state
  ready : g.code.Ready
  faithful : g.code.Faithful

/-- The frame of a group before a step. -/
def view (g : Group) (t dt : Float) : View :=
  ⟨g.len, g.code.resolved.scope.stateVariables.map fun v => (g.state.find? v.name).getD [], t, dt⟩

/-- The targets at which NaN comes about in a step. -/
def onsets (g : Group) (t dt : Float) : List (String × Nat) :=
  (g.view t dt).onsets g.code.resolved.scope g.code.resolved.updates

variable {g : Group}

theorem square_view (h : g.code.resolved.scope.Holds g.len g.state) (t dt : Float) :
    (g.view t dt).Square g.code.resolved.scope.stateVariables.length :=
  Resolved.square_columns (Scope.columns_of_holds h t dt)

theorem sees_view (h : g.code.resolved.scope.Holds g.len g.state) (t dt : Float) :
    Sees g.code.resolved.scope g.state (g.view t dt) := by
  intro slot hslot
  have hvariable := List.getElem?_eq_getElem hslot
  obtain ⟨values, hvalues⟩ := Option.isSome_iff_exists.1 ((h.names _).2 (List.mem_map_of_mem (List.getElem_mem hslot)))
  rw [Scope.nameOf, hvariable, View.column, view, List.getElem?_map, hvariable]
  simp [hvalues]

/-- **A step counts what it brings about.** -/
theorem step_eq_onsets (hg : g.Steppable) (t dt : Float) : g.step t dt = (.ok (g.onsets t dt),
    ⟨g.name, g.len, g.code, g.state.insertAll
      (g.code.resolved.outputs ((g.view t dt).updateAll g.code.resolved.updates)).entries, g.initial⟩) := by
  obtain ⟨set, catalog, constants, hresolve⟩ := hg.resolves
  have hscoped := Resolved.wellScoped_of_resolve hresolve
  have hnames := Scope.nodup_targets hresolve
  have htargets : (g.code.resolved.updates.map (·.target)).Nodup := by
    have hsplit : g.code.resolved.targets =
        (g.code.resolved.updates.map (·.target)).map g.code.resolved.scope.nameOf := by
      rw [List.map_map]
      rfl
    exact List.Nodup.of_map _ (hsplit ▸ hnames)
  have hexecute : g.code.resolved.execute (g.snapshot t dt) =
      .ok (g.code.resolved.outputs ((g.view t dt).updateAll g.code.resolved.updates)) :=
    bind_eq_ok.2 ⟨_, Scope.columns_of_holds hg.holds t dt, rfl⟩
  have houtputs : ∀ u ∈ g.code.resolved.updates,
      (g.code.resolved.outputs ((g.view t dt).updateAll g.code.resolved.updates)).find?
        (g.code.resolved.scope.nameOf u.target) =
          some (((g.view t dt).updateAll g.code.resolved.updates).column u.target) := by
    intro u hu
    refine NameMap.find?_insertAll_of_mem ?_ (List.mem_map_of_mem hu)
    rw [List.map_map]
    exact hnames
  have hcounts := invalidCountsFrom_eq_onsets hscoped.distinct (square_view hg.holds t dt) (sees_view hg.holds t dt)
    htargets (fun u hu => ⟨hscoped.writes u hu, hscoped.reads u hu⟩) houtputs
  rw [step_of_ready hg.ready, hg.faithful, hexecute]
  simp only [invalidCounts, hcounts, onsets]

end Group

/-! ## Ticks -/

namespace Network

/-- The warnings of a tick about a group: one for each target at which NaN comes about. -/
def warnings (t dt : Float) (g : Group) : List Diagnostic :=
  (g.onsets t dt).map fun c => .invalidValues g.name c.1 t c.2

theorem stepGroups_warnings (t dt : Float) : ∀ {gs : List Group}, (∀ g ∈ gs, g.Steppable) →
    (stepGroups t dt gs).2.1 = gs.flatMap (warnings t dt) ∧ (stepGroups t dt gs).2.2 = none
  | [], _ => ⟨rfl, rfl⟩
  | g :: gs, h => by
    obtain ⟨hg, hgs⟩ := List.forall_mem_cons.1 h
    obtain ⟨hrest, hfailure⟩ := stepGroups_warnings t dt hgs
    rw [stepGroups, Group.step_eq_onsets hg, List.flatMap_cons, ← hrest]
    exact ⟨rfl, hfailure⟩

/-- **Warnings match what the evaluation reads.**  A step counts, in the order of the updates, the elements at which an
update wrote NaN and read none in the frame that it was evaluated in; and a tick warns of each count once, group after
group. -/
theorem tick_warns : (∀ {g : Group}, g.Steppable → ∀ t dt : Float, g.step t dt = (.ok (g.onsets t dt),
      ⟨g.name, g.len, g.code, g.state.insertAll
        (g.code.resolved.outputs ((g.view t dt).updateAll g.code.resolved.updates)).entries, g.initial⟩)) ∧
    ∀ n : Network, (∀ g ∈ n.groups, g.Steppable) → n.tick.failure = none ∧
      n.tick.diagnostics = (n.groups.flatMap (warnings n.clock.t n.clock.dt)).toArray := by
  refine ⟨fun hg t dt => Group.step_eq_onsets hg t dt, fun n hn => ?_⟩
  obtain ⟨hwarnings, hfailure⟩ := stepGroups_warnings n.clock.t n.clock.dt hn
  rw [tick, ← hwarnings]
  simp only [hfailure, and_self]

/-- `x = x / x : 1` and `y = x + 1 : 1` -/
def quotients : EquationSet :=
  ⟨[⟨⟨"x", ⟨0, 1⟩⟩, some (.binary .div (.name "x" ⟨4, 5⟩) (.name "x" ⟨8, 9⟩) ⟨4, 9⟩), .number 1.0 ⟨12, 13⟩, ⟨0, 13⟩⟩,
    ⟨⟨"y", ⟨14, 15⟩⟩, some (.binary .add (.name "x" ⟨18, 19⟩) (.number 1.0 ⟨22, 23⟩) ⟨18, 23⟩), .number 1.0 ⟨26, 27⟩,
      ⟨14, 27⟩⟩], ⟨0, 27⟩⟩

/-- Two elements of them, of which one divides by zero. -/
def quotientGroup : Group where
  name := "quotients"
  len := 2
  code := .interpreted ⟨⟨[⟨"x", .one, some 0⟩, ⟨"y", .one, some 1⟩], .empty, .empty⟩,
    [⟨0, .binary .div (.state 0) (.state 0)⟩, ⟨1, .binary .add (.state 0) (.const 1.0)⟩]⟩
  state := .ofList [("x", [0.0, 1.0]), ("y", [0.0, 0.0])]
  initial := none

theorem steppable_quotientGroup : quotientGroup.Steppable := by
  have hresolve : resolve quotients .empty .empty = .ok quotientGroup.code.resolved := rfl
  have hset : ((Group.start "quotients" 2 quotientGroup.code).set "x" [0.0, 1.0]).2 = quotientGroup := rfl
  have hsound := Group.sound_start (Resolved.wellScoped_of_resolve hresolve) "quotients" 2
  exact ⟨⟨quotients, .empty, .empty, hresolve⟩, hset ▸ (Group.sound_set hsound "x" [0.0, 1.0]).holds, trivial,
    CodeObject.faithful_interpreted _⟩

/-- The element that turns NaN is warned of where it does, and not where it is read after that. -/
theorem tick_warns_quotients : quotientGroup.Steppable ∧
    (quotientGroup.step 0.0 0.5).1 = .ok [("x", 1)] ∧
    (⟨⟨0.5, 0⟩, .start, [quotientGroup], []⟩ : Network).tick.diagnostics =
      #[.invalidValues "quotients" "x" (Clock.t ⟨0.5, 0⟩) 1] := by
  have hgroup := steppable_quotientGroup
  have honsets : ∀ t dt, quotientGroup.onsets t dt = [("x", 1)] := fun t dt => by rfl
  have hnetwork : ∀ g ∈ (⟨⟨0.5, 0⟩, .start, [quotientGroup], []⟩ : Network).groups, g.Steppable := by
    intro g hg
    rwa [List.mem_singleton.1 hg]
  refine ⟨hgroup, ?_, ?_⟩
  · rw [tick_warns.1 hgroup, honsets]
  · rw [(tick_warns.2 _ hnetwork).2, List.flatMap_singleton, warnings, honsets]
    rfl

end Network
end FixedStep
