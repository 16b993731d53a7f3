import FixedStep.Proofs.Run
/-!
# History — calls in any order

A history is a list of calls on a network, any of which may be refused.  What one call makes of a group that is there is
said once for all calls (`changes_of_perform`), and so is what it makes of a monitor (`records_of_perform`).
-/
namespace FixedStep

/-- A code object whose equations came from resolving. -/
structure Compiled where
  code : CodeObject
  resolves : ∃ set catalog constants, resolve set catalog constants = .ok code.resolved

inductive Call where
  | addGroup (name : String) (len : Nat) (code : Compiled)
  | set (number : Nat) (variableName : String) (values : Column)
  | fill (number : Nat) (variableName : String) (value : Float)
  | addMonitor (number : Nat) (variableName : String)
  | run (duration : Float)
  | reset

/-- How a call ends: the network after it, what was reported on the way, and the number of what was added. -/
structure Reply where
  network : Network
  diagnostics : Array Diagnostic
  answer : Except NetworkError (Option Nat)

namespace Network

/-- A change of the group with a number, refused or not. -/
def edit (n : Network) (number : Nat) (change : Group → Except NetworkError Unit × Group) : Reply :=
  match n.group? number with
  | none => ⟨n, #[], .error (.unknownGroup number)⟩
  | some g =>
    let (result, after) := change g
    ⟨n.setGroup number after, #[], result.map fun _ => none⟩

/-- **One call.** -/
def perform (n : Network) : Call → Reply
  | .addGroup name len code =>
    let (number, after) := n.addGroup (.start name len code.code)
    ⟨after, #[], .ok (some number)⟩
  | .set number name values => n.edit number (·.set name values)
  | .fill number name value => n.edit number (·.fill name value)
  | .addMonitor number name =>
    let (result, after) := n.addMonitor number name
    ⟨after, #[], result.map some⟩
  | .run duration =>
    let p := n.run duration
    ⟨p.network, p.diagnostics, match p.failure with | some e => .error e | none => .ok none⟩
  | .reset => ⟨n.reset, #[], .ok none⟩

def after (n : Network) : List Call → Network
  | [] => n
  | call :: calls => (n.perform call).network.after calls

def reports (n : Network) : List Call → List Diagnostic
  | [] => []
  | call :: calls => (n.perform call).diagnostics.toList ++ (n.perform call).network.reports calls

def Succeeds (n : Network) : List Call → Prop
  | [] => True
  | call :: calls => (∃ number, (n.perform call).answer = .ok number) ∧ (n.perform call).network.Succeeds calls

theorem after_append (n : Network) (calls more : List Call) : n.after (calls ++ more) = (n.after calls).after more := by
  induction calls generalizing n with
  | nil => rfl
  | cons call calls ih => exact ih _

/-! ## Reached networks -/

theorem edit_cases (n : Network) (number : Nat) (change : Group → Except NetworkError Unit × Group) :
    n.edit number change = ⟨n, #[], .error (.unknownGroup number)⟩ ∨ ∃ g, n.group? number = some g ∧
      n.edit number change = ⟨n.setGroup number (change g).2, #[], (change g).1.map fun _ => none⟩ := by
  unfold edit
  split
  · exact .inl rfl
  · rename_i g hg
    exact .inr ⟨g, hg, rfl⟩

theorem reachable_edit {n : Network} (hn : Reachable n) (number : Nat) (name : String) (values : Group → Column) :
    Reachable (n.edit number fun g => g.set name (values g)).network := by
  rcases edit_cases n number fun g => g.set name (values g) with h | ⟨g, hg, h⟩ <;> rw [h]
  · exact hn
  · exact .set name (values g) hn hg

theorem reachable_perform {n : Network} (hn : Reachable n) : ∀ call : Call, Reachable (n.perform call).network
  | .addGroup name len code => by
    obtain ⟨set, catalog, constants, hresolve⟩ := code.resolves
    exact .addGroup name len hn hresolve
  | .set number name values => reachable_edit hn number name fun _ => values
  | .fill number name value => reachable_edit hn number name fun g => List.replicate g.len value
  | .addMonitor number name => .addMonitor number name hn
  | .run duration => .run duration hn
  | .reset => .reset hn

theorem reachable_after : ∀ (calls : List Call) {n : Network}, Reachable n → Reachable (n.after calls)
  | [], _, hn => hn
  | call :: calls, _, hn => reachable_after calls (reachable_perform hn call)

/-! ## How a run ends -/

/-- **What ticks leave alone**, whether they fail or not. -/
structure Keeps (n after : Network) : Prop where
  dt : after.clock.dt = n.clock.dt
  step : n.clock.step ≤ after.clock.step
  identifiers : after.identifiers = n.identifiers
  shapes : after.groups.map Group.shape = n.groups.map Group.shape
  initial : after.groups.map (·.initial) = n.groups.map (·.initial)
  watched : after.monitors.map Monitor.clear = n.monitors.map Monitor.clear

theorem Keeps.trans {n n' after : Network} (h : Keeps n n') (h' : Keeps n' after) : Keeps n after :=
  ⟨h'.dt.trans h.dt, Nat.le_trans h.step h'.step, h'.identifiers.trans h.identifiers, h'.shapes.trans h.shapes,
    h'.initial.trans h.initial, h'.watched.trans h.watched⟩

theorem step_initial (g : Group) (t dt : Float) : (g.step t dt).2.initial = g.initial := by
  unfold Group.step
  split <;> rfl

theorem stepGroups_initial (t dt : Float) : ∀ gs : List Group,
    (stepGroups t dt gs).1.map (·.initial) = gs.map (·.initial)
  | [] => rfl
  | g :: gs => by
    have hstep := step_initial g t dt
    rw [stepGroups]
    split <;> rename_i heq <;> rw [heq] at hstep
    · rw [List.map_cons, List.map_cons, hstep]
    · rw [List.map_cons, List.map_cons, hstep, stepGroups_initial t dt gs]

theorem clear_recordFrom (gs : List Group) (t : Float) (m : Monitor) : (recordFrom gs t m).clear = m.clear := by
  obtain ⟨hgroup, hname⟩ := recordFrom_watches gs t m
  rw [Monitor.clear, Monitor.clear, hgroup, hname]

theorem keeps_tick (n : Network) : Keeps n n.tick.network := by
  have hshapes := stepGroups_shape n.clock.t n.clock.dt n.groups
  have hinitial := stepGroups_initial n.clock.t n.clock.dt n.groups
  unfold tick
  simp only
  split
  · exact ⟨rfl, Nat.le_refl _, rfl, hshapes, hinitial, rfl⟩
  · refine ⟨rfl, Nat.le_succ _, rfl, hshapes, hinitial, ?_⟩
    rw [List.map_map]
    exact List.map_congr_left fun m _ => clear_recordFrom _ _ m

theorem keeps_ticks : ∀ (k : Nat) (p : Progress), Keeps p.network (ticks k p).network
  | 0, _ => ⟨rfl, Nat.le_refl _, rfl, rfl, rfl, rfl⟩
  | k + 1, p => by
    rw [ticks]
    split
    · exact ⟨rfl, Nat.le_refl _, rfl, rfl, rfl, rfl⟩
    · have hrest := keeps_ticks k ⟨p.network.tick.network, p.diagnostics ++ p.network.tick.diagnostics,
        p.network.tick.failure⟩
      exact (keeps_tick p.network).trans hrest

theorem begun_initial (n : Network) (k : Nat) : (n.begun k).groups.map (·.initial) =
    n.groups.map fun g => if n.clock.step = 0 then some g.state else g.initial := by
  have hkeeps : (if 0 < k then (prepareGroups n.groups).1 else n.groups).map (fun g => (g.shape, g.state, g.initial)) =
      n.groups.map fun g => (g.shape, g.state, g.initial) := by
    split
    · exact prepareGroups_keeps n.groups
    · rfl
  unfold begun captureAtStart
  by_cases hstep : n.clock.step = 0
  · simp only [hstep, if_true]
    have hstates := congrArg (List.map fun x => some x.2.1) hkeeps
    rw [List.map_map, List.map_map] at hstates
    rw [List.map_map]
    exact hstates
  · simp only [hstep, if_false]
    have hinitial := congrArg (List.map fun x => x.2.2) hkeeps
    rwa [List.map_map, List.map_map] at hinitial

/-- A network that a run has left alone, but for preparing code. -/
structure Unmoved (n after : Network) : Prop where
  clock : after.clock = n.clock
  identifiers : after.identifiers = n.identifiers
  groups : after.groups.map (fun g => (g.shape, g.state, g.initial)) = n.groups.map fun g => (g.shape, g.state, g.initial)
  monitors : after.monitors = n.monitors

theorem Unmoved.keeps {n after : Network} (h : Unmoved n after) : Keeps n after := by
  have hshapes := congrArg (List.map fun x => x.1) h.groups
  have hinitial := congrArg (List.map fun x => x.2.2) h.groups
  rw [List.map_map, List.map_map] at hshapes hinitial
  exact ⟨by rw [h.clock], Nat.le_of_eq (by rw [h.clock]), h.identifiers, hshapes, hinitial, by rw [h.monitors]⟩

/-- **What a run leaves once it has begun**, whether it fails or not: the states it began from are kept if it began at
step zero. -/
structure Carried (n after : Network) : Prop where
  dt : after.clock.dt = n.clock.dt
  step : n.clock.step ≤ after.clock.step
  identifiers : after.identifiers = n.identifiers
  shapes : after.groups.map Group.shape = n.groups.map Group.shape
  initial : after.groups.map (·.initial) = n.groups.map fun g => if n.clock.step = 0 then some g.state else g.initial
  watched : after.monitors.map Monitor.clear = n.monitors.map Monitor.clear

/-- A network that a run has taken `k` ticks on. -/
structure Moved (k : Nat) (n after : Network) : Prop extends Ticked k n after, Carried n after

theorem carried_ticks (n : Network) (k : Nat) (diagnostics : Array Diagnostic) :
    Carried n (ticks k ⟨n.begun k, diagnostics, none⟩).network := by
  obtain ⟨hclock, hidentifiers, hmonitors, -⟩ := begun_keeps n k
  have hkeeps := keeps_ticks k ⟨n.begun k, diagnostics, none⟩
  exact ⟨hkeeps.dt.trans (by rw [hclock]), Nat.le_trans (Nat.le_of_eq (by rw [hclock])) hkeeps.step,
    hkeeps.identifiers.trans hidentifiers, hkeeps.shapes.trans (begun_shape n k),
    hkeeps.initial.trans (begun_initial n k), hkeeps.watched.trans (by rw [hmonitors])⟩

/-- **A run fails before its first tick, or it begins**, and is its ticks. -/
theorem run_cases (n : Network) (d : Float) :
    (∃ e, (n.run d).failure = some e ∧ (n.run d).diagnostics = #[] ∧ Unmoved n (n.run d).network) ∨
      ∃ k, n.clock.stepsFor d = .ok k ∧ (0 < k → (prepareGroups n.groups).2 = none) ∧
        n.run d = ticks k ⟨n.begun k, #[], none⟩ := by
  cases hk : n.clock.stepsFor d with
  | error e =>
    -- no step count: nothing was prepared
    left
    rw [run, hk]
    exact ⟨_, rfl, rfl, ⟨rfl, rfl, rfl, rfl⟩⟩
  | ok k =>
    by_cases hfails : 0 < k ∧ ∃ e, (prepareGroups n.groups).2 = some e
    · -- a group that cannot be prepared: those before it are, and none has stepped
      obtain ⟨hpos, e, he⟩ := hfails
      left
      refine ⟨e, ?_⟩
      unfold run
      simp only [hk, if_pos hpos, he, true_and]
      exact ⟨rfl, rfl, prepareGroups_keeps n.groups, rfl⟩
    · right
      have hprepared : 0 < k → (prepareGroups n.groups).2 = none := by
        intro hpos
        cases hfailure : (prepareGroups n.groups).2 with
        | none => rfl
        | some e => exact absurd ⟨hpos, e, hfailure⟩ hfails
      exact ⟨k, rfl, hprepared, run_eq_ticks hk hprepared⟩

/-- A run leaves a network alone, or carries it on. -/
theorem run_carries (n : Network) (d : Float) : Unmoved n (n.run d).network ∨ Carried n (n.run d).network := by
  rcases run_cases n d with ⟨e, -, -, hunmoved⟩ | ⟨k, -, -, hrun⟩
  · exact .inl hunmoved
  · rw [hrun]
    exact .inr (carried_ticks n k #[])

/-- **A run that succeeds has moved the network on.** -/
theorem moved_of_run {n : Network} (hn : n.Sound) {d : Float} (hrun : (n.run d).failure = none) :
    ∃ k, n.clock.stepsFor d = .ok k ∧ Moved k n (n.run d).network := by
  rcases run_cases n d with ⟨e, he, -⟩ | ⟨k, hk, -, heq⟩
  · cases he.symm.trans hrun
  · have hcarried := carried_ticks n k #[]
    rw [← heq] at hcarried
    exact ⟨k, hk, ticked_run hn hk hrun, hcarried⟩

/-- **Where no code fails at its work**, a run that fails has left the network alone. -/
theorem unmoved_of_run {n : Network} (hn : n.Sound) (hcode : n.Unfailing) {d : Float}
    (hrun : (n.run d).failure ≠ none) : (n.run d).diagnostics = #[] ∧ Unmoved n (n.run d).network := by
  rcases run_cases n d with ⟨e, -, hquiet, hunmoved⟩ | ⟨k, hk, hprepared, -⟩
  · exact ⟨hquiet, hunmoved⟩
  · exact absurd (failure_of_prepared hn hcode hk hprepared) hrun

theorem shapes_run (n : Network) (d : Float) :
    (n.run d).network.groups.map Group.shape = n.groups.map Group.shape := by
  rcases n.run_carries d with h | h
  · exact h.keeps.shapes
  · exact h.shapes

/-- A run past step zero keeps no state anew. -/
theorem initial_run {n : Network} (hstep : 0 < n.clock.step) (d : Float) :
    (n.run d).network.groups.map (·.initial) = n.groups.map (·.initial) := by
  rcases n.run_carries d with h | h
  · exact h.keeps.initial
  · rw [h.initial]
    simp only [if_neg (Nat.ne_of_gt hstep)]

theorem watched_run (n : Network) (d : Float) :
    (n.run d).network.monitors.map Monitor.clear = n.monitors.map Monitor.clear := by
  rcases n.run_carries d with h | h
  · exact h.keeps.watched
  · exact h.watched

end Network

/-! ## One call, one group -/

/-- **What a call on the network `n` makes of its group with number `i`.**  Only `set` and `fill` of that number, ticks
and `reset` touch its state; only runs from step zero keep it, and only `reset` gives up what is kept.  A run that fails
touches nothing, unless a program fails at its work. -/
def Call.Changes (n : Network) (i : Nat) (g after : Group) : Call → Prop
  | .set number name values => after = if number = i then (g.set name values).2 else g
  | .fill number name value => after = if number = i then (g.fill name value).2 else g
  | .run d => after.shape = g.shape ∧ (0 < n.clock.step → after.initial = g.initial) ∧
    (n.Unfailing → (n.run d).failure ≠ none → after.state = g.state ∧ after.initial = g.initial) ∧
      ((n.run d).failure = none → ∃ k, n.clock.stepsFor d = .ok k ∧ g.stateAfter n.clock k = .ok after.state ∧
        after.initial = if n.clock.step = 0 then some g.state else g.initial)
  | .reset => after = g.restore
  | .addGroup _ _ _ => after = g
  | .addMonitor _ _ => after = g

/-- **What a call on the network `n` makes of its monitor `m`.**  Only ticks and `reset` touch its rows. -/
def Call.Records (n : Network) (m after : Monitor) : Call → Prop
  | .run d => (after.group = m.group ∧ after.variableName = m.variableName) ∧
    (n.Unfailing → (n.run d).failure ≠ none → after = m) ∧
      ((n.run d).failure = none → ∃ k g rows, n.clock.stepsFor d = .ok k ∧ n.groups[m.group]? = some g ∧
        Network.Gained g n.clock k m after rows)
  | .reset => after = m.clear
  | .addGroup _ _ _ => after = m
  | .addMonitor _ _ => after = m
  | .set _ _ _ => after = m
  | .fill _ _ _ => after = m

namespace Network

theorem edit_keeps (n : Network) (number : Nat) (change : Group → Except NetworkError Unit × Group) :
    (n.edit number change).network.clock = n.clock ∧
      (n.edit number change).network.groups.length = n.groups.length ∧
        (n.edit number change).network.monitors = n.monitors := by
  rcases edit_cases n number change with h | ⟨g, -, h⟩ <;> rw [h]
  · exact ⟨rfl, rfl, rfl⟩
  · exact ⟨rfl, List.length_set, rfl⟩

theorem edit_getElem? {n : Network} {i : Nat} {g : Group} (hg : n.groups[i]? = some g) (number : Nat)
    (change : Group → Except NetworkError Unit × Group) :
    (n.edit number change).network.groups[i]? = some (if number = i then (change g).2 else g) := by
  by_cases hnumber : number = i
  · subst hnumber
    have hfound : n.group? number = some g := hg
    rw [if_pos rfl, edit, hfound]
    exact List.getElem?_set_self (List.getElem?_eq_some_iff.1 hg).1
  · rw [if_neg hnumber]
    rcases edit_cases n number change with h | ⟨g', -, h⟩ <;> rw [h]
    · exact hg
    · exact (List.getElem?_set_ne hnumber).trans hg

/-- **A refused `set` or `fill` leaves the network as it is.** -/
theorem edit_refused {n : Network} {number : Nat} {name : String} {values : Group → Column} {e : NetworkError}
    (h : (n.edit number fun g => g.set name (values g)).answer = .error e) :
    (n.edit number fun g => g.set name (values g)).network = n := by
  rcases edit_cases n number fun g => g.set name (values g) with heq | ⟨g, hg, heq⟩ <;> rw [heq] at h ⊢
  have hset : (g.set name (values g)).1 = .error e := by
    cases hresult : (g.set name (values g)).1 <;> rw [hresult] at h <;> cases h
    rfl
  -- the group goes back to its place as it was
  obtain ⟨hlt, hget⟩ := List.getElem?_eq_some_iff.1 hg
  rw [Group.set_refused hset, setGroup, ← hget, List.set_getElem_self]

/-- A monitor is added, or nothing changes. -/
theorem perform_addMonitor_cases (n : Network) (number : Nat) (name : String) :
    (∃ e, n.perform (.addMonitor number name) = ⟨n, #[], .error e⟩ ∧ (n.addMonitor number name).1 = .error e) ∨
      n.perform (.addMonitor number name) = ⟨⟨n.clock, n.identifiers.monitor.2, n.groups,
        n.monitors ++ [.start number name]⟩, #[], .ok (some n.identifiers.nextMonitor)⟩ ∧
          (n.addMonitor number name).1 = .ok n.identifiers.nextMonitor := by
  rw [perform]
  rcases addMonitor_cases n number name with ⟨e, h⟩ | ⟨g, -, -, h⟩ <;> rw [h]
  · exact .inl ⟨e, rfl, rfl⟩
  · exact .inr ⟨rfl, rfl⟩

/-- **Every call leaves every group where it was**, and makes of it what the call says. -/
theorem changes_of_perform {n : Network} (hn : n.Sound) {i : Nat} {g : Group} (hg : n.groups[i]? = some g) :
    ∀ call : Call, ∃ after, (n.perform call).network.groups[i]? = some after ∧ call.Changes n i g after
  | .addGroup _ _ _ => ⟨g, (List.getElem?_append_left (List.getElem?_eq_some_iff.1 hg).1).trans hg, rfl⟩
  | .set number _ _ => ⟨_, edit_getElem? hg number _, rfl⟩
  | .fill number _ _ => ⟨_, edit_getElem? hg number _, rfl⟩
  | .addMonitor number name => by
    refine ⟨g, ?_, rfl⟩
    rcases perform_addMonitor_cases n number name with ⟨e, h, -⟩ | ⟨h, -⟩ <;> rw [h] <;> exact hg
  | .run d => by
    obtain ⟨after, hafter, hshape⟩ := getElem?_of_map_eq (shapes_run n d) hg
    refine ⟨after, hafter, hshape, fun hstep => ?_, fun hcode hfails => ?_, fun hrun => ?_⟩
    · obtain ⟨after', hafter', hinitial⟩ := getElem?_of_map_eq (initial_run hstep d) hg
      obtain rfl := Option.some.inj (hafter.symm.trans hafter')
      exact hinitial
    · obtain ⟨after', hafter', hsame⟩ := getElem?_of_map_eq (unmoved_of_run hn hcode hfails).2.groups hg
      obtain rfl := Option.some.inj (hafter.symm.trans hafter')
      exact ⟨congrArg (·.2.1) hsame, congrArg (·.2.2) hsame⟩
    · obtain ⟨k, hk, hmoved⟩ := moved_of_run hn hrun
      obtain ⟨after', hafter', -, hstate⟩ := hmoved.groups i g hg
      obtain rfl := Option.some.inj (hafter.symm.trans hafter')
      have hinitial := congrArg (·[i]?) hmoved.initial
      simp only [List.getElem?_map, hafter, hg, Option.map_some, Option.some.injEq] at hinitial
      exact ⟨k, hk, hstate, hinitial⟩
  | .reset => ⟨g.restore, by rw [perform, reset, List.getElem?_map, hg, Option.map_some], rfl⟩

/-- **Every call leaves every monitor where it was**, and makes of it what the call says. -/
theorem records_of_perform {n : Network} (hn : n.Sound) {i : Nat} {m : Monitor} (hm : n.monitors[i]? = some m) :
    ∀ call : Call, ∃ after, (n.perform call).network.monitors[i]? = some after ∧ call.Records n m after
  | .addGroup _ _ _ => ⟨m, hm, rfl⟩
  | .set number _ _ => ⟨m, (congrArg (·[i]?) (edit_keeps n number _).2.2).trans hm, rfl⟩
  | .fill number _ _ => ⟨m, (congrArg (·[i]?) (edit_keeps n number _).2.2).trans hm, rfl⟩
  | .addMonitor number name => by
    refine ⟨m, ?_, rfl⟩
    rcases perform_addMonitor_cases n number name with ⟨e, h, -⟩ | ⟨h, -⟩ <;> rw [h]
    · exact hm
    · exact (List.getElem?_append_left (List.getElem?_eq_some_iff.1 hm).1).trans hm
  | .run d => by
    obtain ⟨after, hafter, hclear⟩ := getElem?_of_map_eq (watched_run n d) hm
    have hgroup := congrArg Monitor.group hclear
    have hname := congrArg Monitor.variableName hclear
    refine ⟨after, hafter, ⟨hgroup, hname⟩, fun hcode hfails => ?_, fun hrun => ?_⟩
    · have hafter' := (unmoved_of_run hn hcode hfails).2.monitors ▸ hm
      exact Option.some.inj (hafter.symm.trans hafter')
    · obtain ⟨k, hk, hmoved⟩ := moved_of_run hn hrun
      obtain ⟨g, after', rows, hg, hafter', hgained⟩ := hmoved.monitors i m hm
      obtain rfl := Option.some.inj (hafter.symm.trans hafter')
      exact ⟨k, g, rows, hk, hg, hgained⟩
  | .reset => ⟨m.clear, by rw [perform, reset, List.getElem?_map, hm, Option.map_some], rfl⟩

/-! ## What calls keep -/

theorem keeps_of_set (g : Group) (name : String) (values : Column) (named : Prop) [Decidable named] :
    (if named then (g.set name values).2 else g).shape = g.shape ∧
      (if named then (g.set name values).2 else g).initial = g.initial := by
  split
  · obtain ⟨hshape, -, hinitial⟩ := g.set_keeps name values
    exact ⟨hshape, hinitial⟩
  · exact ⟨rfl, rfl⟩

theorem restore_keeps (g : Group) : g.restore.shape = g.shape ∧ g.restore.code = g.code := by
  unfold Group.restore
  split <;> exact ⟨rfl, rfl⟩

variable {n : Network} {i : Nat} {g after : Group}

theorem shape_of_changes : ∀ {call : Call}, call.Changes n i g after → after.shape = g.shape
  | .set _ name values, h => (congrArg Group.shape h).trans (keeps_of_set g name values _).1
  | .fill _ name _, h => (congrArg Group.shape h).trans (keeps_of_set g name _ _).1
  | .run _, h => h.1
  | .reset, h => (congrArg Group.shape h).trans (restore_keeps g).1
  | .addGroup _ _ _, h => congrArg Group.shape h
  | .addMonitor _ _, h => congrArg Group.shape h

theorem initial_of_changes : ∀ {call : Call}, call.Changes n i g after → (∀ d, call ≠ .run d) → call ≠ .reset →
    after.initial = g.initial
  | .set _ name values, h, _, _ => (congrArg (·.initial) h).trans (keeps_of_set g name values _).2
  | .fill _ name _, h, _, _ => (congrArg (·.initial) h).trans (keeps_of_set g name _ _).2
  | .run d, _, hrun, _ => absurd rfl (hrun d)
  | .reset, _, _, hreset => absurd rfl hreset
  | .addGroup _ _ _, h, _, _ => congrArg (·.initial) h
  | .addMonitor _ _, h, _, _ => congrArg (·.initial) h

theorem watched_of_records {m after : Monitor} : ∀ {call : Call}, call.Records n m after →
    after.group = m.group ∧ after.variableName = m.variableName
  | .run _, h => h.1
  | .reset, h => ⟨congrArg (·.group) h, congrArg (·.variableName) h⟩
  | .set _ _ _, h => ⟨congrArg (·.group) h, congrArg (·.variableName) h⟩
  | .fill _ _ _, h => ⟨congrArg (·.group) h, congrArg (·.variableName) h⟩
  | .addGroup _ _ _, h => ⟨congrArg (·.group) h, congrArg (·.variableName) h⟩
  | .addMonitor _ _, h => ⟨congrArg (·.group) h, congrArg (·.variableName) h⟩

theorem clock_perform (n : Network) : ∀ {call : Call}, (∀ d, call ≠ .run d) → call ≠ .reset →
    (n.perform call).network.clock = n.clock
  | .set number _ _, _, _ => (edit_keeps n number _).1
  | .fill number _ _, _, _ => (edit_keeps n number _).1
  | .run d, hrun, _ => absurd rfl (hrun d)
  | .reset, _, hreset => absurd rfl hreset
  | .addGroup _ _ _, _, _ => rfl
  | .addMonitor number name, _, _ => by
    rcases perform_addMonitor_cases n number name with ⟨e, h, -⟩ | ⟨h, -⟩ <;> rw [h]

theorem clock_dt_perform (n : Network) (call : Call) : (n.perform call).network.clock.dt = n.clock.dt := by
  cases call with
  | run d =>
    rcases n.run_carries d with h | h
    · exact h.keeps.dt
    · exact h.dt
  | reset => rfl
  | set _ _ _ | fill _ _ _ | addGroup _ _ _ | addMonitor _ _ =>
    refine congrArg (·.dt) (clock_perform n ?_ ?_) <;> nofun

end Network

/-! ## What calls add -/

def Call.addsGroup : Call → Bool
  | .addGroup _ _ _ => true
  | _ => false

namespace Network

def addsMonitor (n : Network) : Call → Bool
  | .addMonitor number name => (n.addMonitor number name).1.isOk
  | _ => false

theorem run_lengths (n : Network) (d : Float) :
    (n.run d).network.groups.length = n.groups.length ∧ (n.run d).network.monitors.length = n.monitors.length :=
  ⟨by simpa using congrArg List.length (shapes_run n d), by simpa using congrArg List.length (watched_run n d)⟩

theorem groups_length_perform (n : Network) : ∀ call : Call,
    (n.perform call).network.groups.length = n.groups.length + if call.addsGroup then 1 else 0
  | .addGroup _ _ _ => List.length_append
  | .set number _ _ => (edit_keeps n number _).2.1
  | .fill number _ _ => (edit_keeps n number _).2.1
  | .addMonitor number name => by
    rcases perform_addMonitor_cases n number name with ⟨e, h, -⟩ | ⟨h, -⟩ <;> rw [h] <;> rfl
  | .run d => (run_lengths n d).1
  | .reset => List.length_map _

theorem monitors_length_perform (n : Network) : ∀ call : Call,
    (n.perform call).network.monitors.length = n.monitors.length + if n.addsMonitor call then 1 else 0
  | .addGroup _ _ _ => rfl
  | .set number _ _ => congrArg List.length (edit_keeps n number _).2.2
  | .fill number _ _ => congrArg List.length (edit_keeps n number _).2.2
  | .addMonitor number name => by
    rcases perform_addMonitor_cases n number name with ⟨e, h, hadd⟩ | ⟨h, hadd⟩ <;> rw [h, addsMonitor, hadd]
    · rfl
    · exact List.length_append
  | .run d => (run_lengths n d).2
  | .reset => List.length_map _

theorem groups_perform_cases {n : Network} (hn : n.Sound) {call : Call} {i : Nat} {after : Group}
    (h : (n.perform call).network.groups[i]? = some after) : (∃ g, n.groups[i]? = some g ∧ call.Changes n i g after) ∨
      ∃ name len code, call = .addGroup name len code ∧ after = .start name len code.code := by
  cases hg : n.groups[i]? with
  | some g =>
    obtain ⟨after', hafter', hchanges⟩ := changes_of_perform hn hg call
    obtain rfl := Option.some.inj (h.symm.trans hafter')
    exact .inl ⟨g, rfl, hchanges⟩
  | none =>
    -- there was no group in this place, so the call made the list longer
    have hlength := groups_length_perform n call
    have hbefore : n.groups.length ≤ i := List.getElem?_eq_none_iff.1 hg
    obtain ⟨hafter, -⟩ := List.getElem?_eq_some_iff.1 h
    cases call with
    | addGroup name len code =>
      obtain rfl : i = n.groups.length := by
        simp only [Call.addsGroup, if_true] at hlength
        omega
      have hadded : (n.perform (.addGroup name len code)).network.groups[n.groups.length]? =
          some (.start name len code.code) := List.getElem?_concat_length
      exact .inr ⟨name, len, code, rfl, Option.some.inj (h.symm.trans hadded)⟩
    | set _ _ _ | fill _ _ _ | addMonitor _ _ | run _ | reset =>
      simp only [Call.addsGroup, Bool.false_eq_true, if_false] at hlength
      omega

end Network

/-! ## Code that does not fail -/

/-- A call that adds no code that fails at its work. -/
def Call.Unfailing : Call → Prop
  | .addGroup _ _ code => code.code.Unfailing
  | _ => True

namespace Network

/-- **Code fails at its work only if it was added so.** -/
theorem unfailing_after : ∀ {calls : List Call} {n : Network}, Reachable n → n.Unfailing →
    (∀ call ∈ calls, call.Unfailing) → (n.after calls).Unfailing
  | [], _, _, h, _ => h
  | call :: calls, n, hn, h, hcalls => by
    obtain ⟨hcall, hcalls⟩ := List.forall_mem_cons.1 hcalls
    rw [Network.after]
    refine unfailing_after (reachable_perform hn call) (fun after hafter => ?_) hcalls
    obtain ⟨i, hi⟩ := List.mem_iff_getElem?.1 hafter
    rcases groups_perform_cases (sound_of_reachable hn) hi with ⟨g, hg, hchanges⟩ | ⟨name, len, code, rfl, rfl⟩
    · exact (h g (List.mem_of_getElem? hg)).of_meaning (Group.meaning_of_shape (shape_of_changes hchanges))
    · exact hcall

def compiledCounting : Compiled := ⟨countingCode, counting, .empty, .empty, rfl⟩

end Network
end FixedStep
