import FixedStep.Proofs.Network
/-!
# Run — a run is so many ticks of groups on their own

After `k` ticks a group holds what its own code made of its own state, `k` times over (`Group.stateAfter`), and a monitor
has one row more for every tick (`Ticked`).  For faithful code that is what the equations make of it
(`stateAfter_of_faithful`).  A run that succeeds may be cut wherever the step counts add up (`run_run`); once groups are
prepared only a program that fails at its work can stop one (`failure_ticks`).
-/
namespace FixedStep

namespace Group

/-- **A group on its own**: its state after `k` ticks of a clock, from nothing but the group, the clock and the answers to
its snapshots. -/
def iterate (g : Group) (answer : Snapshot → Except ExecError (NameMap Column)) (c : Clock) :
    Nat → Except ExecError (NameMap Column)
  | 0 => .ok g.state
  | k + 1 => do
    let state ← g.iterate answer c k
    g.advance answer (Clock.t ⟨c.dt, c.step + k⟩) c.dt state

/-- The state that the group's own code gets to. -/
def stateAfter (g : Group) (c : Clock) : Nat → Except ExecError (NameMap Column) := g.iterate g.code.outcome c

/-- **Faithful code gets to where the equations get to.** -/
theorem stateAfter_of_faithful {g : Group} (h : g.code.Faithful) : g.stateAfter = g.iterate g.code.resolved.execute := by
  have hsame : g.code.outcome = g.code.resolved.execute := funext h
  funext c k
  rw [stateAfter, hsame]

end Group

namespace Network

/-- Every group's code is ready. -/
def Ready (n : Network) : Prop := ∀ g ∈ n.groups, g.code.Ready

/-- No group's code fails at its work. -/
def Unfailing (n : Network) : Prop := ∀ g ∈ n.groups, g.code.Unfailing

theorem Unfailing.of_shape {n after : Network} (hn : n.Unfailing)
    (h : after.groups.map Group.shape = n.groups.map Group.shape) : after.Unfailing := by
  intro g hg
  obtain ⟨i, hi⟩ := List.mem_iff_getElem?.1 hg
  obtain ⟨g', hg', hsame⟩ := getElem?_of_map_eq h.symm hi
  exact (hn g' (List.mem_of_getElem? hg')).of_meaning (Group.meaning_of_shape hsame.symm)

/-! ## One tick -/

/-- A group after a step. -/
def steppedAt (t dt : Float) (g : Group) : Group := (g.step t dt).2

theorem steppedAt_of_outcome {g : Group} (hready : g.code.Ready) {t dt : Float} {outputs : NameMap Column}
    (h : g.code.outcome (g.snapshot t dt) = .ok outputs) :
    steppedAt t dt g = ⟨g.name, g.len, g.code, g.state.insertAll outputs.entries, g.initial⟩ := by
  rw [steppedAt, Group.step_of_ready hready, h]

theorem steppedAt_code {g : Group} (hready : g.code.Ready) (t dt : Float) : (g.step t dt).2.code = g.code := by
  rw [Group.step_of_ready hready]
  cases g.code.outcome (g.snapshot t dt) <;> rfl

theorem ready_stepGroups (t dt : Float) : ∀ {gs : List Group}, (∀ g ∈ gs, g.code.Ready) →
    ∀ g ∈ (stepGroups t dt gs).1, g.code.Ready
  | [], _ => nofun
  | g :: gs, hready => by
    obtain ⟨hg, hgs⟩ := List.forall_mem_cons.1 hready
    have hcode := steppedAt_code hg t dt
    rw [stepGroups]
    split <;> rename_i heq <;> rw [heq] at hcode
    · exact List.forall_mem_cons.2 ⟨hcode ▸ hg, hgs⟩
    · exact List.forall_mem_cons.2 ⟨hcode ▸ hg, ready_stepGroups t dt hgs⟩

/-- Groups that step without fail step each on its own. -/
theorem stepGroups_of_ok (t dt : Float) : ∀ {gs : List Group}, (∀ g ∈ gs, g.code.Ready) →
    (stepGroups t dt gs).2.2 = none → (stepGroups t dt gs).1 = gs.map (steppedAt t dt) ∧
      ∀ g ∈ gs, ∃ outputs, g.code.outcome (g.snapshot t dt) = .ok outputs
  | [], _, _ => ⟨rfl, nofun⟩
  | g :: gs, hready, hok => by
    obtain ⟨hg, hgs⟩ := List.forall_mem_cons.1 hready
    have hstep := Group.step_of_ready hg t dt
    rw [stepGroups, hstep] at hok ⊢
    cases houtcome : g.code.outcome (g.snapshot t dt) with
    | error e =>
      rw [houtcome] at hok
      cases hok
    | ok outputs =>
      rw [houtcome] at hok
      obtain ⟨hrest, houtcomes⟩ := stepGroups_of_ok t dt hgs hok
      rw [List.map_cons, steppedAt_of_outcome hg houtcome, ← hrest]
      exact ⟨rfl, List.forall_mem_cons.2 ⟨⟨outputs, houtcome⟩, houtcomes⟩⟩

theorem failure_stepGroups (t dt : Float) : ∀ {gs : List Group}, (∀ g ∈ gs, g.Sound) → (∀ g ∈ gs, g.code.Ready) →
    (∀ g ∈ gs, g.code.Unfailing) → (stepGroups t dt gs).2.2 = none
  | [], _, _, _ => rfl
  | g :: gs, hsound, hready, hcode => by
    obtain ⟨hg, hgs⟩ := List.forall_mem_cons.1 hsound
    obtain ⟨hgready, hgsready⟩ := List.forall_mem_cons.1 hready
    obtain ⟨hgcode, hgscode⟩ := List.forall_mem_cons.1 hcode
    obtain ⟨outputs, houtcome⟩ := Group.exists_outcome hg hgcode t dt
    rw [stepGroups, Group.step_of_ready hgready, houtcome]
    exact failure_stepGroups t dt hgs hgsready hgscode

theorem failure_tick {n : Network} (hn : n.Sound) (hready : n.Ready) (hcode : n.Unfailing) : n.tick.failure = none := by
  have hfailure := failure_stepGroups n.clock.t n.clock.dt hn.groups hready hcode
  rw [tick]
  simp only [hfailure]

theorem tick_shape (n : Network) : n.tick.network.groups.map Group.shape = n.groups.map Group.shape := by
  have hshape := stepGroups_shape n.clock.t n.clock.dt n.groups
  unfold tick
  simp only
  split <;> exact hshape

theorem ready_tick {n : Network} (hready : n.Ready) : n.tick.network.Ready := by
  have hafter := ready_stepGroups n.clock.t n.clock.dt hready
  unfold tick
  simp only
  split <;> exact hafter

/-- **A tick that does not fail**: every group steps, every monitor records, and the clock moves on. -/
theorem tick_of_ok {n : Network} (hready : n.Ready) (hok : n.tick.failure = none) :
    n.tick.network =
        ⟨n.clock.tick, n.identifiers, n.groups.map (steppedAt n.clock.t n.clock.dt),
          n.monitors.map (recordFrom (n.groups.map (steppedAt n.clock.t n.clock.dt)) n.clock.t)⟩ ∧
      ∀ g ∈ n.groups, ∃ outputs, g.code.outcome (g.snapshot n.clock.t n.clock.dt) = .ok outputs := by
  have hfailure : (stepGroups n.clock.t n.clock.dt n.groups).2.2 = none := by
    unfold tick at hok
    simp only at hok
    split at hok
    · cases hok
    · assumption
  obtain ⟨hgroups, houtcomes⟩ := stepGroups_of_ok n.clock.t n.clock.dt hready hfailure
  rw [tick, ← hgroups]
  simp only [hfailure, true_and]
  exact houtcomes

/-! ## What ticks leave -/

/-- What a monitor gets in one tick. -/
structure Row where
  time : Float
  values : Column

/-- A monitor of a group's variable after `k` ticks: the rows it had, and one for every tick with the variable's values
right after it. -/
structure Gained (g : Group) (c : Clock) (k : Nat) (m after : Monitor) (rows : List Row) : Prop where
  watches : after.group = m.group ∧ after.variableName = m.variableName
  times : after.times.toList = m.times.toList ++ rows.map (·.time)
  kept : after.rows.toList = m.rows.toList ++ rows.map (·.values)
  count : rows.length = k
  recorded : ∀ j < k, ∃ state values, g.stateAfter c (j + 1) = .ok state ∧
    state.find? m.variableName = some values ∧ values.length = g.len ∧
    rows[j]? = some ⟨Clock.t ⟨c.dt, c.step + j⟩, values⟩

/-- **What `k` ticks leave**: the clock is `k` steps on, every group is where it gets on its own, and every monitor has
gained `k` rows. -/
structure Ticked (k : Nat) (n after : Network) : Prop where
  clock : after.clock = ⟨n.clock.dt, n.clock.step + k⟩
  groupCount : after.groups.length = n.groups.length
  groups : ∀ (i : Nat) (g : Group), n.groups[i]? = some g → ∃ g', after.groups[i]? = some g' ∧ g'.shape = g.shape ∧
    g.stateAfter n.clock k = .ok g'.state
  monitorCount : after.monitors.length = n.monitors.length
  monitors : ∀ (i : Nat) (m : Monitor), n.monitors[i]? = some m → ∃ g m' rows, n.groups[m.group]? = some g ∧
    after.monitors[i]? = some m' ∧ Gained g n.clock k m m' rows

theorem advance_congr {g g' : Group} (h : g'.shape = g.shape) : g'.advance = g.advance := by
  have hlen : g'.len = g.len := congrArg (·.2.1) h
  funext answer t dt state
  rw [Group.advance, Group.advance, hlen]

/-- Going on from where a group got to is going on from the start. -/
theorem stateAfter_add {g g' : Group} {c : Clock} {a : Nat} (hshape : g'.shape = g.shape)
    (h : g.stateAfter c a = .ok g'.state) : ∀ b, g.stateAfter c (a + b) = g'.stateAfter ⟨c.dt, c.step + a⟩ b
  | 0 => h
  | b + 1 => by
    have hrest := stateAfter_add hshape h b
    rw [Group.stateAfter, Group.stateAfter, Group.outcome_of_shape hshape] at hrest ⊢
    rw [← Nat.add_assoc, Group.iterate, Group.iterate, hrest, advance_congr hshape, Nat.add_assoc]

/-- Nothing is gained while clock, states and monitors stay what they are. -/
theorem ticked_zero {n after : Network} (hn : n.Sound) (hclock : after.clock = n.clock)
    (hgroups : after.groups.map (fun g => (g.shape, g.state)) = n.groups.map fun g => (g.shape, g.state))
    (hmonitors : after.monitors = n.monitors) : Ticked 0 n after := by
  refine ⟨hclock, by simpa using congrArg List.length hgroups, fun i g hg => ?_, by rw [hmonitors], fun i m hm => ?_⟩
  · obtain ⟨g', hg', hsame⟩ := getElem?_of_map_eq hgroups hg
    obtain ⟨hshape, hstate⟩ := Prod.mk.inj hsame
    exact ⟨g', hg', hshape, congrArg _ hstate.symm⟩
  · obtain ⟨g, hg, -⟩ := hn.monitors m (List.mem_of_getElem? hm)
    refine ⟨g, m, [], hg, hmonitors ▸ hm, ⟨rfl, rfl⟩, (List.append_nil _).symm, (List.append_nil _).symm, rfl,
      fun j hj => ?_⟩
    exact absurd hj (Nat.not_lt_zero j)

/-- **Ticks add up.** -/
theorem Ticked.trans {a b : Nat} {n n' after : Network} (h : Ticked a n n') (h' : Ticked b n' after) :
    Ticked (a + b) n after := by
  have hclock : n'.clock = ⟨n.clock.dt, n.clock.step + a⟩ := h.clock
  refine ⟨?_, h'.groupCount.trans h.groupCount, fun i g hg => ?_, h'.monitorCount.trans h.monitorCount, fun i m hm => ?_⟩
  · rw [h'.clock, hclock, Nat.add_assoc]
  · obtain ⟨g₁, hg₁, hshape₁, hstate₁⟩ := h.groups i g hg
    obtain ⟨g₂, hg₂, hshape₂, hstate₂⟩ := h'.groups i g₁ hg₁
    refine ⟨g₂, hg₂, hshape₂.trans hshape₁, ?_⟩
    rw [stateAfter_add hshape₁ hstate₁, ← hclock, hstate₂]
  · obtain ⟨g, m₁, rows₁, hg, hm₁, h₁⟩ := h.monitors i m hm
    obtain ⟨g₁, m₂, rows₂, hg₁, hm₂, h₂⟩ := h'.monitors i m₁ hm₁
    obtain ⟨g₁', hg₁', hshape, hstate⟩ := h.groups m.group g hg
    rw [h₁.watches.1, hg₁'] at hg₁
    obtain rfl := Option.some.inj hg₁
    have hlen : g₁'.len = g.len := congrArg (·.2.1) hshape
    refine ⟨g, m₂, rows₁ ++ rows₂, hg, hm₂, ⟨h₂.watches.1.trans h₁.watches.1, h₂.watches.2.trans h₁.watches.2⟩, ?_, ?_,
      ?_, fun j hj => ?_⟩
    · rw [h₂.times, h₁.times, List.map_append, List.append_assoc]
    · rw [h₂.kept, h₁.kept, List.map_append, List.append_assoc]
    · rw [List.length_append, h₁.count, h₂.count]
    -- row `j` is one of the first part's, or row `j - a` of the second's
    · by_cases hja : j < a
      · obtain ⟨state, values, hafter, hfound, hvalues, hrow⟩ := h₁.recorded j hja
        refine ⟨state, values, hafter, hfound, hvalues, ?_⟩
        rw [List.getElem?_append_left (by rw [h₁.count]; exact hja), hrow]
      · obtain ⟨j', rfl⟩ := Nat.exists_eq_add_of_le (Nat.le_of_not_lt hja)
        obtain ⟨state, values, hafter, hfound, hvalues, hrow⟩ := h₂.recorded j' (by omega)
        refine ⟨state, values, ?_, h₁.watches.2 ▸ hfound, hvalues.trans hlen, ?_⟩
        · rw [Nat.add_assoc, stateAfter_add hshape hstate, ← hclock, hafter]
        · rw [List.getElem?_append_right (by rw [h₁.count]; omega), h₁.count, Nat.add_sub_cancel_left, hrow, hclock,
            Nat.add_assoc]

/-- **A tick that does not fail is one tick** of every group on its own. -/
theorem ticked_tick {n : Network} (hn : n.Sound) (hready : n.Ready) (hok : n.tick.failure = none) :
    Ticked 1 n n.tick.network := by
  obtain ⟨hafter, houtcomes⟩ := tick_of_ok hready hok
  have hgroups : ∀ (i : Nat) (g : Group), n.groups[i]? = some g → ∃ state,
      (n.groups.map (steppedAt n.clock.t n.clock.dt))[i]? = some ⟨g.name, g.len, g.code, state, g.initial⟩ ∧
      g.stateAfter n.clock 1 = .ok state ∧ g.code.resolved.scope.Holds g.len state := by
    intro i g hg
    have hmem := List.mem_of_getElem? hg
    obtain ⟨outputs, houtputs⟩ := houtcomes g hmem
    have hstep := steppedAt_of_outcome (hready g hmem) houtputs
    have hafter : g.stateAfter n.clock 1 = .ok (g.state.insertAll outputs.entries) :=
      bind_eq_ok.2 ⟨g.state, rfl, bind_eq_ok.2 ⟨outputs, houtputs, rfl⟩⟩
    refine ⟨_, by rw [List.getElem?_map, hg, Option.map_some, hstep], hafter, ?_⟩
    exact CodeObject.holds_outcome (hn.groups g hmem).wellScoped houtputs (hn.groups g hmem).holds
  -- monitors record after the groups have stepped, at the time the tick began
  rw [hafter]
  refine ⟨rfl, List.length_map _, fun i g hg => ?_, List.length_map _, fun i m hm => ?_⟩
  · obtain ⟨state, hg', hstate, -⟩ := hgroups i g hg
    exact ⟨_, hg', rfl, hstate⟩
  · obtain ⟨g, hg, hname⟩ := hn.monitors m (List.mem_of_getElem? hm)
    obtain ⟨state, hg', hstate, hholds⟩ := hgroups m.group g hg
    obtain ⟨values, hvalues⟩ := Option.isSome_iff_exists.1 ((hholds.names m.variableName).2 hname)
    have hrecord : recordFrom (n.groups.map (steppedAt n.clock.t n.clock.dt)) n.clock.t m =
        m.record n.clock.t values := by
      rw [recordFrom, hg', Option.bind_some, Group.get?, hvalues]
    refine ⟨g, m.record n.clock.t values, [⟨n.clock.t, values⟩], hg, ?_, ⟨rfl, rfl⟩, Array.toList_push,
      Array.toList_push, rfl, fun j hj => ?_⟩
    · rw [List.getElem?_map, hm, Option.map_some, hrecord]
    · obtain rfl : j = 0 := by omega
      exact ⟨state, values, hstate, hvalues, hholds.lengths _ _ hvalues, rfl⟩

/-! ## Ticks -/

theorem ticks_of_failure {k : Nat} {p : Progress} {e : NetworkError} (h : p.failure = some e) : ticks k p = p := by
  cases k with
  | zero => rfl
  | succ k => rw [ticks, h]

/-- Ticks that do not fail go on from the first. -/
theorem ticks_succ_of_ok {n : Network} {k : Nat} {diagnostics : Array Diagnostic}
    (hok : (ticks (k + 1) ⟨n, diagnostics, none⟩).failure = none) : n.tick.failure = none ∧
      ticks (k + 1) ⟨n, diagnostics, none⟩ = ticks k ⟨n.tick.network, diagnostics ++ n.tick.diagnostics, none⟩ := by
  rw [ticks] at hok ⊢
  simp only at hok ⊢
  cases hfailure : n.tick.failure with
  | none => exact ⟨rfl, rfl⟩
  | some e =>
    rw [hfailure, ticks_of_failure rfl] at hok
    cases hok

theorem ready_ticks : ∀ (k : Nat) {p : Progress}, p.network.Ready → (ticks k p).network.Ready
  | 0, _, h => h
  | k + 1, p, h => by
    rw [ticks]
    split
    · exact h
    · exact ready_ticks k (ready_tick h)

/-- **Only code that fails at its work stops ticks** of a network that is ready. -/
theorem failure_ticks : ∀ (k : Nat) {n : Network} (diagnostics : Array Diagnostic), n.Sound → n.Ready → n.Unfailing →
    (ticks k ⟨n, diagnostics, none⟩).failure = none
  | 0, _, _, _, _, _ => rfl
  | k + 1, n, diagnostics, hn, hready, hcode => by
    rw [ticks]
    simp only [failure_tick hn hready hcode]
    exact failure_ticks k _ (sound_tick hn) (ready_tick hready) (hcode.of_shape n.tick_shape)

/-- **So many ticks** that do not fail. -/
theorem ticked_ticks : ∀ (k : Nat) {n : Network} (diagnostics : Array Diagnostic), n.Sound → n.Ready →
    (ticks k ⟨n, diagnostics, none⟩).failure = none → Ticked k n (ticks k ⟨n, diagnostics, none⟩).network
  | 0, n, diagnostics, hn, _, _ => ticked_zero hn rfl rfl rfl
  | k + 1, n, diagnostics, hn, hready, hok => by
    obtain ⟨hfirst, hticks⟩ := ticks_succ_of_ok hok
    rw [hticks] at hok ⊢
    have hrest := ticked_ticks k _ (sound_tick hn) (ready_tick hready) hok
    rw [Nat.add_comm]
    exact (ticked_tick hn hready hfirst).trans hrest

theorem ticks_add (b : Nat) : ∀ (a : Nat) (p : Progress), ticks (a + b) p = ticks b (ticks a p)
  | 0, p => by rw [Nat.zero_add, ticks]
  | a + 1, p => by
    rw [Nat.add_right_comm, ticks, ticks]
    cases hfailure : p.failure with
    | none => exact ticks_add b a _
    | some e =>
      cases b with
      | zero => rfl
      | succ b => rw [ticks, hfailure]

/-- What was reported before does not change what ticks do. -/
theorem ticks_congr : ∀ (k : Nat) (n : Network) (diagnostics diagnostics' : Array Diagnostic)
    (failure : Option NetworkError),
    (ticks k ⟨n, diagnostics, failure⟩).network = (ticks k ⟨n, diagnostics', failure⟩).network ∧
      (ticks k ⟨n, diagnostics, failure⟩).failure = (ticks k ⟨n, diagnostics', failure⟩).failure
  | 0, _, _, _, _ => ⟨rfl, rfl⟩
  | k + 1, n, diagnostics, diagnostics', failure => by
    rw [ticks, ticks]
    cases failure with
    | none => exact ticks_congr k _ _ _ _
    | some e => exact ⟨rfl, rfl⟩

/-! ## Runs -/

/-- Preparing changes nothing but code. -/
theorem prepareGroups_keeps : ∀ gs : List Group, (prepareGroups gs).1.map (fun g => (g.shape, g.state, g.initial)) =
    gs.map fun g => (g.shape, g.state, g.initial)
  | [] => rfl
  | g :: gs => by
    have hshape := Group.shape_withCode g.code.prepare_meaning
    rw [prepareGroups]
    split
    · rename_i e after heq
      obtain rfl : g.withCode g.code.prepare.2 = after := congrArg Prod.snd heq
      rw [List.map_cons, List.map_cons, hshape]
      rfl
    · rename_i after heq
      obtain rfl : g.withCode g.code.prepare.2 = after := congrArg Prod.snd heq
      rw [List.map_cons, List.map_cons, hshape, prepareGroups_keeps gs]
      rfl

theorem prepareGroups_state (gs : List Group) :
    (prepareGroups gs).1.map (fun g => (g.shape, g.state)) = gs.map fun g => (g.shape, g.state) := by
  have h := congrArg (List.map fun x => (x.1, x.2.1)) (prepareGroups_keeps gs)
  rwa [List.map_map, List.map_map] at h

theorem ready_of_prepareGroups : ∀ {gs : List Group}, (prepareGroups gs).2 = none →
    ∀ g ∈ (prepareGroups gs).1, g.code.Ready
  | [], _ => nofun
  | g :: gs, h => by
    rw [prepareGroups] at h ⊢
    split at h
    · cases h
    · rename_i after heq
      refine List.forall_mem_cons.2 ⟨?_, ready_of_prepareGroups h⟩
      obtain rfl : g.withCode g.code.prepare.2 = after := congrArg Prod.snd heq
      refine CodeObject.ready_of_prepare ?_
      have hresult : (g.code.prepare.1).mapError (NetworkError.execution g.name) = .ok () := congrArg Prod.fst heq
      cases hprepare : g.code.prepare.1 with
      | ok _ => rfl
      | error e =>
        rw [hprepare] at hresult
        cases hresult

theorem prepareGroups_of_ready : ∀ {gs : List Group}, (∀ g ∈ gs, g.code.Ready) → prepareGroups gs = (gs, none)
  | [], _ => rfl
  | g :: gs, h => by
    obtain ⟨hg, hgs⟩ := List.forall_mem_cons.1 h
    have hprepare : g.prepare = (.ok (), g) := by
      rw [Group.prepare, CodeObject.prepare_of_ready hg]
      rfl
    rw [prepareGroups, hprepare, prepareGroups_of_ready hgs]

theorem prepareGroups_capture : ∀ gs : List Group,
    prepareGroups (gs.map Group.capture) = ((prepareGroups gs).1.map Group.capture, (prepareGroups gs).2)
  | [] => rfl
  | g :: gs => by
    have hprepare : g.capture.prepare = (g.prepare.1, g.prepare.2.capture) := rfl
    rw [List.map_cons, prepareGroups, prepareGroups, hprepare, prepareGroups_capture gs]
    cases hresult : g.prepare.1 <;> rw [show g.prepare = (g.prepare.1, g.prepare.2) from rfl, hresult] <;> rfl

/-- The network as the first of `k` ticks finds it. -/
def begun (n : Network) (k : Nat) : Network :=
  captureAtStart ⟨n.clock, n.identifiers, if 0 < k then (prepareGroups n.groups).1 else n.groups, n.monitors⟩

/-- **A run is its ticks** from where it begins, once the groups are prepared. -/
theorem run_eq_ticks {n : Network} {duration : Float} {k : Nat} (hk : n.clock.stepsFor duration = .ok k)
    (hprepared : 0 < k → (prepareGroups n.groups).2 = none) : n.run duration = ticks k ⟨n.begun k, #[], none⟩ := by
  unfold run begun
  rw [hk]
  by_cases hpos : 0 < k
  · simp only [if_pos hpos, hprepared hpos]
  · simp only [if_neg hpos]

theorem prepared_of_run {n : Network} {duration : Float} {k : Nat} (hk : n.clock.stepsFor duration = .ok k)
    (hrun : (n.run duration).failure = none) (hpos : 0 < k) : (prepareGroups n.groups).2 = none := by
  unfold run at hrun
  simp only [hk, if_pos hpos] at hrun
  cases hfailure : (prepareGroups n.groups).2 with
  | none => rfl
  | some e =>
    rw [hfailure] at hrun
    cases hrun

theorem sound_begun {n : Network} (hn : n.Sound) (k : Nat) : (n.begun k).Sound := by
  unfold begun
  split
  · exact sound_captureAtStart (sound_prepared hn)
  · exact sound_captureAtStart hn

theorem captureAtStart_ready {n : Network} (h : n.Ready) : n.captureAtStart.Ready := by
  unfold captureAtStart
  split
  · intro g hg
    obtain ⟨g', hg', rfl⟩ := List.mem_map.1 hg
    exact h g' hg'
  · exact h

theorem ready_begun {n : Network} {k : Nat} (hpos : 0 < k) (h : (prepareGroups n.groups).2 = none) :
    (n.begun k).Ready := by
  rw [begun, if_pos hpos]
  exact captureAtStart_ready (ready_of_prepareGroups h)

theorem captureAtStart_keeps (n : Network) : n.captureAtStart.clock = n.clock ∧
    n.captureAtStart.identifiers = n.identifiers ∧ n.captureAtStart.monitors = n.monitors ∧
      n.captureAtStart.groups.map (fun g => (g.shape, g.state)) = n.groups.map fun g => (g.shape, g.state) := by
  unfold captureAtStart
  split
  · refine ⟨rfl, rfl, rfl, ?_⟩
    rw [List.map_map]
    rfl
  · exact ⟨rfl, rfl, rfl, rfl⟩

theorem begun_keeps (n : Network) (k : Nat) : (n.begun k).clock = n.clock ∧ (n.begun k).identifiers = n.identifiers ∧
    (n.begun k).monitors = n.monitors ∧
      (n.begun k).groups.map (fun g => (g.shape, g.state)) = n.groups.map fun g => (g.shape, g.state) := by
  obtain ⟨hclock, hidentifiers, hmonitors, hgroups⟩ := captureAtStart_keeps
    ⟨n.clock, n.identifiers, if 0 < k then (prepareGroups n.groups).1 else n.groups, n.monitors⟩
  refine ⟨hclock, hidentifiers, hmonitors, hgroups.trans ?_⟩
  split
  · exact prepareGroups_state n.groups
  · rfl

theorem begun_shape (n : Network) (k : Nat) : (n.begun k).groups.map Group.shape = n.groups.map Group.shape := by
  have h := congrArg (List.map Prod.fst) (begun_keeps n k).2.2.2
  rwa [List.map_map, List.map_map] at h

theorem ticked_begun {n : Network} (hn : n.Sound) (k : Nat) : Ticked 0 n (n.begun k) := by
  obtain ⟨hclock, -, hmonitors, hgroups⟩ := begun_keeps n k
  exact ticked_zero hn hclock hgroups hmonitors

/-- **A run that does not fail is its number of ticks.** -/
theorem ticked_run {n : Network} (hn : n.Sound) {duration : Float} {k : Nat}
    (hk : n.clock.stepsFor duration = .ok k) (hrun : (n.run duration).failure = none) :
    Ticked k n (n.run duration).network := by
  have hprepared := prepared_of_run hk hrun
  rw [run_eq_ticks hk hprepared] at hrun ⊢
  cases k with
  | zero => exact ticked_begun hn 0
  | succ k =>
    have hpos := Nat.succ_pos k
    have hticked := ticked_ticks (k + 1) #[] (sound_begun hn (k + 1)) (ready_begun hpos (hprepared hpos)) hrun
    have hboth := (ticked_begun hn (k + 1)).trans hticked
    rwa [Nat.zero_add] at hboth

/-- **Once its groups are prepared, a run does not fail**, unless code fails at its work. -/
theorem failure_of_prepared {n : Network} (hn : n.Sound) (hcode : n.Unfailing) {duration : Float} {k : Nat}
    (hk : n.clock.stepsFor duration = .ok k) (hprepared : 0 < k → (prepareGroups n.groups).2 = none) :
    (n.run duration).failure = none := by
  rw [run_eq_ticks hk hprepared]
  cases k with
  | zero => rfl
  | succ k =>
    have hpos := Nat.succ_pos k
    exact failure_ticks (k + 1) #[] (sound_begun hn _) (ready_begun hpos (hprepared hpos))
      (hcode.of_shape (begun_shape n _))

theorem begun_of_ready {n : Network} (hready : n.Ready) (hstep : 0 < n.clock.step) (k : Nat) : n.begun k = n := by
  rw [begun, prepareGroups_of_ready hready, ite_self, captureAtStart, if_neg (Nat.ne_of_gt hstep)]

theorem begun_captureAtStart (n : Network) (k : Nat) : n.captureAtStart.begun k = n.begun k := by
  by_cases hstep : n.clock.step = 0
  · have hcapture : n.captureAtStart = ⟨n.clock, n.identifiers, n.groups.map Group.capture, n.monitors⟩ := if_pos hstep
    rw [hcapture, begun, begun, prepareGroups_capture, captureAtStart, captureAtStart, if_pos hstep, if_pos hstep]
    split <;> rw [List.map_map] <;> rfl
  · rw [show n.captureAtStart = n from if_neg hstep]

/-- **A run may be cut** where step counts add up: the two parts succeed, and leave the same network. -/
theorem run_run {n : Network} (hn : n.Sound) {d d₁ d₂ : Float} {k₁ k₂ : Nat} (h₁ : n.clock.stepsFor d₁ = .ok k₁)
    (h₂ : n.clock.stepsFor d₂ = .ok k₂) (hd : n.clock.stepsFor d = .ok (k₁ + k₂)) (hrun : (n.run d).failure = none) :
    (n.run d₁).failure = none ∧ ((n.run d₁).network.run d₂).failure = none ∧
      ((n.run d₁).network.run d₂).network = (n.run d).network := by
  have hprepared : 0 < k₁ + k₂ → (prepareGroups n.groups).2 = none := prepared_of_run hd hrun
  have hwhole := run_eq_ticks hd hprepared
  cases k₁ with
  | zero =>
    -- the first part does no more than keep the states at step zero, and the second keeps the same ones
    have hfirst : n.run d₁ = ⟨n.captureAtStart, #[], none⟩ :=
      run_eq_ticks h₁ fun hpos => absurd hpos (Nat.lt_irrefl 0)
    have hsteps : n.captureAtStart.clock.stepsFor d₂ = .ok k₂ := by rw [(captureAtStart_keeps n).1]; exact h₂
    have hsecond : 0 < k₂ → (prepareGroups n.captureAtStart.groups).2 = none := by
      intro hpos
      rw [captureAtStart]
      split
      · rw [prepareGroups_capture]
        exact hprepared (by omega)
      · exact hprepared (by omega)
    have hsame : n.captureAtStart.run d₂ = n.run d := by
      rw [run_eq_ticks hsteps hsecond, hwhole, begun_captureAtStart, Nat.zero_add]
    rw [hfirst]
    exact ⟨rfl, hsame ▸ hrun, congrArg _ hsame⟩
  | succ k₁ =>
    -- the whole goes on where the first part ends, so a first part that failed would have the whole fail
    have hpos := Nat.succ_pos k₁
    have hbegun : n.begun (k₁ + 1 + k₂) = n.begun (k₁ + 1) := by
      rw [begun, begun, if_pos hpos, if_pos (by omega)]
    have hpart := run_eq_ticks h₁ fun _ => hprepared (by omega)
    rw [hbegun, ticks_add, ← hpart] at hwhole
    have hfirst : (n.run d₁).failure = none := by
      cases hfailure : (n.run d₁).failure with
      | none => rfl
      | some e =>
        rw [hwhole, ticks_of_failure hfailure] at hrun
        exact hfailure.symm.trans hrun
    -- it leaves step zero with every group prepared, so the second begins with nothing to do
    have hclock : (n.run d₁).network.clock = ⟨n.clock.dt, n.clock.step + (k₁ + 1)⟩ := (ticked_run hn h₁ hfirst).clock
    have hready : (n.run d₁).network.Ready := by
      rw [hpart]
      exact ready_ticks (k₁ + 1) (ready_begun hpos (hprepared (by omega)))
    have hsteps : (n.run d₁).network.clock.stepsFor d₂ = .ok k₂ := by rw [hclock]; exact h₂
    have hstep : 0 < (n.run d₁).network.clock.step := by rw [hclock]; exact Nat.lt_of_lt_of_le hpos (Nat.le_add_left _ _)
    have hsecond : (n.run d₁).network.run d₂ = ticks k₂ ⟨(n.run d₁).network, #[], none⟩ := by
      rw [run_eq_ticks hsteps fun _ => by rw [prepareGroups_of_ready hready], begun_of_ready hready hstep]
    have hrest : n.run d = ticks k₂ ⟨(n.run d₁).network, (n.run d₁).diagnostics, none⟩ := by
      rw [hwhole, ← hfirst]
    obtain ⟨hnetwork, hfailure⟩ := ticks_congr k₂ (n.run d₁).network #[] (n.run d₁).diagnostics none
    rw [hsecond, hnetwork, hfailure, ← hrest]
    exact ⟨hfirst, hrun, rfl⟩

/-- What is read out of a monitor grows by the new rows, one value for every element and tick. -/
theorem Gained.flatten {g : Group} {c : Clock} {k : Nat} {m after : Monitor} {rows : List Row}
    (h : Gained g c k m after rows) : after.flatten = m.flatten ++ rows.flatMap (·.values) ∧
      after.flatten.length = m.flatten.length + k * g.len := by
  have hflatten : after.flatten = m.flatten ++ rows.flatMap (·.values) := by
    simp only [Monitor.flatten, h.kept, List.flatten_append, List.flatMap_def]
  have hlengths : rows.map (fun row => row.values.length) = List.replicate k g.len := by
    refine List.ext_getElem (by simp [h.count]) fun j hj hj' => ?_
    obtain ⟨state, values, -, -, hvalues, hrow⟩ := h.recorded j (by simpa using hj')
    rw [List.getElem_map, List.getElem_replicate, (List.getElem?_eq_some_iff.1 hrow).2, hvalues]
  refine ⟨hflatten, ?_⟩
  rw [hflatten, List.length_append, List.length_flatMap, hlengths, List.sum_replicate_nat]

/-- `v = v + 1 : 1` -/
def counting : EquationSet :=
  ⟨[⟨⟨"v", ⟨0, 1⟩⟩, some (.binary .add (.name "v" ⟨4, 5⟩) (.number 1.0 ⟨8, 9⟩) ⟨4, 9⟩), .number 1.0 ⟨12, 13⟩, ⟨0, 13⟩⟩],
    ⟨0, 13⟩⟩

/-- Its code. -/
def countingCode : CodeObject :=
  .interpreted ⟨⟨[⟨"v", .one, some 0⟩], .empty, .empty⟩, [⟨0, .binary .add (.state 0) (.const 1.0)⟩]⟩

/-- Two elements that count, and a monitor of them. -/
def countingNetwork : Network :=
  ⟨⟨0.5, 0⟩, ⟨1, 1⟩, [.start "counters" 2 countingCode], [.start 0 "v"]⟩

theorem reachable_counting : Reachable countingNetwork := by
  have hstart : Clock.start 0.5 = .ok ⟨0.5, 0⟩ := if_pos (by decide +kernel)
  have hresolve : resolve counting .empty .empty = .ok countingCode.resolved := rfl
  exact .addMonitor 0 "v" (.addGroup "counters" 2 (.start hstart) hresolve)

end Network
end FixedStep
