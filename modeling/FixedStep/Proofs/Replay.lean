import FixedStep.Proofs.History
/-!
# Replay — a reset makes runs repeatable

Two networks that agree in clock, states and rows run alike, whatever code is built and whatever states are kept
(`alike_run`).  From the first tick on, every group keeps the state it had at step zero (`Underway`), through runs and
through settings of columns; a reset turns that into agreement with the network before the first run.
-/
namespace FixedStep
namespace Network

/-- **The same clock, states and rows**; code may be built in one and not in the other. -/
structure Alike (n p : Network) : Prop where
  clock : p.clock = n.clock
  groups : p.groups.map (fun g => (g.shape, g.state)) = n.groups.map fun g => (g.shape, g.state)
  monitors : p.monitors = n.monitors

theorem Alike.trans {n p q : Network} (h : Alike n p) (h' : Alike p q) : Alike n q :=
  ⟨h'.clock.trans h.clock, h'.groups.trans h.groups, h'.monitors.trans h.monitors⟩

theorem Alike.symm {n p : Network} (h : Alike n p) : Alike p n :=
  ⟨h.clock.symm, h.groups.symm, h.monitors.symm⟩

/-! ## Ticks of networks that agree -/

theorem step_congr {g g' : Group} (hshape : g'.shape = g.shape) (hstate : g'.state = g.state) (hg : g.code.Ready)
    (hg' : g'.code.Ready) (t dt : Float) : (g'.step t dt).1 = (g.step t dt).1 ∧
      ((g'.step t dt).2.shape, (g'.step t dt).2.state) = ((g.step t dt).2.shape, (g.step t dt).2.state) := by
  have hname : g'.name = g.name := congrArg (·.1) hshape
  have hlen : g'.len = g.len := congrArg (·.2.1) hshape
  have hsnapshot : g'.snapshot t dt = g.snapshot t dt := by rw [Group.snapshot, Group.snapshot, hlen, hstate]
  rw [Group.step_of_ready hg, Group.step_of_ready hg', hsnapshot, Group.outcome_of_shape hshape]
  cases g.code.outcome (g.snapshot t dt) with
  | error e =>
    have hcause : NetworkError.execution g'.name e = .execution g.name e := by rw [hname]
    exact ⟨congrArg Except.error hcause, Prod.ext hshape hstate⟩
  | ok outputs =>
    have hcounts : g'.invalidCounts outputs = g.invalidCounts outputs := by
      rw [Group.invalidCounts, Group.invalidCounts, Group.resolved_of_shape hshape, hstate]
    exact ⟨congrArg Except.ok hcounts, Prod.ext hshape (congrArg (·.insertAll outputs.entries) hstate)⟩

theorem stepGroups_congr (t dt : Float) : ∀ {gs hs : List Group},
    hs.map (fun g => (g.shape, g.state)) = gs.map (fun g => (g.shape, g.state)) → (∀ g ∈ gs, g.code.Ready) →
      (∀ h ∈ hs, h.code.Ready) → (stepGroups t dt hs).2 = (stepGroups t dt gs).2 ∧
        (stepGroups t dt hs).1.map (fun g => (g.shape, g.state)) =
          (stepGroups t dt gs).1.map fun g => (g.shape, g.state)
  | [], [], _, _, _ => ⟨rfl, rfl⟩
  | g :: gs, h :: hs, hsame, hg, hh => by
    obtain ⟨hfirst, hsame⟩ := List.cons.inj hsame
    obtain ⟨hshape, hstate⟩ := Prod.mk.inj hfirst
    obtain ⟨hg, hgs⟩ := List.forall_mem_cons.1 hg
    obtain ⟨hh, hhs⟩ := List.forall_mem_cons.1 hh
    obtain ⟨hresult, hafter⟩ := step_congr hshape hstate hg hh t dt
    obtain ⟨hrest, hgroups⟩ := stepGroups_congr t dt hsame hgs hhs
    have hname : h.name = g.name := congrArg (·.1) hshape
    rw [stepGroups, stepGroups]
    cases hstep : g.step t dt with
    | mk result after =>
      cases hstep' : h.step t dt with
      | mk result' after' =>
        rw [hstep, hstep'] at hresult hafter
        obtain rfl : result' = result := hresult
        cases result' with
        | error e => exact ⟨rfl, List.cons_eq_cons.2 ⟨hafter, hsame⟩⟩
        | ok counts =>
          simp only [hrest, hname, true_and]
          exact List.cons_eq_cons.2 ⟨hafter, hgroups⟩

theorem recordFrom_congr {gs hs : List Group}
    (hsame : hs.map (fun g => (g.shape, g.state)) = gs.map fun g => (g.shape, g.state)) (t : Float) :
    recordFrom hs t = recordFrom gs t := by
  have hcolumn : ∀ (i : Nat) (name : String), hs[i]?.bind (·.get? name) = gs[i]?.bind (·.get? name) := by
    intro i name
    have h := congrArg (fun xs : List _ => xs[i]?.bind fun x => x.2.find? name) hsame
    simp only [List.getElem?_map, Option.bind_map] at h
    exact h
  funext m
  rw [recordFrom, recordFrom, hcolumn]

theorem alike_tick {n p : Network} (h : Alike n p) (hn : n.Ready) (hp : p.Ready) :
    Alike n.tick.network p.tick.network ∧ p.tick.diagnostics = n.tick.diagnostics ∧
      p.tick.failure = n.tick.failure := by
  obtain ⟨hreports, hgroups⟩ := stepGroups_congr n.clock.t n.clock.dt h.groups hn hp
  have hrecord := recordFrom_congr hgroups n.clock.t
  rw [tick, tick, h.clock]
  simp only [hreports]
  cases (stepGroups n.clock.t n.clock.dt n.groups).2.2 with
  | some e => exact ⟨⟨rfl, hgroups, h.monitors⟩, rfl, rfl⟩
  | none => exact ⟨⟨rfl, hgroups, by simp only [hrecord, h.monitors]⟩, rfl, rfl⟩

/-- **Networks that agree tick alike**, to the same failure if there is one. -/
theorem alike_ticks : ∀ (k : Nat) {n p : Network} (diagnostics : Array Diagnostic) (failure : Option NetworkError),
    Alike n p → n.Ready → p.Ready →
      Alike (ticks k ⟨n, diagnostics, failure⟩).network (ticks k ⟨p, diagnostics, failure⟩).network ∧
        (ticks k ⟨p, diagnostics, failure⟩).diagnostics = (ticks k ⟨n, diagnostics, failure⟩).diagnostics ∧
          (ticks k ⟨p, diagnostics, failure⟩).failure = (ticks k ⟨n, diagnostics, failure⟩).failure
  | 0, _, _, _, _, h, _, _ => ⟨h, rfl, rfl⟩
  | k + 1, n, p, diagnostics, failure, h, hn, hp => by
    cases failure with
    | some e => exact ⟨h, rfl, rfl⟩
    | none =>
      obtain ⟨halike, hdiagnostics, hfailure⟩ := alike_tick h hn hp
      rw [ticks, ticks]
      simp only [hdiagnostics, hfailure]
      exact alike_ticks k _ _ halike (ready_tick hn) (ready_tick hp)

/-! ## Runs of networks that agree -/

theorem alike_begun (n : Network) (k : Nat) : Alike n (n.begun k) := by
  obtain ⟨hclock, -, hmonitors, hgroups⟩ := begun_keeps n k
  exact ⟨hclock, hgroups, hmonitors⟩

theorem ready_begun_of_ready {n : Network} (hn : n.Ready) (k : Nat) : (n.begun k).Ready := by
  rw [begun, prepareGroups_of_ready hn, ite_self]
  exact captureAtStart_ready hn

/-- **Networks that agree run alike**, where the one runs and the other is ready. -/
theorem alike_run {n p : Network} (h : Alike n p) (hready : p.Ready) {d : Float} (hrun : (n.run d).failure = none) :
    (p.run d).failure = none ∧ Alike (n.run d).network (p.run d).network ∧
      (p.run d).diagnostics = (n.run d).diagnostics ∧ (p.run d).network.Ready := by
  rcases run_cases n d with ⟨e, he, -⟩ | ⟨k, hk, hprepared, heq⟩
  · cases he.symm.trans hrun
  have hk' : p.clock.stepsFor d = .ok k := by rw [h.clock]; exact hk
  have hbegun := ((alike_begun n k).symm.trans h).trans (alike_begun p k)
  have hpready := ready_begun_of_ready hready k
  rw [heq] at hrun
  rw [heq, run_eq_ticks hk' fun _ => by rw [prepareGroups_of_ready hready]]
  -- without ticks the code of `n` need not be ready, and nothing runs
  cases k with
  | zero => exact ⟨rfl, hbegun, rfl, hpready⟩
  | succ k =>
    have hnready := ready_begun (Nat.succ_pos k) (hprepared (Nat.succ_pos k))
    obtain ⟨halike, hdiagnostics, hfailure⟩ := alike_ticks (k + 1) #[] none hbegun hnready hpready
    exact ⟨hfailure.trans hrun, halike, hdiagnostics, ready_ticks (k + 1) hpready⟩

theorem answer_run_eq_ok {n : Network} {d : Float} :
    (∃ number, (n.perform (.run d)).answer = .ok number) ↔ (n.run d).failure = none := by
  rw [perform]
  cases (n.run d).failure with
  | none => exact ⟨fun _ => rfl, fun _ => ⟨none, rfl⟩⟩
  | some e =>
    constructor
    · rintro ⟨_, h⟩
      cases h
    · intro h
      cases h

theorem alike_runs : ∀ (ds : List Float) {n p : Network}, Alike n p → p.Ready → n.Succeeds (ds.map .run) →
    p.Succeeds (ds.map .run) ∧ Alike (n.after (ds.map .run)) (p.after (ds.map .run)) ∧
      p.reports (ds.map .run) = n.reports (ds.map .run)
  | [], _, _, h, _, _ => ⟨trivial, h, rfl⟩
  | d :: ds, n, p, h, hready, ⟨hd, hds⟩ => by
    obtain ⟨hfailure, halike, hdiagnostics, hready'⟩ := alike_run h hready (answer_run_eq_ok.1 hd)
    obtain ⟨hsucceeds, hafter, hreports⟩ := alike_runs ds halike hready' hds
    refine ⟨⟨answer_run_eq_ok.2 hfailure, hsucceeds⟩, hafter, ?_⟩
    have hfirst : (p.perform (.run d)).diagnostics = (n.perform (.run d)).diagnostics := hdiagnostics
    rw [List.map_cons, reports, reports, hfirst]
    exact congrArg _ hreports

/-! ## From step zero on -/

/-- Ticks that leave the clock at step zero, since the first failed if there was one, have recorded nothing. -/
theorem monitors_of_step_zero : ∀ (k : Nat) {p : Progress}, (ticks k p).network.clock.step = 0 →
    p.network.clock.step = 0 ∧ (ticks k p).network.monitors = p.network.monitors
  | 0, _, h => ⟨h, rfl⟩
  | k + 1, p, h => by
    rw [ticks] at h ⊢
    split at h
    · exact ⟨h, rfl⟩
    · obtain ⟨htick, hsame⟩ := monitors_of_step_zero k h
      simp only at htick hsame ⊢
      rw [hsame]
      unfold tick at htick ⊢
      simp only at htick ⊢
      split at htick
      · exact ⟨htick, rfl⟩
      · exact absurd htick (Nat.succ_ne_zero _)

theorem rows_of_step_zero {n : Network} (hn : Reachable n) (hstep : n.clock.step = 0) :
    ∀ m ∈ n.monitors, m.clear = m := by
  induction hn with
  | start _ => exact nofun
  | addGroup _ _ _ _ ih => exact ih hstep
  | set _ _ _ _ ih => exact ih hstep
  | use _ _ _ ih => exact ih hstep
  | @addMonitor n group name hn ih =>
    rcases n.addMonitor_cases group name with ⟨e, heq⟩ | ⟨g, -, -, heq⟩ <;> rw [heq] at hstep ⊢
    · exact ih hstep
    · intro m hm
      rcases List.mem_append.1 hm with hm | hm
      · exact ih hstep m hm
      · obtain rfl := List.mem_singleton.1 hm
        rfl
  | @run n d hn ih =>
    rcases run_cases n d with ⟨e, -, -, hunmoved⟩ | ⟨k, -, -, heq⟩
    · rw [hunmoved.monitors]
      exact ih (hunmoved.clock ▸ hstep)
    · -- a run that ends at step zero recorded nothing
      obtain ⟨hclock, -, hmonitors, -⟩ := begun_keeps n k
      rw [heq] at hstep ⊢
      obtain ⟨hzero, hsame⟩ := monitors_of_step_zero k hstep
      rw [hsame, hmonitors]
      exact ih (by rw [← hclock]; exact hzero)
  | reset _ _ =>
    intro m hm
    obtain ⟨m', -, rfl⟩ := List.mem_map.1 hm
    rfl

/-- **A network past step zero that keeps what `n` was there**: the state of every group, and what is watched. -/
structure Underway (n p : Network) : Prop where
  dt : p.clock.dt = n.clock.dt
  step : 0 < p.clock.step
  ready : p.Ready
  groupCount : p.groups.length = n.groups.length
  groups : ∀ (i : Nat) (g : Group), n.groups[i]? = some g →
    ∃ g', p.groups[i]? = some g' ∧ g'.shape = g.shape ∧ g'.initial = some g.state
  monitorCount : p.monitors.length = n.monitors.length
  monitors : ∀ (i : Nat) (m : Monitor), n.monitors[i]? = some m → ∃ m', p.monitors[i]? = some m' ∧ m'.clear = m.clear

theorem underway_of_moved {n p after : Network} {k : Nat} (h : Alike n p) (hstep : n.clock.step = 0)
    (hmoved : Moved (k + 1) p after) (hready : after.Ready) : Underway n after := by
  have hzero : p.clock.step = 0 := h.clock ▸ hstep
  have hcount : p.groups.length = n.groups.length := by simpa using congrArg List.length h.groups
  refine ⟨by rw [hmoved.clock, h.clock], by rw [hmoved.clock]; exact Nat.succ_pos _, hready,
    hmoved.groupCount.trans hcount, fun i g hg => ?_, by rw [hmoved.monitorCount, h.monitors], fun i m hm => ?_⟩
  · obtain ⟨g₁, hg₁, hsame⟩ := getElem?_of_map_eq h.groups hg
    obtain ⟨hshape₁, hstate₁⟩ := Prod.mk.inj hsame
    obtain ⟨g₂, hg₂, hshape₂, -⟩ := hmoved.groups i g₁ hg₁
    have hinitial := congrArg (·[i]?) hmoved.initial
    simp only [List.getElem?_map, hg₁, hg₂, Option.map_some, Option.some.injEq, if_pos hzero] at hinitial
    exact ⟨g₂, hg₂, hshape₂.trans hshape₁, hinitial.trans (congrArg some hstate₁)⟩
  · obtain ⟨g, m₁, rows, -, hm₁, hgained⟩ := hmoved.monitors i m (h.monitors ▸ hm)
    refine ⟨m₁, hm₁, ?_⟩
    rw [Monitor.clear, Monitor.clear, hgained.watches.1, hgained.watches.2]

theorem underway_of_run {n p : Network} (h : Alike n p) (hstep : n.clock.step = 0) (hp : p.Sound) {d : Float}
    (hrun : (p.run d).failure = none) : Alike n (p.run d).network ∨ Underway n (p.run d).network := by
  obtain ⟨k, hk, hmoved⟩ := moved_of_run hp hrun
  have hprepared := prepared_of_run hk hrun
  cases k with
  | zero =>
    rw [run_eq_ticks hk hprepared]
    exact .inl (h.trans (alike_begun p 0))
  | succ k =>
    refine .inr (underway_of_moved h hstep hmoved ?_)
    rw [run_eq_ticks hk hprepared]
    exact ready_ticks (k + 1) (ready_begun (Nat.succ_pos k) (hprepared (Nat.succ_pos k)))

end Network

/-- Calls that run a network or set its columns. -/
def Call.Drives : Call → Prop
  | .run _ => True
  | .set _ _ _ => True
  | .fill _ _ _ => True
  | .addGroup _ _ _ => False
  | .addMonitor _ _ => False
  | .reset => False

namespace Network

theorem ready_edit {n : Network} (hn : n.Ready) (number : Nat) (name : String) (values : Group → Column) :
    (n.edit number fun g => g.set name (values g)).network.Ready := by
  rcases edit_cases n number (fun g => g.set name (values g)) with h | ⟨g, hg, h⟩ <;> rw [h]
  · exact hn
  · intro other hother
    rcases List.mem_or_eq_of_mem_set hother with hmem | rfl
    · exact hn other hmem
    · rw [(g.set_keeps name (values g)).2.1]
      exact hn g (List.mem_of_getElem? hg)

theorem ready_run {n : Network} (hready : n.Ready) (d : Float) : (n.run d).network.Ready := by
  cases hk : n.clock.stepsFor d with
  | error e =>
    rw [run, hk]
    exact hready
  | ok k =>
    rw [run_eq_ticks hk fun _ => by rw [prepareGroups_of_ready hready]]
    exact ready_ticks k (ready_begun_of_ready hready k)

theorem ready_perform {n : Network} (hready : n.Ready) : ∀ {call : Call}, call.Drives →
    (n.perform call).network.Ready
  | .run d, _ => ready_run hready d
  | .set number name values, _ => ready_edit hready number name fun _ => values
  | .fill number name value, _ => ready_edit hready number name fun g => List.replicate g.len value

theorem step_pos_perform {n : Network} (hstep : 0 < n.clock.step) : ∀ {call : Call}, call.Drives →
    0 < (n.perform call).network.clock.step
  | .run d, _ => by
    rcases n.run_carries d with h | h
    · exact Nat.lt_of_lt_of_le hstep h.keeps.step
    · exact Nat.lt_of_lt_of_le hstep h.step
  | .set number _ _, _ => (edit_keeps n number _).1 ▸ hstep
  | .fill number _ _, _ => (edit_keeps n number _).1 ▸ hstep

theorem initial_of_drives {n : Network} {i : Nat} {g after : Group} (hstep : 0 < n.clock.step) : ∀ {call : Call},
    call.Drives → call.Changes n i g after → after.initial = g.initial
  | .run _, _, h => h.2.1 hstep
  | .set _ _ _, _, h => initial_of_changes h nofun nofun
  | .fill _ _ _, _, h => initial_of_changes h nofun nofun

theorem lengths_of_drives (n : Network) {call : Call} (hcall : call.Drives) :
    (n.perform call).network.groups.length = n.groups.length ∧
      (n.perform call).network.monitors.length = n.monitors.length := by
  have hgroups := groups_length_perform n call
  have hmonitors := monitors_length_perform n call
  cases call with
  | run _ | set _ _ _ | fill _ _ _ => exact ⟨hgroups, hmonitors⟩
  | addGroup _ _ _ | addMonitor _ _ | reset => exact absurd hcall id

/-- **Runs and settings of columns leave a network underway**, refused or not. -/
theorem underway_perform {n p : Network} (h : Underway n p) (hp : p.Sound) {call : Call} (hcall : call.Drives) :
    Underway n (p.perform call).network := by
  obtain ⟨hgroups, hmonitors⟩ := lengths_of_drives p hcall
  refine ⟨(clock_dt_perform p call).trans h.dt, step_pos_perform h.step hcall, ready_perform h.ready hcall,
    hgroups.trans h.groupCount, fun i g hg => ?_, hmonitors.trans h.monitorCount, fun i m hm => ?_⟩
  · obtain ⟨g₁, hg₁, hshape, hkept⟩ := h.groups i g hg
    obtain ⟨g₂, hg₂, hchanges⟩ := changes_of_perform hp hg₁ call
    exact ⟨g₂, hg₂, (shape_of_changes hchanges).trans hshape, (initial_of_drives h.step hcall hchanges).trans hkept⟩
  · obtain ⟨m₁, hm₁, hclear⟩ := h.monitors i m hm
    obtain ⟨m₂, hm₂, hrecords⟩ := records_of_perform hp hm₁ call
    obtain ⟨hgroup, hname⟩ := watched_of_records hrecords
    refine ⟨m₂, hm₂, ?_⟩
    rw [Monitor.clear, hgroup, hname]
    exact hclear

theorem underway_after : ∀ {calls : List Call}, (∀ call ∈ calls, call.Drives) → ∀ {n p : Network}, Underway n p →
    Reachable p → Underway n (p.after calls)
  | [], _, _, _, h, _ => h
  | call :: calls, hcalls, _, _, h, hp => by
    obtain ⟨hcall, hcalls⟩ := List.forall_mem_cons.1 hcalls
    exact underway_after hcalls (underway_perform h (sound_of_reachable hp) hcall) (reachable_perform hp call)

theorem drives_of_mem_runs {ds : List Float} : ∀ call ∈ ds.map Call.run, call.Drives := by
  intro call hcall
  obtain ⟨d, -, rfl⟩ := List.mem_map.1 hcall
  trivial

theorem underway_of_runs : ∀ (ds : List Float) {n p : Network}, Alike n p → n.clock.step = 0 → Reachable p →
    p.Succeeds (ds.map .run) → Alike n (p.after (ds.map .run)) ∨ Underway n (p.after (ds.map .run))
  | [], _, _, h, _, _, _ => .inl h
  | d :: ds, n, p, h, hstep, hp, ⟨hd, hds⟩ => by
    rcases underway_of_run h hstep (sound_of_reachable hp) (answer_run_eq_ok.1 hd) with halike | hunderway
    · exact underway_of_runs ds halike hstep (.run d hp) hds
    · have hrest : Underway n ((p.run d).network.after (ds.map .run)) :=
        underway_after drives_of_mem_runs hunderway (.run d hp)
      exact .inr hrest

/-- **A reset of a network underway** is ready, and agrees with the one it set out from. -/
theorem alike_reset {n p : Network} (h : Underway n p) (hn : Reachable n) (hstep : n.clock.step = 0) :
    Alike n p.reset ∧ p.reset.Ready := by
  refine ⟨⟨?_, map_eq_of_getElem? ?_ fun i g hg => ?_, ?_⟩, fun g hg => ?_⟩
  · have hclock : n.clock = ⟨n.clock.dt, 0⟩ := by rw [← hstep]
    rw [hclock, reset, Clock.reset, h.dt]
  · exact (List.length_map _).trans h.groupCount
  · obtain ⟨g', hg', hshape, hkept⟩ := h.groups i g hg
    refine ⟨g'.restore, by rw [reset, List.getElem?_map, hg', Option.map_some], ?_⟩
    refine Prod.ext ((restore_keeps g').1.trans hshape) ?_
    simp only [Group.restore, hkept]
  · have hclear : p.monitors.map Monitor.clear = n.monitors.map Monitor.clear :=
      map_eq_of_getElem? h.monitorCount h.monitors
    have hnone : n.monitors.map Monitor.clear = n.monitors :=
      (List.map_congr_left (rows_of_step_zero hn hstep)).trans (List.map_id' _)
    exact hclear.trans hnone
  · obtain ⟨g', hg', rfl⟩ := List.mem_map.1 hg
    rw [(restore_keeps g').2]
    exact h.ready g' hg'

/-- **Runs from step zero can be replayed.**  After runs that do not fail and take at least one tick, and any runs and
settings of columns, a reset lets the same runs succeed again; they report the same, and leave the same clock, states
and rows. -/
theorem replay_after_reset {n : Network} (hn : Reachable n) (hstep : n.clock.step = 0) {ds : List Float}
    (hruns : n.Succeeds (ds.map .run)) (hticks : 0 < (n.after (ds.map .run)).clock.step) {between : List Call}
    (hbetween : ∀ call ∈ between, call.Drives) :
    ((n.after (ds.map .run)).after between).reset.Succeeds (ds.map .run) ∧
      Alike (n.after (ds.map .run)) (((n.after (ds.map .run)).after between).reset.after (ds.map .run)) ∧
        ((n.after (ds.map .run)).after between).reset.reports (ds.map .run) = n.reports (ds.map .run) := by
  have hfirst := reachable_after (ds.map .run) hn
  have hsame : Alike n n := ⟨rfl, rfl, rfl⟩
  -- either no run had a tick, or all states at step zero are kept from the first tick on
  rcases underway_of_runs ds hsame hstep hn hruns with halike | hunderway
  · rw [halike.clock, hstep] at hticks
    exact absurd hticks (Nat.lt_irrefl 0)
  · have hafter := underway_after hbetween hunderway hfirst
    obtain ⟨halike, hready⟩ := alike_reset hafter hn hstep
    exact alike_runs ds halike hready hruns

/-- Counters that run, are set and run again, and count the same after a reset. -/
theorem replay_counting : Reachable countingNetwork ∧ countingNetwork.clock.step = 0 ∧
    countingNetwork.Succeeds ([1.0, 0.5].map .run) ∧ 0 < (countingNetwork.after ([1.0, 0.5].map .run)).clock.step ∧
      Alike (countingNetwork.after ([1.0, 0.5].map .run)) (((countingNetwork.after ([1.0, 0.5].map .run)).after
        [.set 0 "v" [3.0, 4.0], .run 0.5]).reset.after ([1.0, 0.5].map .run)) := by
  have hsteps : countingNetwork.clock.step = 0 := rfl
  have hruns : countingNetwork.Succeeds ([1.0, 0.5].map .run) :=
    ⟨answer_run_eq_ok.2 (by decide +kernel), answer_run_eq_ok.2 (by decide +kernel), trivial⟩
  have hticks : 0 < (countingNetwork.after ([1.0, 0.5].map .run)).clock.step := by decide +kernel
  have hbetween : ∀ call ∈ [Call.set 0 "v" [3.0, 4.0], .run 0.5], call.Drives :=
    List.forall_mem_cons.2 ⟨trivial, List.forall_mem_cons.2 ⟨trivial, nofun⟩⟩
  exact ⟨reachable_counting, hsteps, hruns, hticks,
    (replay_after_reset reachable_counting hsteps hruns hticks hbetween).2.1⟩

end Network
end FixedStep
