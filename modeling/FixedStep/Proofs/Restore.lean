import FixedStep.Proofs.History
/-!
# Restore — what a reset brings back

A history tells how each group began: the first run with ticks since the group was added or last reset, and the state it
had then (`Network.beginning`).  That state is kept only if the run began at step zero (`Network.Kept`), so a reset
brings it back to groups that were there then, and leaves a group that came later as its last tick left it.
-/
namespace FixedStep

/-- How a group began: the step of the clock and its own state before its first run with ticks. -/
structure Beginning where
  step : Nat
  state : NameMap Column

namespace Network

/-- How the group with number `i` has begun after a call, if it had begun as `b` before. -/
def beginningAfter (n : Network) (i : Nat) (b : Option Beginning) : Call → Option Beginning
  | .run d =>
    if n.clock.step < (n.run d).network.clock.step then b.or (n.groups[i]?.map fun g => ⟨n.clock.step, g.state⟩)
    else b
  | .reset => none
  | .addGroup _ _ _ => b
  | .addMonitor _ _ => b
  | .set _ _ _ => b
  | .fill _ _ _ => b

/-- How the group with number `i` has begun after a history. -/
def beginning (n : Network) (i : Nat) (b : Option Beginning) : List Call → Option Beginning
  | [] => b
  | call :: calls => (n.perform call).network.beginning i (n.beginningAfter i b call) calls

/-- **What is kept of a group**: nothing before it began, once the clock runs, and after that the state it began from,
if that was at step zero. -/
structure Kept (n : Network) (i : Nat) (b : Option Beginning) : Prop where
  pending : b = none → 0 < n.clock.step → ∀ g, n.groups[i]? = some g → g.initial = none
  begun : ∀ x, b = some x → 0 < n.clock.step ∧
    ∃ g, n.groups[i]? = some g ∧ g.initial = if x.step = 0 then some x.state else none

/-! ## One call -/

theorem kept_of_quiet {n : Network} (hn : n.Sound) {i : Nat} {b : Option Beginning} (h : n.Kept i b) {call : Call}
    (hclock : (n.perform call).network.clock = n.clock)
    (hinitial : ∀ g after, call.Changes n i g after → after.initial = g.initial) :
    (n.perform call).network.Kept i b := by
  constructor
  · intro hb hstep after hafter
    rcases groups_perform_cases hn hafter with ⟨g, hg, hchanges⟩ | ⟨name, len, code, -, rfl⟩
    · rw [hinitial g after hchanges]
      exact h.pending hb (hclock ▸ hstep) g hg
    · rfl
  · intro x hx
    obtain ⟨hstep, g, hg, hkept⟩ := h.begun x hx
    obtain ⟨after, hafter, hchanges⟩ := changes_of_perform hn hg call
    exact ⟨hclock ▸ hstep, after, hafter, (hinitial g after hchanges).trans hkept⟩

theorem kept_of_carried {n after : Network} {i : Nat} {b : Option Beginning} (hcarried : Carried n after)
    (h : n.Kept i b) : after.Kept i
      (if n.clock.step < after.clock.step then b.or (n.groups[i]?.map fun g => ⟨n.clock.step, g.state⟩) else b) := by
  have hstep := hcarried.step
  have hinitial : after.groups[i]?.map (·.initial) =
      n.groups[i]?.map fun g => if n.clock.step = 0 then some g.state else g.initial := by
    rw [← List.getElem?_map, hcarried.initial, List.getElem?_map]
  cases b with
  | some x =>
    -- a group that has begun is past step zero, where runs keep nothing anew
    obtain ⟨hpos, g, hg, hkept⟩ := h.begun x rfl
    rw [Option.some_or, ite_self]
    refine ⟨nofun, fun y hy => ?_⟩
    obtain rfl := Option.some.inj hy
    rw [hg, Option.map_some, if_neg (Nat.ne_of_gt hpos), hkept] at hinitial
    exact ⟨by omega, Option.map_eq_some_iff.1 hinitial⟩
  | none =>
    rw [Option.none_or]
    cases hg : n.groups[i]? with
    | none =>
      rw [hg, Option.map_none, Option.map_eq_none_iff] at hinitial
      rw [Option.map_none, ite_self]
      refine ⟨fun _ _ g' hg' => ?_, nofun⟩
      cases hinitial.symm.trans hg'
    | some g =>
      rw [hg, Option.map_some] at hinitial
      obtain ⟨g', hg', hinitial⟩ := Option.map_eq_some_iff.1 hinitial
      rw [Option.map_some]
      by_cases hticks : n.clock.step < after.clock.step
      · -- the group begins here: its state is kept at step zero, and past it nothing was kept before
        rw [if_pos hticks]
        refine ⟨nofun, fun y hy => ⟨by omega, g', hg', ?_⟩⟩
        obtain rfl := Option.some.inj hy
        rw [hinitial]
        by_cases hzero : n.clock.step = 0
        · rw [if_pos hzero, if_pos hzero]
        · rw [if_neg hzero, if_neg hzero]
          exact h.pending rfl (Nat.pos_of_ne_zero hzero) g hg
      · rw [if_neg hticks]
        refine ⟨fun _ hafter g'' hg'' => ?_, nofun⟩
        obtain rfl := Option.some.inj (hg''.symm.trans hg')
        have hrunning : 0 < n.clock.step := by omega
        rw [hinitial, if_neg (Nat.ne_of_gt hrunning)]
        exact h.pending rfl hrunning g hg

theorem kept_of_unmoved {n after : Network} {i : Nat} {b : Option Beginning} (hunmoved : Unmoved n after)
    (h : n.Kept i b) : after.Kept i b := by
  have hinitial := hunmoved.keeps.initial
  constructor
  · intro hb hstep g' hg'
    obtain ⟨g, hg, hsame⟩ := getElem?_of_map_eq hinitial.symm hg'
    exact hsame.symm.trans (h.pending hb (hunmoved.clock ▸ hstep) g hg)
  · intro x hx
    obtain ⟨hstep, g, hg, hkept⟩ := h.begun x hx
    obtain ⟨g', hg', hsame⟩ := getElem?_of_map_eq hinitial hg
    exact ⟨hunmoved.clock ▸ hstep, g', hg', hsame.trans hkept⟩

/-- **Every call keeps of a group what its history asks for.** -/
theorem kept_perform {n : Network} (hn : n.Sound) {i : Nat} {b : Option Beginning} (h : n.Kept i b) (call : Call) :
    (n.perform call).network.Kept i (n.beginningAfter i b call) := by
  cases call with
  | run d =>
    rw [beginningAfter]
    rcases n.run_carries d with hunmoved | hcarried
    · rw [hunmoved.clock, if_neg (Nat.lt_irrefl _)]
      exact kept_of_unmoved hunmoved h
    · exact kept_of_carried hcarried h
  | reset => exact ⟨fun _ hstep => absurd hstep (Nat.lt_irrefl 0), nofun⟩
  | set _ _ _ | fill _ _ _ | addGroup _ _ _ | addMonitor _ _ =>
    refine kept_of_quiet hn h (clock_perform n ?_ ?_) fun _ _ hchanges => initial_of_changes hchanges ?_ ?_ <;> nofun

/-! ## Any history -/

theorem kept_after : ∀ (calls : List Call) {n : Network}, Reachable n → ∀ {i : Nat} {b : Option Beginning},
    n.Kept i b → (n.after calls).Kept i (n.beginning i b calls)
  | [], _, _, _, _, h => h
  | call :: calls, _, hn, _, _, h =>
    kept_after calls (reachable_perform hn call) (kept_perform (sound_of_reachable hn) h call)

theorem clock_dt_after : ∀ (calls : List Call) {n : Network}, Reachable n → (n.after calls).clock.dt = n.clock.dt
  | [], _, _ => rfl
  | call :: calls, _, hn =>
    (clock_dt_after calls (reachable_perform hn call)).trans (clock_dt_perform _ call)

/-- **A reset after any history** puts the clock at step zero and empties the monitors.  A group that has begun gets back
the state it began from just when that was at step zero; otherwise it stays as it is, which is the same only if its
ticks have left that very state. -/
theorem reset_after_calls {dt : Float} {clock : Clock} (hclock : Clock.start dt = .ok clock) (calls : List Call) :
    ((start clock).after calls).reset.clock = ⟨clock.dt, 0⟩ ∧
      (∀ m ∈ ((start clock).after calls).reset.monitors, m.times = #[] ∧ m.rows = #[]) ∧
      ∀ i x, (start clock).beginning i none calls = some x →
        ∃ g restored, ((start clock).after calls).groups[i]? = some g ∧
          ((start clock).after calls).reset.groups[i]? = some restored ∧ restored.shape = g.shape ∧
            restored.state = (if x.step = 0 then x.state else g.state) ∧
              (restored.state = x.state ↔ x.step = 0 ∨ g.state = x.state) := by
  have hstart : Reachable (start clock) := .start hclock
  refine ⟨?_, fun m hm => ?_, fun i x hx => ?_⟩
  · rw [reset, Clock.reset, clock_dt_after calls hstart]
    rfl
  · obtain ⟨m', -, rfl⟩ := List.mem_map.1 hm
    exact ⟨rfl, rfl⟩
  · have hkept : (start clock).Kept i none := by
      constructor
      · intro _ _ _ hg
        cases hg
      · intro _ hx
        cases hx
    obtain ⟨-, g, hg, hinitial⟩ := (kept_after calls hstart hkept).begun x hx
    have hsound := sound_of_reachable (reachable_after calls hstart)
    have hshape := (Group.sound_restore (hsound.groups g (List.mem_of_getElem? hg))).2
    have hrestored : ((start clock).after calls).reset.groups[i]? = some g.restore := by
      rw [reset, List.getElem?_map, hg, Option.map_some]
    refine ⟨g, g.restore, hg, hrestored, hshape, ?_⟩
    by_cases hzero : x.step = 0
    · rw [if_pos hzero] at hinitial ⊢
      have hstate : g.restore.state = x.state := by rw [Group.restore, hinitial]
      exact ⟨hstate, fun _ => .inl hzero, fun _ => hstate⟩
    · rw [if_neg hzero] at hinitial ⊢
      have hstate : g.restore.state = g.state := by rw [Group.restore, hinitial]
      rw [hstate]
      exact ⟨rfl, .inr, fun h => h.resolve_left hzero⟩

theorem reset_after_counting : Clock.start 0.5 = .ok ⟨0.5, 0⟩ ∧ ∃ x restored,
    (start ⟨0.5, 0⟩).beginning 0 none [.addGroup "counters" 2 compiledCounting, .run 1.0] = some x ∧
      ((start ⟨0.5, 0⟩).after [.addGroup "counters" 2 compiledCounting, .run 1.0]).reset.groups[0]? = some restored ∧
        restored.state = x.state := by
  have hclock : Clock.start 0.5 = .ok ⟨0.5, 0⟩ := if_pos (by decide +kernel)
  have hbegan : ((start ⟨0.5, 0⟩).beginning 0 none [.addGroup "counters" 2 compiledCounting, .run 1.0]).map (·.step) =
      some 0 := by decide +kernel
  obtain ⟨x, hx, hzero⟩ := Option.map_eq_some_iff.1 hbegan
  obtain ⟨g, restored, -, hrestored, -, -, hsame⟩ := (reset_after_calls hclock _).2.2 0 x hx
  exact ⟨hclock, x, restored, hx, hrestored, hsame.2 (.inl hzero)⟩

/-- Counters that are added once the clock has run, and run themselves. -/
def lateCalls : List Call :=
  [.addGroup "early" 1 compiledCounting, .run 0.5, .addGroup "late" 1 compiledCounting, .run 0.5]

/-- The late group began at zero, and holds one after the reset. -/
theorem reset_lateGroup : Clock.start 0.5 = .ok ⟨0.5, 0⟩ ∧ ∃ x restored,
    (start ⟨0.5, 0⟩).beginning 1 none lateCalls = some x ∧
      ((start ⟨0.5, 0⟩).after lateCalls).reset.groups[1]? = some restored ∧
        x.state.entries = [("v", [0.0])] ∧ restored.state.entries = [("v", [1.0])] ∧ restored.state ≠ x.state := by
  have hclock : Clock.start 0.5 = .ok ⟨0.5, 0⟩ := if_pos (by decide +kernel)
  have hbegan : ((start ⟨0.5, 0⟩).beginning 1 none lateCalls).map (·.state.entries) = some [("v", [0.0])] := by
    decide +kernel
  have hreset : (((start ⟨0.5, 0⟩).after lateCalls).reset.groups[1]?).map (·.state.entries) = some [("v", [1.0])] := by
    decide +kernel
  obtain ⟨x, hx, hzero⟩ := Option.map_eq_some_iff.1 hbegan
  obtain ⟨restored, hrestored, hone⟩ := Option.map_eq_some_iff.1 hreset
  refine ⟨hclock, x, restored, hx, hrestored, hzero, hone, fun hsame => ?_⟩
  rw [hsame, hzero] at hone
  exact absurd hone (by decide +kernel)

end Network
end FixedStep
