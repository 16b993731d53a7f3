import FixedStep.Proofs.History
import FixedStep.Proofs.Range
/-!
# WellFormed — what holds of a network after any calls

Every group has the columns of its variables and no others, every monitor watches a variable that is there and has rows
of that group's length, and numbers are positions (`WellFormed`).  No call breaks that, refused or not, and neither does
a single tick, so a step of interpreted code finds everything it reads (`stepsInRange_of_interpreted`).
-/
namespace FixedStep

/-! ## Times and rows -/

namespace Monitor

/-- A time for every row. -/
def Paired (m : Monitor) : Prop := m.times.size = m.rows.size

theorem paired_start (group : Nat) (variableName : String) : (start group variableName).Paired := rfl

theorem paired_record {m : Monitor} (hm : m.Paired) (time : Float) (values : Column) : (m.record time values).Paired := by
  unfold Paired record
  rw [Array.size_push, Array.size_push, hm]

theorem paired_clear (m : Monitor) : m.clear.Paired := rfl

end Monitor

namespace Network

/-! ## Well-formed networks -/

/-- A monitor of a variable that is there: a time for every row, and rows as long as the group. -/
structure Watches (n : Network) (m : Monitor) (g : Group) : Prop where
  found : n.groups[m.group]? = some g
  present : (g.get? m.variableName).isSome
  times : m.times.size = m.rows.size
  lengths : ∀ row ∈ m.rows, row.length = g.len

/-- **A well-formed network.** -/
structure WellFormed (n : Network) : Prop where
  sound : n.Sound
  monitors : ∀ m ∈ n.monitors, ∃ g, n.Watches m g
  nextGroup : n.identifiers.nextGroup = n.groups.length
  nextMonitor : n.identifiers.nextMonitor = n.monitors.length

theorem watches_of_sound {n : Network} (hn : n.Sound) {m : Monitor} (hm : m ∈ n.monitors) (hpaired : m.Paired)
    (hlengths : ∀ row ∈ m.rows, ∀ g, n.groups[m.group]? = some g → row.length = g.len) : ∃ g, n.Watches m g := by
  obtain ⟨g, hg, hname⟩ := hn.monitors m hm
  have hholds := (hn.groups g (List.mem_of_getElem? hg)).holds
  exact ⟨g, hg, (hholds.names m.variableName).2 hname, hpaired, fun row hrow => hlengths row hrow g hg⟩

/-- A monitor of a network that came from `n`: each of its rows was there before or is a column of the variable that it
watches. -/
structure Recorded (n after : Network) (m : Monitor) : Prop where
  paired : m.Paired
  rows : ∀ row ∈ m.rows, (∃ m' ∈ n.monitors, m.group = m'.group ∧ row ∈ m'.rows) ∨
    after.groups[m.group]?.bind (·.get? m.variableName) = some row

theorem recorded_of_mem {n : Network} (hn : n.WellFormed) (after : Network) {m : Monitor} (hm : m ∈ n.monitors) :
    Recorded n after m := by
  obtain ⟨g, hwatches⟩ := hn.monitors m hm
  exact ⟨hwatches.times, fun row hrow => .inl ⟨m, hm, rfl, hrow⟩⟩

/-- A monitor without rows. -/
theorem recorded_of_paired (n after : Network) {m : Monitor} (hpaired : m.Paired) (hrows : m.rows = #[]) :
    Recorded n after m := ⟨hpaired, fun row hrow => by rw [hrows] at hrow; exact absurd hrow (Array.not_mem_empty row)⟩

/-- A network stays well formed when it stays sound and numbers stay positions, groups keep their shapes and places, and
monitors record. -/
theorem wellFormed_of_places {n after : Network} (hn : n.WellFormed) (hsound : after.Sound)
    (hnumbers : after.identifiers = ⟨after.groups.length, after.monitors.length⟩)
    (hplaces : ∀ (i : Nat) (g : Group), n.groups[i]? = some g → ∃ g', after.groups[i]? = some g' ∧ g'.shape = g.shape)
    (hrecorded : ∀ m ∈ after.monitors, Recorded n after m) : after.WellFormed := by
  refine ⟨hsound, fun m hm => watches_of_sound hsound hm (hrecorded m hm).paired fun row hrow g hg => ?_,
    by rw [hnumbers], by rw [hnumbers]⟩
  rcases (hrecorded m hm).rows row hrow with ⟨m', hm', hgroup, hold⟩ | hnew
  · -- an old row is as long as its group was, and lengths are part of the shape
    obtain ⟨g', hwatches⟩ := hn.monitors m' hm'
    obtain ⟨g'', hg'', hsame⟩ := hplaces m'.group g' hwatches.found
    obtain rfl := Option.some.inj (hg.symm.trans (hgroup ▸ hg''))
    have hlen : g.len = g'.len := congrArg (·.2.1) hsame
    rw [hlen]
    exact hwatches.lengths row hold
  · rw [hg, Option.bind_some] at hnew
    exact (hsound.groups g (List.mem_of_getElem? hg)).holds.lengths _ _ hnew

theorem numbers_of_wellFormed {n : Network} (hn : n.WellFormed) :
    n.identifiers = ⟨n.groups.length, n.monitors.length⟩ := by
  rw [← hn.nextGroup, ← hn.nextMonitor]

theorem wellFormed_of_shape {n after : Network} (hn : n.WellFormed) (hsound : after.Sound)
    (hidentifiers : after.identifiers = n.identifiers)
    (hshape : after.groups.map Group.shape = n.groups.map Group.shape)
    (hcount : after.monitors.length = n.monitors.length)
    (hrecorded : ∀ m ∈ after.monitors, Recorded n after m) : after.WellFormed := by
  have hgroups : after.groups.length = n.groups.length := by simpa using congrArg List.length hshape
  refine wellFormed_of_places hn hsound ?_ (fun i g hg => getElem?_of_map_eq hshape hg) hrecorded
  rw [hidentifiers, numbers_of_wellFormed hn, hgroups, hcount]

theorem recorded_recordFrom {n after : Network} (hn : n.WellFormed) (t : Float) {m : Monitor} (hm : m ∈ n.monitors) :
    Recorded n after (recordFrom after.groups t m) := by
  have hrecorded := recorded_of_mem hn after hm
  unfold recordFrom
  split
  · rename_i values hvalues
    refine ⟨Monitor.paired_record hrecorded.paired t values, fun row hrow => ?_⟩
    rcases Array.mem_push.1 hrow with hold | rfl
    · exact hrecorded.rows row hold
    · exact .inr hvalues
  · exact hrecorded

/-- **A tick leaves a network well formed**, whether a group fails in it or not. -/
theorem wellFormed_tick {n : Network} (hn : n.WellFormed) : n.tick.network.WellFormed := by
  have hsound := sound_tick hn.sound
  have hshape := stepGroups_shape n.clock.t n.clock.dt n.groups
  unfold tick at hsound ⊢
  simp only at hsound ⊢
  split at hsound
  · exact wellFormed_of_shape hn hsound rfl hshape rfl fun m hm => recorded_of_mem hn _ hm
  · refine wellFormed_of_shape hn hsound rfl hshape (List.length_map _) fun m hm => ?_
    obtain ⟨m', hm', rfl⟩ := List.mem_map.1 hm
    exact recorded_recordFrom hn n.clock.t hm'

theorem wellFormed_ticks : ∀ (k : Nat) {p : Progress}, p.network.WellFormed → (ticks k p).network.WellFormed
  | 0, _, h => h
  | k + 1, p, h => by
    rw [ticks]
    split
    · exact h
    · exact wellFormed_ticks k (wellFormed_tick h)

theorem wellFormed_begun {n : Network} (hn : n.WellFormed) (k : Nat) : (n.begun k).WellFormed := by
  have hbegun := ticked_begun hn.sound k
  obtain ⟨-, hidentifiers, hmonitors, -⟩ := begun_keeps n k
  refine wellFormed_of_places hn (sound_begun hn.sound k) ?_ (fun i g hg => ?_) fun m hm => ?_
  · rw [hidentifiers, numbers_of_wellFormed hn, hbegun.groupCount, hbegun.monitorCount]
  · obtain ⟨g', hg', hshape, -⟩ := hbegun.groups i g hg
    exact ⟨g', hg', hshape⟩
  · exact recorded_of_mem hn _ (hmonitors ▸ hm)

theorem wellFormed_run {n : Network} (hn : n.WellFormed) (d : Float) : (n.run d).network.WellFormed := by
  rcases run_cases n d with ⟨e, -, -, hunmoved⟩ | ⟨k, -, -, hrun⟩
  · exact wellFormed_of_shape hn (sound_run hn.sound d) hunmoved.identifiers hunmoved.keeps.shapes
      (by rw [hunmoved.monitors]) fun m hm => recorded_of_mem hn _ (hunmoved.monitors ▸ hm)
  · rw [hrun]
    exact wellFormed_ticks k (wellFormed_begun hn k)

/-- **Every reachable network is well formed.** -/
theorem wellFormed_of_reachable {n : Network} (h : Reachable n) : n.WellFormed := by
  induction h with
  | start hclock => exact ⟨sound_of_reachable (.start hclock), nofun, rfl, rfl⟩
  | @addGroup n _ _ _ code name len hn hresolve ih =>
    refine wellFormed_of_places ih (sound_of_reachable (.addGroup name len hn hresolve)) ?_ (fun i g hg => ?_)
      fun m hm => recorded_of_mem ih _ hm
    · rw [addGroup, Identifiers.group, ih.nextGroup, ih.nextMonitor, List.length_append, List.length_singleton]
    · exact ⟨g, (List.getElem?_append_left (List.getElem?_eq_some_iff.1 hg).1).trans hg, rfl⟩
  | set name values hn hg ih =>
    exact wellFormed_of_shape ih (sound_of_reachable (.set name values hn hg)) rfl
      (setGroup_shape hg (Group.set_keeps _ name values).1) rfl fun m hm => recorded_of_mem ih _ hm
  | use hn hg hcode ih =>
    exact wellFormed_of_shape ih (sound_of_reachable (.use hn hg hcode)) rfl
      (setGroup_shape hg (Group.shape_withCode hcode)) rfl fun m hm => recorded_of_mem ih _ hm
  | addMonitor group name hn ih =>
    have hsound := sound_of_reachable (.addMonitor group name hn)
    rcases addMonitor_cases _ group name with ⟨e, heq⟩ | ⟨g, -, -, heq⟩ <;> rw [heq] at hsound ⊢
    · exact ih
    refine wellFormed_of_places ih hsound ?_ (fun i g hg => ⟨g, hg, rfl⟩) fun m hm => ?_
    · rw [Identifiers.monitor, ih.nextGroup, ih.nextMonitor, List.length_append, List.length_singleton]
    · rcases List.mem_append.1 hm with hm | hm
      · exact recorded_of_mem ih _ hm
      · obtain rfl := List.mem_singleton.1 hm
        exact recorded_of_paired _ _ (Monitor.paired_start _ _) rfl
  | run duration _ ih => exact wellFormed_run ih duration
  | @reset n hn ih =>
    refine wellFormed_of_shape ih (sound_of_reachable (.reset hn)) rfl ?_ (List.length_map _) fun m hm => ?_
    · rw [Network.reset, List.map_map]
      exact List.map_congr_left fun g hg => (Group.sound_restore (ih.sound.groups g hg)).2
    · obtain ⟨m', -, rfl⟩ := List.mem_map.1 hm
      exact recorded_of_paired _ _ (Monitor.paired_clear m') rfl

/-! ## Numbers -/

/-- The number of monitors that a history adds. -/
def monitorsAdded (n : Network) : List Call → Nat
  | [] => 0
  | call :: calls => (if n.addsMonitor call then 1 else 0) + (n.perform call).network.monitorsAdded calls

theorem groups_length_after : ∀ (calls : List Call) {n : Network}, Reachable n →
    (n.after calls).groups.length = n.groups.length + calls.countP Call.addsGroup
  | [], _, _ => rfl
  | call :: calls, n, hn => by
    rw [after, groups_length_after calls (reachable_perform hn call), groups_length_perform n,
      List.countP_cons]
    omega

theorem monitors_length_after : ∀ (calls : List Call) {n : Network}, Reachable n →
    (n.after calls).monitors.length = n.monitors.length + n.monitorsAdded calls
  | [], _, _ => rfl
  | call :: calls, n, hn => by
    rw [after, monitors_length_after calls (reachable_perform hn call), monitors_length_perform n,
      monitorsAdded]
    omega

theorem shape_after : ∀ (calls : List Call) {n : Network}, Reachable n → ∀ {i : Nat} {g : Group},
    n.groups[i]? = some g → ∃ g', (n.after calls).groups[i]? = some g' ∧ g'.shape = g.shape
  | [], _, _, _, g, hg => ⟨g, hg, rfl⟩
  | call :: calls, n, hn, i, g, hg => by
    obtain ⟨g₁, hg₁, hchanges⟩ := changes_of_perform (sound_of_reachable hn) hg call
    obtain ⟨g₂, hg₂, hshape⟩ := shape_after calls (reachable_perform hn call) hg₁
    exact ⟨g₂, hg₂, hshape.trans (shape_of_changes hchanges)⟩

theorem watched_after : ∀ (calls : List Call) {n : Network}, Reachable n → ∀ {i : Nat} {m : Monitor},
    n.monitors[i]? = some m →
      ∃ m', (n.after calls).monitors[i]? = some m' ∧ m'.group = m.group ∧ m'.variableName = m.variableName
  | [], _, _, _, m, hm => ⟨m, hm, rfl, rfl⟩
  | call :: calls, n, hn, i, m, hm => by
    obtain ⟨m₁, hm₁, hrecords⟩ := records_of_perform (sound_of_reachable hn) hm call
    obtain ⟨hgroup₁, hname₁⟩ := watched_of_records hrecords
    obtain ⟨m₂, hm₂, hgroup, hname⟩ := watched_after calls (reachable_perform hn call) hm₁
    exact ⟨m₂, hm₂, hgroup.trans hgroup₁, hname.trans hname₁⟩

/-- **Numbers denote what was added.**  A group's number is the number of groups added before it, and a monitor's that of
monitors; a refused monitor has none, and changes nothing. -/
structure Numbered (n : Network) (calls : List Call) : Prop where
  groups : ∀ (earlier later : List Call) (name : String) (len : Nat) (code : Compiled),
    calls = earlier ++ .addGroup name len code :: later →
      ((n.after earlier).perform (.addGroup name len code)).answer = .ok (some (earlier.countP Call.addsGroup)) ∧
        ∃ g, (n.after calls).group? (earlier.countP Call.addsGroup) = some g ∧
          g.shape = (Group.start name len code.code).shape
  monitors : ∀ (earlier later : List Call) (number : Nat) (name : String),
    calls = earlier ++ .addMonitor number name :: later →
      (∃ e, (n.after earlier).perform (.addMonitor number name) = ⟨n.after earlier, #[], .error e⟩) ∨
        ((n.after earlier).perform (.addMonitor number name)).answer = .ok (some (n.monitorsAdded earlier)) ∧
          ∃ m, (n.after calls).monitor? (n.monitorsAdded earlier) = some m ∧ m.group = number ∧ m.variableName = name

theorem numbered {n : Network} (hn : Reachable n) (hempty : n.groups = [] ∧ n.monitors = []) (calls : List Call) :
    n.Numbered calls := by
  have hgroups : ∀ earlier, (n.after earlier).groups.length = earlier.countP Call.addsGroup := by
    intro earlier
    rw [groups_length_after earlier hn, hempty.1, List.length_nil, Nat.zero_add]
  have hmonitors : ∀ earlier, (n.after earlier).monitors.length = n.monitorsAdded earlier := by
    intro earlier
    rw [monitors_length_after earlier hn, hempty.2, List.length_nil, Nat.zero_add]
  constructor
  · rintro earlier later name len code rfl
    have hearlier := reachable_after earlier hn
    -- the number given counts the groups added before, and that is the place the group is put at
    have hnumber : (n.after earlier).identifiers.nextGroup = earlier.countP Call.addsGroup := by
      rw [(wellFormed_of_reachable hearlier).nextGroup, hgroups]
    refine ⟨congrArg (fun k => Except.ok (some k)) hnumber, ?_⟩
    have hadded : ((n.after earlier).perform (.addGroup name len code)).network.groups[earlier.countP Call.addsGroup]? =
        some (.start name len code.code) := by
      rw [← hgroups earlier]
      exact List.getElem?_concat_length
    rw [after_append]
    exact shape_after later (reachable_perform hearlier _) hadded
  · rintro earlier later number name rfl
    have hearlier := reachable_after earlier hn
    rw [after_append]
    rcases perform_addMonitor_cases (n.after earlier) number name with ⟨e, h, -⟩ | ⟨h, -⟩
    · exact .inl ⟨e, h⟩
    · have hnumber : (n.after earlier).identifiers.nextMonitor = n.monitorsAdded earlier := by
        rw [(wellFormed_of_reachable hearlier).nextMonitor, hmonitors]
      have hadded : ((n.after earlier).perform (.addMonitor number name)).network.monitors[n.monitorsAdded earlier]? =
          some (.start number name) := by
        rw [h, ← hmonitors earlier]
        exact List.getElem?_concat_length
      exact .inr ⟨by rw [h, hnumber], watched_after later (reachable_perform hearlier _) hadded⟩

/-! ## Widths -/

/-- Numbers of 32 bits and a count of 64 are wide enough. -/
structure Fits (n : Network) : Prop where
  nextGroup : n.identifiers.nextGroup < UInt32.size
  nextMonitor : n.identifiers.nextMonitor < UInt32.size
  step : n.clock.step < UInt64.size

theorem tick_step_le (n : Network) : n.tick.network.clock.step ≤ n.clock.step + 1 := by
  unfold tick
  simp only
  split
  · exact Nat.le_succ _
  · exact Nat.le_refl _

theorem ticks_step_le : ∀ (k : Nat) (p : Progress), (ticks k p).network.clock.step ≤ p.network.clock.step + k
  | 0, _ => Nat.le_refl _
  | k + 1, p => by
    rw [ticks]
    split
    · exact Nat.le_add_right _ _
    · have hfirst := tick_step_le p.network
      have hrest := ticks_step_le k ⟨p.network.tick.network, p.diagnostics ++ p.network.tick.diagnostics,
        p.network.tick.failure⟩
      exact Nat.le_trans hrest (by simp only; omega)

theorem run_step_le {n : Network} {d : Float} {k : Nat} (hk : n.clock.stepsFor d = .ok k) :
    (n.run d).network.clock.step ≤ n.clock.step + k := by
  by_cases hprepared : 0 < k → (prepareGroups n.groups).2 = none
  · rw [run_eq_ticks hk hprepared]
    exact Nat.le_trans (ticks_step_le k _) (Nat.le_of_eq (by rw [(begun_keeps n k).1]))
  · obtain ⟨hpos, hfails⟩ := Classical.not_imp.1 hprepared
    obtain ⟨e, he⟩ := Option.ne_none_iff_exists'.1 hfails
    unfold run
    simp only [hk, if_pos hpos, he]
    exact Nat.le_add_right _ _

end Network

/-- The ticks that a call asks of a clock. -/
def Call.stepsAsked (c : Clock) : Call → Nat
  | .run d => (c.stepsFor d).toOption.getD 0
  | _ => 0

/-- The ticks that calls ask of a clock, all together. -/
def Clock.stepsAsked (c : Clock) : List Call → Nat
  | [] => 0
  | call :: calls => call.stepsAsked c + c.stepsAsked calls

/-- How many steps a duration takes depends on the length of a step alone. -/
theorem Clock.stepsAsked_congr {c c' : Clock} (h : c.dt = c'.dt) : ∀ calls, c.stepsAsked calls = c'.stepsAsked calls
  | [] => rfl
  | call :: calls => by
    have hcall : call.stepsAsked c = call.stepsAsked c' := by
      cases call with
      | run d => simp only [Call.stepsAsked, Clock.stepsFor, h]
      | set _ _ _ | fill _ _ _ | addGroup _ _ _ | addMonitor _ _ | reset => rfl
    rw [stepsAsked, stepsAsked, hcall, stepsAsked_congr h calls]

namespace Network

theorem step_perform_le (n : Network) (call : Call) :
    (n.perform call).network.clock.step ≤ n.clock.step + call.stepsAsked n.clock := by
  cases call with
  | run d =>
    rw [Call.stepsAsked]
    cases hk : n.clock.stepsFor d with
    | error e =>
      rw [perform, run, hk]
      exact Nat.le_refl _
    | ok k => exact run_step_le hk
  | reset => exact Nat.zero_le _
  | set _ _ _ | fill _ _ _ | addGroup _ _ _ | addMonitor _ _ =>
    exact Nat.le_of_eq (congrArg (·.step) (clock_perform n (by simp) (by simp)))

theorem step_after_le : ∀ (calls : List Call) {n : Network}, Reachable n →
    (n.after calls).clock.step ≤ n.clock.step + n.clock.stepsAsked calls
  | [], _, _ => Nat.le_refl _
  | call :: calls, n, hn => by
    have hfirst := step_perform_le n call
    have hrest := step_after_le calls (reachable_perform hn call)
    rw [Clock.stepsAsked_congr (clock_dt_perform n call) calls] at hrest
    rw [after, Clock.stepsAsked]
    omega

theorem monitorsAdded_le : ∀ (calls : List Call) (n : Network), n.monitorsAdded calls ≤ calls.length
  | [], _ => Nat.le_refl _
  | call :: calls, n => by
    have hrest := monitorsAdded_le calls (n.perform call).network
    rw [monitorsAdded, List.length_cons]
    split <;> omega

/-- **Histories that never run out of numbers**: those of fewer than 2^32 calls that ask for fewer than 2^64 ticks. -/
theorem fits_after {dt : Float} {clock : Clock} (hclock : Clock.start dt = .ok clock) {calls : List Call}
    (hcalls : calls.length < UInt32.size) (hsteps : clock.stepsAsked calls < UInt64.size) :
    ((start clock).after calls).Fits := by
  have hstart : Reachable (start clock) := .start hclock
  have hn := wellFormed_of_reachable (reachable_after calls hstart)
  have hzero : clock.step = 0 := by
    unfold Clock.start at hclock
    split at hclock <;> cases hclock
    rfl
  refine ⟨?_, ?_, ?_⟩
  · rw [hn.nextGroup, groups_length_after calls hstart, start, List.length_nil, Nat.zero_add]
    exact Nat.lt_of_le_of_lt List.countP_le_length hcalls
  · rw [hn.nextMonitor, monitors_length_after calls hstart, start, List.length_nil, Nat.zero_add]
    exact Nat.lt_of_le_of_lt (monitorsAdded_le calls _) hcalls
  · have hle := step_after_le calls hstart
    rw [start, hzero, Nat.zero_add] at hle
    exact Nat.lt_of_le_of_lt hle hsteps

/-! ## Any history -/

/-- **Calls touch what they name**: a refused `set` or `fill` changes nothing, and what any call makes of the groups and
monitors that are there is what it says. -/
structure Steady (n : Network) : Prop where
  set : ∀ number name values e, (n.perform (.set number name values)).answer = .error e →
    (n.perform (.set number name values)).network = n
  fill : ∀ number name value e, (n.perform (.fill number name value)).answer = .error e →
    (n.perform (.fill number name value)).network = n
  groups : ∀ (call : Call) (i : Nat) (g : Group), n.groups[i]? = some g →
    ∃ after, (n.perform call).network.groups[i]? = some after ∧ call.Changes n i g after
  monitors : ∀ (call : Call) (i : Nat) (m : Monitor), n.monitors[i]? = some m →
    ∃ after, (n.perform call).network.monitors[i]? = some after ∧ call.Records n m after

theorem steady_of_sound {n : Network} (hn : n.Sound) : n.Steady :=
  ⟨fun _ _ _ _ => edit_refused, fun _ _ _ _ => edit_refused, fun call _ _ hg => changes_of_perform hn hg call,
    fun call _ _ hm => records_of_perform hn hm call⟩

/-- **Runs of interpreted groups cannot fail** but for their duration.  The network is well formed between any two ticks
that a run passes, and such groups step in range.  They abort only where an implementation is called without the
arguments it looks at. -/
structure RunsSafely (n : Network) : Prop where
  passes : ∀ (d : Float) (k j : Nat), n.clock.stepsFor d = .ok k → j ≤ k → (n.run d).failure = none →
    n.run d = ticks (k - j) (ticks j ⟨n.begun k, #[], none⟩)
  ticks : ∀ (d : Float) (k j : Nat), n.clock.stepsFor d = .ok k → j ≤ k →
    (ticks j ⟨n.begun k, #[], none⟩).network.WellFormed ∧
      ∀ g ∈ (ticks j ⟨n.begun k, #[], none⟩).network.groups, g.code.backend = .interpreted →
        ∀ t dt, g.StepsInRange t dt
  fails : (∀ g ∈ n.groups, g.code.backend = .interpreted) → ∀ d e, (n.run d).failure = some e →
    e = .clock (.invalidDuration d)
  aborts : ∀ d, n.runAborts d = true → ∃ g ∈ n.groups, g.code.resolved.hasShortCall = true

theorem stepsFor_eq_error {c : Clock} {d : Float} {e : ClockError} (h : c.stepsFor d = .error e) :
    e = .invalidDuration d := by
  unfold Clock.stepsFor at h
  split at h
  · cases h
  · exact (Except.error.inj h).symm

theorem runsSafely_of_wellFormed {n : Network} (hn : n.WellFormed) : n.RunsSafely := by
  refine ⟨fun d k j hk hj hrun => ?_, fun d k j _ _ => ?_, fun hcode d e hfailure => ?_, fun d haborts => ?_⟩
  · rw [run_eq_ticks hk (prepared_of_run hk hrun), ← ticks_add, Nat.add_sub_of_le hj]
  · have hticks : (Network.ticks j ⟨n.begun k, #[], none⟩).network.WellFormed :=
      wellFormed_ticks j (wellFormed_begun hn k)
    exact ⟨hticks, fun g hg hcode t dt => Group.stepsInRange_of_interpreted (hticks.sound.groups g hg) hcode t dt⟩
  · have hready : n.Ready := fun g hg => CodeObject.ready_of_interpreted (hcode g hg)
    have hunfailing : n.Unfailing := fun g hg => (CodeObject.faithful_of_interpreted (hcode g hg)).unfailing
    -- with every group ready, nothing but the duration can be refused
    cases hk : n.clock.stepsFor d with
    | error cause =>
      rw [run, hk] at hfailure
      rw [← Option.some.inj hfailure, stepsFor_eq_error hk]
    | ok k =>
      have hprepared : (prepareGroups n.groups).2 = none := by rw [prepareGroups_of_ready hready]
      cases hfailure.symm.trans (failure_of_prepared hn.sound hunfailing hk fun _ => hprepared)
  · unfold runAborts at haborts
    split at haborts
    · cases haborts
    · rw [Bool.and_eq_true, List.any_eq_true] at haborts
      obtain ⟨-, g, hg, hg'⟩ := haborts
      exact ⟨g, hg, Group.hasShortCall_of_aborts (hn.sound.groups g hg) hg'⟩

/-- **Whatever is called**, in whatever order and whether it is refused or not, leaves a well-formed network, whose
numbers denote what was added, and whose interpreted groups run without fail. -/
theorem wellFormed_after_calls {dt : Float} {clock : Clock} (hclock : Clock.start dt = .ok clock) (calls : List Call) :
    ((start clock).after calls).WellFormed ∧ (start clock).Numbered calls ∧ ((start clock).after calls).Steady ∧
      ((start clock).after calls).RunsSafely := by
  have hstart : Reachable (start clock) := .start hclock
  have hn := wellFormed_of_reachable (reachable_after calls hstart)
  exact ⟨hn, numbered hstart ⟨rfl, rfl⟩ calls, steady_of_sound hn.sound, runsSafely_of_wellFormed hn⟩

/-- Two counters, a monitor that is refused and one that is not, and a run. -/
theorem wellFormed_after_counting : Clock.start 0.5 = .ok ⟨0.5, 0⟩ ∧
    ((start ⟨0.5, 0⟩).after [.addGroup "counters" 2 compiledCounting, .addMonitor 0 "w", .addMonitor 0 "v",
      .run 1.0]).WellFormed := by
  have hclock : Clock.start 0.5 = .ok ⟨0.5, 0⟩ := if_pos (by decide +kernel)
  exact ⟨hclock, (wellFormed_after_calls hclock _).1⟩

end Network
end FixedStep
