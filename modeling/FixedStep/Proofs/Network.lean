import FixedStep.Network
import FixedStep.Proofs.Group
/-!
# Network — what every call keeps

A network is reached by adding groups and monitors, setting columns, running and resetting, in any order and whether
the runs fail or not (`Reachable`).  Its groups are sound, and every monitor watches a state variable of one of them
(`sound_of_reachable`).
-/
namespace FixedStep
namespace Network

/-- Sound groups, and monitors of their variables. -/
structure Sound (n : Network) : Prop where
  groups : ∀ g ∈ n.groups, g.Sound
  monitors : ∀ m ∈ n.monitors, ∃ g, n.groups[m.group]? = some g ∧
    m.variableName ∈ g.code.resolved.scope.stateVariables.map (·.name)

/-- **The networks that calls lead to.**  A group comes from equations that resolve; its columns are set while it is in
the network, and its code may be prepared or executed on the side, which leaves alone what the code stands for. -/
inductive Reachable : Network → Prop where
  | start {dt : Float} {clock : Clock} : Clock.start dt = .ok clock → Reachable (start clock)
  | addGroup {n : Network} {set : EquationSet} {catalog : Catalog} {constants : Constants} {code : CodeObject}
    (name : String) (len : Nat) : Reachable n → resolve set catalog constants = .ok code.resolved →
      Reachable (n.addGroup (.start name len code)).2
  | set {n : Network} {number : Nat} {g : Group} (name : String) (values : Column) : Reachable n →
    n.group? number = some g → Reachable (n.setGroup number (g.set name values).2)
  | use {n : Network} {number : Nat} {g : Group} {code : CodeObject} : Reachable n → n.group? number = some g →
    code.meaning = g.code.meaning → Reachable (n.setGroup number (g.withCode code))
  | addMonitor {n : Network} (group : Nat) (name : String) : Reachable n → Reachable (n.addMonitor group name).2
  | run {n : Network} (duration : Float) : Reachable n → Reachable (n.run duration).network
  | reset {n : Network} : Reachable n → Reachable n.reset

/-! ## Groups in their places -/

/-- In lists that agree in some respect, an element has its counterpart in the same place. -/
theorem getElem?_of_map_eq {α β : Type} {f : α → β} {xs ys : List α} (h : ys.map f = xs.map f) {i : Nat} {x : α}
    (hx : xs[i]? = some x) : ∃ y, ys[i]? = some y ∧ f y = f x := by
  have hi := congrArg (·[i]?) h
  simp only [List.getElem?_map, hx, Option.map_some] at hi
  exact Option.map_eq_some_iff.1 hi

/-- Lists agree in a respect in which every element has its counterpart in the same place. -/
theorem map_eq_of_getElem? {α β : Type} {f : α → β} {xs ys : List α} (hlength : ys.length = xs.length)
    (h : ∀ (i : Nat) (x : α), xs[i]? = some x → ∃ y, ys[i]? = some y ∧ f y = f x) : ys.map f = xs.map f := by
  refine List.ext_getElem (by simp [hlength]) fun i hi hi' => ?_
  rw [List.length_map] at hi'
  obtain ⟨y, hy, hsame⟩ := h i xs[i] (List.getElem?_eq_getElem hi')
  rw [List.getElem_map, List.getElem_map, (List.getElem?_eq_some_iff.1 hy).2, hsame]

/-- A network stays sound when its groups stay sound in their places and its monitors watch what they watched. -/
theorem sound_of_shape {n after : Network} (hn : n.Sound) (hgroups : ∀ g ∈ after.groups, g.Sound)
    (hshape : after.groups.map Group.shape = n.groups.map Group.shape)
    (hmonitors : ∀ m ∈ after.monitors, ∃ m' ∈ n.monitors, m.group = m'.group ∧ m.variableName = m'.variableName) :
    after.Sound := by
  refine ⟨hgroups, fun m hm => ?_⟩
  obtain ⟨m', hm', hgroup, hname⟩ := hmonitors m hm
  obtain ⟨g, hg, hvariable⟩ := hn.monitors m' hm'
  obtain ⟨g', hg', hsame⟩ := getElem?_of_map_eq hshape hg
  have hresolved := Group.resolved_of_shape hsame
  exact ⟨g', hgroup ▸ hg', by rw [hresolved, hname]; exact hvariable⟩

theorem setGroup_shape {n : Network} {number : Nat} {g after : Group} (hg : n.group? number = some g)
    (hshape : after.shape = g.shape) : (n.setGroup number after).groups.map Group.shape = n.groups.map Group.shape := by
  obtain ⟨hlt, hget⟩ := List.getElem?_eq_some_iff.1 hg
  rw [setGroup, List.map_set, hshape]
  exact List.ext_getElem (by simp) fun i _ _ => by
    rw [List.getElem_set, List.getElem_map]
    split
    · rename_i hi
      subst hi
      rw [hget]
    · rfl

theorem sound_setGroup {n : Network} (hn : n.Sound) {number : Nat} {g after : Group} (hg : n.group? number = some g)
    (hafter : after.Sound) (hshape : after.shape = g.shape) : (n.setGroup number after).Sound := by
  refine sound_of_shape hn (fun other hother => ?_) (setGroup_shape hg hshape) fun m hm => ⟨m, hm, rfl, rfl⟩
  rcases List.mem_or_eq_of_mem_set hother with hmem | rfl
  · exact hn.groups other hmem
  · exact hafter

/-! ## Ticks and runs -/

theorem stepGroups_shape (t dt : Float) : ∀ gs : List Group,
    (stepGroups t dt gs).1.map Group.shape = gs.map Group.shape
  | [] => rfl
  | g :: gs => by
    have hshape := g.step_shape t dt
    rw [stepGroups]
    split <;> rename_i heq <;> rw [heq] at hshape
    · rw [List.map_cons, List.map_cons, hshape]
    · rw [List.map_cons, List.map_cons, hshape, stepGroups_shape t dt gs]

theorem stepGroups_sound (t dt : Float) : ∀ {gs : List Group}, (∀ g ∈ gs, g.Sound) →
    ∀ g ∈ (stepGroups t dt gs).1, g.Sound
  | [], _ => nofun
  | g :: gs, h => by
    obtain ⟨hg, hgs⟩ := List.forall_mem_cons.1 h
    have hstep := Group.sound_step hg t dt
    rw [stepGroups]
    split <;> rename_i heq <;> rw [heq] at hstep
    · exact List.forall_mem_cons.2 ⟨hstep, hgs⟩
    · exact List.forall_mem_cons.2 ⟨hstep, stepGroups_sound t dt hgs⟩

theorem prepareGroups_shape : ∀ gs : List Group, (prepareGroups gs).1.map Group.shape = gs.map Group.shape
  | [] => rfl
  | g :: gs => by
    have hshape := g.prepare_shape
    rw [prepareGroups]
    split <;> rename_i heq <;> rw [heq] at hshape
    · rw [List.map_cons, List.map_cons, hshape]
    · rw [List.map_cons, List.map_cons, hshape, prepareGroups_shape gs]

theorem prepareGroups_sound : ∀ {gs : List Group}, (∀ g ∈ gs, g.Sound) → ∀ g ∈ (prepareGroups gs).1, g.Sound
  | [], _ => nofun
  | g :: gs, h => by
    obtain ⟨hg, hgs⟩ := List.forall_mem_cons.1 h
    have hprepare := Group.sound_prepare hg
    rw [prepareGroups]
    split <;> rename_i heq <;> rw [heq] at hprepare
    · exact List.forall_mem_cons.2 ⟨hprepare, hgs⟩
    · exact List.forall_mem_cons.2 ⟨hprepare, prepareGroups_sound hgs⟩

theorem recordFrom_watches (gs : List Group) (t : Float) (m : Monitor) :
    (recordFrom gs t m).group = m.group ∧ (recordFrom gs t m).variableName = m.variableName := by
  unfold recordFrom
  split <;> exact ⟨rfl, rfl⟩

theorem sound_tick {n : Network} (hn : n.Sound) : n.tick.network.Sound := by
  have hgroups := stepGroups_sound n.clock.t n.clock.dt hn.groups
  have hshape := stepGroups_shape n.clock.t n.clock.dt n.groups
  unfold tick
  simp only
  split
  · exact sound_of_shape hn hgroups hshape fun m hm => ⟨m, hm, rfl, rfl⟩
  · refine sound_of_shape hn hgroups hshape fun m hm => ?_
    obtain ⟨m', hm', rfl⟩ := List.mem_map.1 hm
    exact ⟨m', hm', recordFrom_watches _ _ m'⟩

theorem sound_ticks : ∀ (k : Nat) {p : Progress}, p.network.Sound → (ticks k p).network.Sound
  | 0, _, h => h
  | k + 1, p, h => by
    rw [ticks]
    split
    · exact h
    · exact sound_ticks k (sound_tick h)

theorem sound_prepared {n : Network} (hn : n.Sound) :
    (⟨n.clock, n.identifiers, (prepareGroups n.groups).1, n.monitors⟩ : Network).Sound := by
  exact sound_of_shape hn (prepareGroups_sound hn.groups) (prepareGroups_shape n.groups) fun m hm => ⟨m, hm, rfl, rfl⟩

theorem sound_captureAtStart {n : Network} (hn : n.Sound) : n.captureAtStart.Sound := by
  unfold captureAtStart
  split
  · refine sound_of_shape hn (fun g hg => ?_) ?_ fun m hm => ⟨m, hm, rfl, rfl⟩
    · obtain ⟨g', hg', rfl⟩ := List.mem_map.1 hg
      exact Group.sound_capture (hn.groups g' hg')
    · rw [List.map_map]
      rfl
  · exact hn

theorem sound_run {n : Network} (hn : n.Sound) (duration : Float) : (n.run duration).network.Sound := by
  unfold run
  split
  · exact hn
  · rename_i steps hsteps
    by_cases hpos : 0 < steps
    · simp only [if_pos hpos]
      split
      · exact sound_prepared hn
      · exact sound_ticks steps (sound_captureAtStart (sound_prepared hn))
    · simp only [if_neg hpos]
      exact sound_ticks steps (sound_captureAtStart hn)

/-- A monitor is added with the next number, or the network is as it was. -/
theorem addMonitor_cases (n : Network) (group : Nat) (name : String) :
    (∃ e, n.addMonitor group name = (.error e, n)) ∨
      ∃ g, n.groups[group]? = some g ∧ (g.state.find? name).isSome ∧
        n.addMonitor group name = (.ok n.identifiers.nextMonitor,
          ⟨n.clock, n.identifiers.monitor.2, n.groups, n.monitors ++ [.start group name]⟩) := by
  unfold addMonitor
  split
  · exact .inl ⟨_, rfl⟩
  · rename_i g hg
    split
    · exact .inl ⟨_, rfl⟩
    · rename_i hname
      exact .inr ⟨g, hg, by simpa [Group.get?, Option.isSome_iff_ne_none] using hname, rfl⟩

theorem sound_addMonitor {n : Network} (hn : n.Sound) (group : Nat) (name : String) :
    (n.addMonitor group name).2.Sound := by
  rcases addMonitor_cases n group name with ⟨e, heq⟩ | ⟨g, hg, hfound, heq⟩ <;> rw [heq]
  · exact hn
  · refine ⟨hn.groups, fun m hm => ?_⟩
    rcases List.mem_append.1 hm with hm | hm
    · exact hn.monitors m hm
    · obtain rfl := List.mem_singleton.1 hm
      exact ⟨g, hg, ((hn.groups g (List.mem_of_getElem? hg)).holds.names name).1 hfound⟩

/-- **Every reachable network is sound.** -/
theorem sound_of_reachable {n : Network} (h : Reachable n) : n.Sound := by
  induction h with
  | start _ => exact ⟨nofun, nofun⟩
  | @addGroup n _ _ _ code name len _ hresolve ih =>
    refine ⟨fun g hg => ?_, fun m hm => ?_⟩
    · rcases List.mem_append.1 hg with hg | hg
      · exact ih.groups g hg
      · obtain rfl := List.mem_singleton.1 hg
        exact Group.sound_start (Resolved.wellScoped_of_resolve hresolve) name len
    · obtain ⟨g, hg, hname⟩ := ih.monitors m hm
      exact ⟨g, (List.getElem?_append_left (List.getElem?_eq_some_iff.1 hg).1).trans hg, hname⟩
  | set name values _ hg ih =>
    exact sound_setGroup ih hg (Group.sound_set (ih.groups _ (List.mem_of_getElem? hg)) name values)
      (Group.set_keeps _ name values).1
  | use _ hg hcode ih =>
    exact sound_setGroup ih hg (Group.sound_withCode (ih.groups _ (List.mem_of_getElem? hg)) hcode)
      (Group.shape_withCode hcode)
  | addMonitor group name _ ih => exact sound_addMonitor ih group name
  | run duration _ ih => exact sound_run ih duration
  | @reset n _ ih =>
    refine sound_of_shape ih (fun g hg => ?_) ?_ fun m hm => ?_
    · obtain ⟨g', hg', rfl⟩ := List.mem_map.1 hg
      exact (Group.sound_restore (ih.groups g' hg')).1
    · rw [Network.reset, List.map_map]
      exact List.map_congr_left fun g hg => (Group.sound_restore (ih.groups g hg)).2
    · obtain ⟨m', hm', rfl⟩ := List.mem_map.1 hm
      exact ⟨m', hm', rfl, rfl⟩

end Network
end FixedStep
