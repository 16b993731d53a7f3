import FixedStep.Proofs.Onset
import FixedStep.Proofs.Reordering
/-!
# Inputs — what an execution asks of a snapshot, and what it reads of it

The state variables are gone through in slot order, and the first that the snapshot has no column for decides
(`Resolved.execute_eq_error`).  Of the columns gathered, only those matter that an update reads before one writes them:
two runs that agree on these write the same (`View.column_updateAll_congr`).
-/
namespace FixedStep

/-! ## Gathering -/

namespace Snapshot

/-- **What is wrong with a variable**: its array has another length than the snapshot says, or it has no array and no
update writes it. -/
inductive Lacks (s : Snapshot) (targets : List String) (v : Variable) : ExecError → Prop where
  | length (values : Column) : s.values.find? v.name = some values → values.length ≠ s.len →
    Lacks s targets v (.lengthMismatch v.name s.len values.length)
  | absent : s.values.find? v.name = none → v.name ∉ targets → Lacks s targets v (.missingVariable v.name)

variable {s : Snapshot} {targets : List String} {v : Variable} {e : ExecError}

theorem column_eq_error (htarget : v.isTarget ↔ v.name ∈ targets) : s.column v = .error e ↔ s.Lacks targets v e := by
  cases hvalues : s.values.find? v.name with
  | some values =>
    rw [column_of_some hvalues]
    constructor
    · intro h
      split at h <;> cases h
      exact .length values hvalues ‹_›
    · rintro (⟨_, hvalues', hlen⟩ | ⟨hnone, -⟩)
      · obtain rfl := Option.some.inj (hvalues.symm.trans hvalues')
        exact if_neg hlen
      · cases hvalues.symm.trans hnone
  | none =>
    rw [column_of_none hvalues]
    constructor
    · intro h
      split at h <;> cases h
      exact .absent hvalues (mt htarget.2 ‹_›)
    · rintro (⟨_, hsome, -⟩ | ⟨-, hfree⟩)
      · cases hvalues.symm.trans hsome
      · exact if_neg (mt htarget.1 hfree)

/-- **The first variable without a column decides.** -/
theorem columnsOf_eq_error {vars : List Variable} : s.columnsOf vars = .error e ↔
    ∃ before v after, vars = before ++ v :: after ∧ (∀ w ∈ before, ∃ c, s.column w = .ok c) ∧
      s.column v = .error e := by
  induction vars with
  | nil => simp [columnsOf]
  | cons x xs ih =>
    cases hx : s.column x with
    | error e' =>
      rw [columnsOf, hx]
      constructor
      · intro h
        cases h
        exact ⟨[], x, xs, rfl, fun _ hw => absurd hw List.not_mem_nil, hx⟩
      · rintro ⟨_ | ⟨w, before⟩, v, after, hsplit, hbefore, hv⟩
        · obtain ⟨rfl, rfl⟩ := List.cons.inj hsplit
          exact congrArg Except.error (Except.error.inj (hx.symm.trans hv))
        · obtain ⟨rfl, rfl⟩ := List.cons.inj hsplit
          obtain ⟨c, hc⟩ := hbefore x List.mem_cons_self
          cases hx.symm.trans hc
    | ok first =>
      have hcons : s.columnsOf (x :: xs) = .error e ↔ s.columnsOf xs = .error e := by
        rw [columnsOf, hx]
        cases s.columnsOf xs <;> simp [bind, Except.bind, pure, Except.pure]
      rw [hcons, ih]
      constructor
      · rintro ⟨before, v, after, rfl, hbefore, hv⟩
        exact ⟨x :: before, v, after, rfl, List.forall_mem_cons.2 ⟨⟨first, hx⟩, hbefore⟩, hv⟩
      · rintro ⟨_ | ⟨w, before⟩, v, after, hsplit, hbefore, hv⟩
        · obtain ⟨rfl, rfl⟩ := List.cons.inj hsplit
          cases hx.symm.trans hv
        · obtain ⟨rfl, rfl⟩ := List.cons.inj hsplit
          exact ⟨before, v, after, rfl, (List.forall_mem_cons.1 hbefore).2, hv⟩

end Snapshot

/-! ## Reading before writing -/

/-- **A slot is read before it is written**: by an update that no update before it has for its target.  An update reads
before it writes. -/
def ReadFirst : List Update → Nat → Prop
  | [], _ => False
  | u :: us, slot => slot ∈ u.node.slots ∨ slot ≠ u.target ∧ ReadFirst us slot

/-- The update that reads first stands no later than the one that writes. -/
theorem ReadFirst.exists_reads {slot : Nat} : ∀ {us : List Update}, ReadFirst us slot →
    ∃ (j : Nat) (w : Update), us[j]? = some w ∧ slot ∈ w.node.slots ∧
      ∀ (k : Nat) (u : Update), us[k]? = some u → u.target = slot → j ≤ k
  | x :: us, .inl hread => ⟨0, x, rfl, hread, fun k _ _ _ => Nat.zero_le k⟩
  | x :: us, .inr ⟨hne, hrest⟩ => by
    obtain ⟨j, w, hw, hread, hfirst⟩ := ReadFirst.exists_reads hrest
    refine ⟨j + 1, w, hw, hread, fun k u hu htarget => ?_⟩
    cases k with
    | zero =>
      obtain rfl := Option.some.inj hu
      exact absurd htarget.symm hne
    | succ k => exact Nat.succ_le_succ (hfirst k u hu htarget)

namespace View

mutual

/-- **An expression reads its own slots**, the number of elements and the clock. -/
theorem evaluate_congr {v v' : View} (hlen : v'.len = v.len)
    (hclock : ∀ reading, v'.reading reading = v.reading reading) : ∀ {n : Node},
      (∀ slot ∈ n.slots, v'.column slot = v.column slot) → v'.evaluate n = v.evaluate n
  | .const _, _ => by rw [evaluate, evaluate, hlen]
  | .state slot, h => h slot List.mem_cons_self
  | .clock reading, _ => by rw [evaluate, evaluate, hlen, hclock]
  | .neg n, h => by
    rw [evaluate, evaluate, evaluate_congr hlen hclock (n := n) h]
  | .binary op l r, h => by
    obtain ⟨hl, hr⟩ := List.forall_mem_append.1 h
    rw [evaluate, evaluate, evaluate_congr hlen hclock hl, evaluate_congr hlen hclock hr]
  | .call f args, h => by rw [evaluate, evaluate, hlen, evaluateAll_congr hlen hclock h]

theorem evaluateAll_congr {v v' : View} (hlen : v'.len = v.len)
    (hclock : ∀ reading, v'.reading reading = v.reading reading) : ∀ {ns : List Node},
      (∀ slot ∈ Node.slotsAll ns, v'.column slot = v.column slot) → v'.evaluateAll ns = v.evaluateAll ns
  | [], _ => rfl
  | n :: ns, h => by
    obtain ⟨hn, hns⟩ := List.forall_mem_append.1 h
    rw [evaluateAll, evaluateAll, evaluate_congr hlen hclock hn, evaluateAll_congr hlen hclock hns]

end

/-- **Runs that agree on what is read first write the same.**  A column read later was written by both, or was the same
to begin with. -/
theorem column_updateAll_congr {slots : Nat} : ∀ {us : List Update} {v v' : View}, v.Square slots → v'.Square slots →
    v'.len = v.len → (∀ reading, v'.reading reading = v.reading reading) →
    (∀ u ∈ us, u.target < slots ∧ ∀ slot ∈ u.node.slots, slot < slots) →
    (∀ slot, ReadFirst us slot → v'.column slot = v.column slot) →
      ∀ slot, slot ∈ us.map (·.target) ∨ v'.column slot = v.column slot →
        (v'.updateAll us).column slot = (v.updateAll us).column slot
  | [], _, _, _, _, _, _, _, _, _, h => h.resolve_left List.not_mem_nil
  | u :: us, v, v', hv, hv', hlen, hclock, hslots, hread, slot, h => by
    obtain ⟨⟨hwrites, hreads⟩, hslots⟩ := List.forall_mem_cons.1 hslots
    have hvalues : v'.evaluate u.node = v.evaluate u.node :=
      evaluate_congr hlen hclock fun slot hslot => hread slot (.inl hslot)
    have hafter : ∀ slot, slot = u.target ∨ v'.column slot = v.column slot →
        (v'.update u).column slot = (v.update u).column slot := by
      intro slot hslot
      rw [update, column_write (hv'.count ▸ hwrites), update, column_write (hv.count ▸ hwrites), hvalues]
      split
      · rfl
      · exact hslot.resolve_left (Ne.symm ‹_›)
    have hsquare := square_write hv u.target (length_evaluate hv hreads)
    have hsquare' := square_write hv' u.target (length_evaluate hv' hreads)
    refine column_updateAll_congr hsquare hsquare' hlen hclock hslots (fun slot hslot => hafter slot ?_) slot ?_
    · by_cases htarget : slot = u.target
      · exact .inl htarget
      · exact .inr (hread slot (.inr ⟨htarget, hslot⟩))
    · rcases h with hmem | hsame
      · rcases List.mem_cons.1 hmem with htarget | hmem
        · exact .inr (hafter slot (.inl htarget))
        · exact .inl hmem
      · exact .inr (hafter slot (.inr hsame))

end View

/-! ## Executions -/

namespace Snapshot

/-- **Snapshots that differ in nothing read**: they have the same length and clock and start alike for the free
variables, and for the targets that are read by their own update or by an earlier one. -/
structure SameFor (r : Resolved) (s s' : Snapshot) : Prop where
  len : s'.len = s.len
  clock : s'.t = s.t ∧ s'.dt = s.dt
  free : ∀ v ∈ r.scope.stateVariables, v.name ∉ r.targets → s'.start v.name = s.start v.name
  read : ∀ (j k : Nat) (w u : Update), r.updates[j]? = some w → r.updates[k]? = some u → j ≤ k →
    u.target ∈ w.node.slots → s'.start (r.scope.nameOf u.target) = s.start (r.scope.nameOf u.target)

end Snapshot

namespace Resolved

variable {set : EquationSet} {catalog : Catalog} {constants : Constants} {r : Resolved}

theorem targets_eq (h : resolve set catalog constants = .ok r) :
    r.targets = (r.scope.stateVariables.filter Variable.isTarget).map (·.name) := by
  have hpairs := congrArg (fun ps => (ps.filter (·.2)).map (·.1))
    (Scope.declare_targets (built_of_resolve h).declared)
  simp only [List.filter_map, List.map_map, Function.comp_def] at hpairs
  rw [Scope.targets_of_resolve h]
  exact hpairs.symm

theorem isTarget_iff (h : resolve set catalog constants = .ok r) {v : Variable} (hv : v ∈ r.scope.stateVariables) :
    v.isTarget ↔ v.name ∈ r.targets := by
  rw [targets_eq h]
  constructor
  · exact fun htarget => List.mem_map_of_mem (List.mem_filter.2 ⟨hv, htarget⟩)
  · intro hmem
    obtain ⟨w, hw, hname⟩ := List.mem_map.1 hmem
    obtain ⟨hw, htarget⟩ := List.mem_filter.1 hw
    rwa [← List.inj_on_of_nodup_map (wellScoped_of_resolve h).distinct hw hv hname]

/-- **The first variable lacking decides**, in slot order. -/
theorem execute_eq_error (h : resolve set catalog constants = .ok r) {s : Snapshot} {e : ExecError} :
    r.execute s = .error e ↔ ∃ before v after, r.scope.stateVariables = before ++ v :: after ∧
      (∀ w ∈ before, ¬ ∃ e', s.Lacks r.targets w e') ∧ s.Lacks r.targets v e := by
  have hexecute : r.execute s = .error e ↔ s.columns r.scope = .error e := by
    rw [execute]
    cases s.columns r.scope <;> simp [bind, Except.bind, pure, Except.pure]
  rw [hexecute]
  refine Snapshot.columnsOf_eq_error.trans (exists_congr fun before => exists₂_congr fun v after => ?_)
  refine and_congr_right fun hsplit => and_congr (forall₂_congr fun w hw => ?_) (Snapshot.column_eq_error ?_)
  · have hlacks : ∀ e', s.column w = .error e' ↔ s.Lacks r.targets w e' := fun e' =>
      Snapshot.column_eq_error (isTarget_iff h (by rw [hsplit]; exact List.mem_append_left _ hw))
    simp only [← hlacks]
    cases s.column w <;> simp
  · exact isTarget_iff h (by rw [hsplit]; exact List.mem_append_right _ List.mem_cons_self)

theorem exists_execute_error (h : resolve set catalog constants = .ok r) {s : Snapshot} :
    (∃ e, r.execute s = .error e) ↔ ∃ v ∈ r.scope.stateVariables, ∃ e, s.Lacks r.targets v e := by
  constructor
  · rintro ⟨e, he⟩
    obtain ⟨before, v, after, hsplit, -, hlacks⟩ := (execute_eq_error h).1 he
    exact ⟨v, by rw [hsplit]; exact List.mem_append_right _ List.mem_cons_self, e, hlacks⟩
  · rintro ⟨v, hv, e, hlacks⟩
    cases hexecute : r.execute s with
    | error e' => exact ⟨e', rfl⟩
    | ok out =>
      obtain ⟨columns, hcolumns, -⟩ := bind_eq_ok.1 hexecute
      obtain ⟨c, hc⟩ := Snapshot.exists_columnsOf.1 ⟨columns, hcolumns⟩ v hv
      cases hc.symm.trans ((Snapshot.column_eq_error (isTarget_iff h hv)).2 hlacks)

/-- **An outcome has one column for each target**, and nothing else. -/
theorem find?_execute (h : resolve set catalog constants = .ok r) {s : Snapshot} {out : NameMap Column}
    (hs : r.execute s = .ok out) : (∀ name, (out.find? name).isSome ↔ name ∈ r.targets) ∧
      ∀ name values, out.find? name = some values → values.length = s.len := by
  obtain ⟨columns, hcolumns, hout⟩ := bind_eq_ok.1 hs
  obtain rfl := pure_eq_ok.1 hout
  refine ⟨fun name => (NameMap.isSome_find?_insertAll name _ _).trans ?_, fun name values hvalues => ?_⟩
  · rw [List.map_map]
    exact ⟨fun hfound => hfound.resolve_left nofun, .inr⟩
  · exact (of_mem_runFrom (wellScoped_of_resolve h) hcolumns (NameMap.mem_entries_iff.2 hvalues)).2

theorem start_of_readFirst (h : resolve set catalog constants = .ok r) {s s' : Snapshot}
    (hsame : Snapshot.SameFor r s s') {slot : Nat} (hread : ReadFirst r.updates slot) :
    s'.start (r.scope.nameOf slot) = s.start (r.scope.nameOf slot) := by
  have hscoped := wellScoped_of_resolve h
  obtain ⟨j, w, hw, hslot, hfirst⟩ := hread.exists_reads
  by_cases htarget : slot ∈ r.updates.map (·.target)
  · obtain ⟨u, hu, rfl⟩ := List.mem_map.1 htarget
    obtain ⟨k, hk⟩ := List.mem_iff_getElem?.1 hu
    exact hsame.read j k w u hw hk (hfirst k u hk rfl) hslot
  · -- a slot that nothing writes is that of a free variable
    have hlt := hscoped.reads w (List.mem_of_getElem? hw) slot hslot
    have hname : r.scope.nameOf slot = (r.scope.stateVariables[slot]).name := by
      rw [Scope.nameOf, List.getElem?_eq_getElem hlt]
      rfl
    rw [hname]
    refine hsame.free _ (List.getElem_mem hlt) fun hmem => htarget ?_
    obtain ⟨u, hu, heq⟩ := List.mem_map.1 hmem
    have hsame := Kernel.nameOf_injective hscoped.distinct (hscoped.writes u hu) hlt (heq.trans hname.symm)
    exact List.mem_map.2 ⟨u, hu, hsame⟩

theorem execute_sameFor (h : resolve set catalog constants = .ok r) {s s' : Snapshot}
    (hsame : Snapshot.SameFor r s s') {out out' : NameMap Column} (hs : r.execute s = .ok out)
    (hs' : r.execute s' = .ok out') : out' = out := by
  have hscoped := wellScoped_of_resolve h
  obtain ⟨columns, hcolumns, hout⟩ := bind_eq_ok.1 hs
  obtain ⟨columns', hcolumns', hout'⟩ := bind_eq_ok.1 hs'
  obtain rfl := pure_eq_ok.1 hout
  obtain rfl := pure_eq_ok.1 hout'
  have hclock : ∀ reading, (⟨s'.len, columns', s'.t, s'.dt⟩ : View).reading reading =
      (⟨s.len, columns, s.t, s.dt⟩ : View).reading reading := by
    rintro (_ | _)
    · exact hsame.clock.1
    · exact hsame.clock.2
  have hstart : ∀ slot, ReadFirst r.updates slot → (⟨s'.len, columns', s'.t, s'.dt⟩ : View).column slot =
      (⟨s.len, columns, s.t, s.dt⟩ : View).column slot := by
    intro slot hread
    obtain ⟨j, w, hw, hslot, -⟩ := hread.exists_reads
    have hlt := hscoped.reads w (List.mem_of_getElem? hw) slot hslot
    have hfound := Scope.slot?_nameOf hscoped.distinct hlt
    rw [Scope.column_of_columns hcolumns hfound, Scope.column_of_columns hcolumns' hfound]
    exact start_of_readFirst h hsame hread
  have hend := View.column_updateAll_congr (square_columns hcolumns) (square_columns hcolumns') hsame.len hclock
    (fun u hu => ⟨hscoped.writes u hu, hscoped.reads u hu⟩) hstart
  refine congrArg NameMap.ofList (List.map_congr_left fun u hu => ?_)
  exact congrArg _ (hend u.target (.inl (List.mem_map_of_mem hu)))

end Resolved

/-- **What an execution of interpreted code asks of its snapshot and reads of it.**  It fails exactly when a state
variable lacks something, and then for the first in slot order; otherwise there is one column for each target.  And two
snapshots that are accepted and differ in nothing read have the same outcome. -/
theorem CodeObject.execute_interpreted {set : EquationSet} {catalog : Catalog} {constants : Constants} {r : Resolved}
    (h : resolve set catalog constants = .ok r) :
    (∀ s : Snapshot, (∃ e, ((interpreted r).execute s).1 = .error e) ↔
      ∃ v ∈ r.scope.stateVariables, ∃ e, s.Lacks r.targets v e) ∧
    (∀ (s : Snapshot) (e : ExecError), ((interpreted r).execute s).1 = .error e ↔
      ∃ before v after, r.scope.stateVariables = before ++ v :: after ∧
        (∀ w ∈ before, ¬ ∃ e', s.Lacks r.targets w e') ∧ s.Lacks r.targets v e) ∧
    (∀ (s : Snapshot) (out : NameMap Column), ((interpreted r).execute s).1 = .ok out →
      (∀ name, (out.find? name).isSome ↔ name ∈ r.targets) ∧
        ∀ name values, out.find? name = some values → values.length = s.len) ∧
    (∀ (s s' : Snapshot) (out out' : NameMap Column), Snapshot.SameFor r s s' →
      ((interpreted r).execute s).1 = .ok out → ((interpreted r).execute s').1 = .ok out' → out' = out) :=
  ⟨fun _ => Resolved.exists_execute_error h, fun _ _ => Resolved.execute_eq_error h,
    fun _ _ => Resolved.find?_execute h, fun _ _ _ _ hsame hs hs' => Resolved.execute_sameFor h hsame hs hs'⟩

/-- `x = y + a : 1`, then `y = x : 1`, with `a : 1`.  The first update reads `y` before the second writes it; the second
reads `x` when the first has written it. -/
def feedback : EquationSet :=
  ⟨[⟨⟨"x", ⟨0, 1⟩⟩, some (.binary .add (.name "y" ⟨4, 5⟩) (.name "a" ⟨8, 9⟩) ⟨4, 9⟩), .number 1.0 ⟨12, 13⟩, ⟨0, 13⟩⟩,
    ⟨⟨"y", ⟨14, 15⟩⟩, some (.name "x" ⟨18, 19⟩), .number 1.0 ⟨22, 23⟩, ⟨14, 23⟩⟩,
    ⟨⟨"a", ⟨24, 25⟩⟩, none, .number 1.0 ⟨28, 29⟩, ⟨24, 29⟩⟩], ⟨0, 29⟩⟩

/-- What `x` starts from is never read, `q` stands for nothing, and `y` starts at zero where it is left out. -/
theorem CodeObject.execute_interpreted_feedback : ∃ r, resolve feedback .empty .empty = .ok r ∧
    ((interpreted r).execute ⟨1, 0.0, 0.5, .ofList [("x", [1.0, 2.0])]⟩).1 = .error (.lengthMismatch "x" 1 2) ∧
    ∃ out, ((interpreted r).execute ⟨1, 0.0, 0.5, .ofList [("a", [2.0])]⟩).1 = .ok out ∧
      ((interpreted r).execute ⟨1, 0.0, 0.5, .ofList [("x", [7.0]), ("y", [0.0]), ("a", [2.0]), ("q", [])]⟩).1 =
        .ok out := by
  let r : Resolved := ⟨⟨[⟨"x", .one, some 0⟩, ⟨"y", .one, some 1⟩, ⟨"a", .one, none⟩], .empty, .empty⟩,
    [⟨0, .binary .add (.state 1) (.state 2)⟩, ⟨1, .state 0⟩]⟩
  have hr : resolve feedback .empty .empty = .ok r := rfl
  obtain ⟨-, herror, -, hsame⟩ := execute_interpreted hr
  have hlacks : Snapshot.Lacks ⟨1, 0.0, 0.5, .ofList [("x", [1.0, 2.0])]⟩ r.targets ⟨"x", .one, some 0⟩
      (.lengthMismatch "x" 1 2) := .length [1.0, 2.0] rfl (by decide)
  obtain ⟨out, hout⟩ : ∃ out, ((interpreted r).execute ⟨1, 0.0, 0.5, .ofList [("a", [2.0])]⟩).1 = .ok out := ⟨_, rfl⟩
  obtain ⟨out', hout'⟩ : ∃ out', ((interpreted r).execute
      ⟨1, 0.0, 0.5, .ofList [("x", [7.0]), ("y", [0.0]), ("a", [2.0]), ("q", [])]⟩).1 = .ok out' := ⟨_, rfl⟩
  refine ⟨r, hr, (herror _ _).2 ⟨[], _, _, rfl, nofun, hlacks⟩, out, hout, ?_⟩
  refine hout'.trans (congrArg _ (hsame _ _ _ _ ⟨rfl, ⟨rfl, rfl⟩, ?_, ?_⟩ hout hout'))
  · decide
  · intro j k w u hw hu hle hread
    match k with
    | 0 =>
      -- no update as early as the first reads `x`
      obtain rfl := Nat.le_zero.1 hle
      cases hw
      cases hu
      exact absurd hread (by decide)
    | 1 =>
      cases hu
      rfl
    | k + 2 => cases hu

end FixedStep
