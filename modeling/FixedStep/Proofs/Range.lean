import FixedStep.Abort
import FixedStep.Proofs.Group
/-!
# Range — a step finds everything it reads

Evaluation is said to read in range where every slot is there and columns that stand side by side are of full length
(`View.InRange`).  A step of a sound group with interpreted code does so and succeeds, and it aborts only where an
implementation is called without the arguments it looks at.
-/
namespace FixedStep

/-! ## Reads in range -/

namespace View

mutual

/-- Evaluating an expression reads only slots that are there, and only columns of full length side by side. -/
def InRange (v : View) : Node → Prop
  | .const _ => True
  | .state slot => slot < v.columns.length
  | .clock _ => True
  | .neg n => v.InRange n
  | .binary _ l r => v.InRange l ∧ v.InRange r ∧ (v.evaluate l).length = v.len ∧ (v.evaluate r).length = v.len
  | .call _ args => v.AllInRange args ∧ ∀ c ∈ v.evaluateAll args, c.length = v.len

def AllInRange (v : View) : List Node → Prop
  | [] => True
  | n :: ns => v.InRange n ∧ v.AllInRange ns

end

/-- Updates in order read in range, and write to slots that are there. -/
def UpdatesInRange (v : View) : List Update → Prop
  | [] => True
  | u :: us => v.InRange u.node ∧ u.target < v.columns.length ∧ (v.update u).UpdatesInRange us

variable {v : View} {slots : Nat}

theorem length_evaluateAll (hv : v.Square slots) : ∀ {ns : List Node}, (∀ slot ∈ Node.slotsAll ns, slot < slots) →
    ∀ c ∈ v.evaluateAll ns, c.length = v.len
  | [], _, _, hc => absurd hc List.not_mem_nil
  | n :: ns, hns, c, hc => by
    rcases List.mem_cons.1 hc with rfl | hc
    · exact length_evaluate hv fun slot hslot => hns slot (List.mem_append_left _ hslot)
    · exact length_evaluateAll hv (fun slot hslot => hns slot (List.mem_append_right _ hslot)) c hc

mutual

theorem inRange_of_square (hv : v.Square slots) : ∀ {n : Node}, (∀ slot ∈ n.slots, slot < slots) → v.InRange n
  | .const _, _ => trivial
  | .state slot, hn => by
    rw [InRange, hv.count]
    exact hn slot List.mem_cons_self
  | .clock _, _ => trivial
  | .neg n, hn => by
    rw [InRange]
    exact inRange_of_square hv hn
  | .binary op l r, hn => by
    have hl : ∀ slot ∈ l.slots, slot < slots := fun slot hslot => hn slot (List.mem_append_left _ hslot)
    have hr : ∀ slot ∈ r.slots, slot < slots := fun slot hslot => hn slot (List.mem_append_right _ hslot)
    rw [InRange]
    exact ⟨inRange_of_square hv hl, inRange_of_square hv hr, length_evaluate hv hl, length_evaluate hv hr⟩
  | .call f args, hn => by
    rw [InRange]
    exact ⟨allInRange_of_square hv hn, length_evaluateAll hv hn⟩

theorem allInRange_of_square (hv : v.Square slots) : ∀ {ns : List Node}, (∀ slot ∈ Node.slotsAll ns, slot < slots) →
    v.AllInRange ns
  | [], _ => trivial
  | n :: ns, hns => by
    rw [AllInRange]
    exact ⟨inRange_of_square hv fun slot hslot => hns slot (List.mem_append_left _ hslot),
      allInRange_of_square hv fun slot hslot => hns slot (List.mem_append_right _ hslot)⟩

end

theorem updatesInRange_of_square : ∀ {us : List Update} {v : View}, v.Square slots → (∀ u ∈ us, u.target < slots) →
    (∀ u ∈ us, ∀ slot ∈ u.node.slots, slot < slots) → v.UpdatesInRange us
  | [], _, _, _, _ => trivial
  | u :: us, v, hv, hwrites, hreads => by
    obtain ⟨hwrite, hwrites⟩ := List.forall_mem_cons.1 hwrites
    obtain ⟨hread, hreads⟩ := List.forall_mem_cons.1 hreads
    have hafter := square_write hv u.target (length_evaluate hv hread)
    exact ⟨inRange_of_square hv hread, hv.count ▸ hwrite, updatesInRange_of_square hafter hwrites hreads⟩

end View

/-- **A step that finds everything it reads**: its columns are gathered, its updates read and write in range and have
names, and it succeeds. -/
structure Group.StepsInRange (g : Group) (t dt : Float) : Prop where
  gathers : ∃ columns, (g.snapshot t dt).columns g.code.resolved.scope = .ok columns ∧
    View.UpdatesInRange ⟨g.len, columns, t, dt⟩ g.code.resolved.updates
  named : ∀ u ∈ g.code.resolved.updates, u.target < g.code.resolved.scope.stateVariables.length ∧
    ∀ slot ∈ u.node.slots, slot < g.code.resolved.scope.stateVariables.length
  succeeds : ∃ counts after, g.step t dt = (.ok counts, after)

theorem CodeObject.ready_of_interpreted : ∀ {c : CodeObject}, c.backend = .interpreted → c.Ready
  | .interpreted _, _ => trivial

theorem CodeObject.faithful_of_interpreted : ∀ {c : CodeObject}, c.backend = .interpreted → c.Faithful
  | .interpreted r, _ => faithful_interpreted r

/-- **Interpreted code steps in range** at every time. -/
theorem Group.stepsInRange_of_interpreted {g : Group} (hg : g.Sound) (hcode : g.code.backend = .interpreted)
    (t dt : Float) : g.StepsInRange t dt := by
  obtain ⟨columns, hcolumns⟩ := Scope.exists_columns hg.holds t dt
  obtain ⟨outputs, houtputs⟩ := exists_outcome hg (CodeObject.faithful_of_interpreted hcode).unfailing t dt
  have hstep := step_of_ready (CodeObject.ready_of_interpreted hcode) t dt
  rw [houtputs] at hstep
  have hsquare := Resolved.square_columns hcolumns
  refine ⟨⟨columns, hcolumns, ?_⟩, fun u hu => ⟨hg.wellScoped.writes u hu, hg.wellScoped.reads u hu⟩, _, _, hstep⟩
  exact View.updatesInRange_of_square hsquare hg.wellScoped.writes hg.wellScoped.reads

/-! ## Aborts -/

theorem Scope.lacksTarget_of_holds {s : Scope} {len : Nat} {state : NameMap Column} (h : s.Holds len state)
    (t dt : Float) : ∀ {vars : List Variable}, (∀ v ∈ vars, v ∈ s.stateVariables) →
      (⟨len, t, dt, state⟩ : Snapshot).lacksTarget vars = false
  | [], _ => rfl
  | v :: vs, hvars => by
    obtain ⟨hv, hvs⟩ := List.forall_mem_cons.1 hvars
    obtain ⟨values, hvalues⟩ := Option.isSome_iff_exists.1 ((h.names v.name).2 (List.mem_map_of_mem hv))
    rw [Snapshot.lacksTarget, hvalues]
    simp only [lacksTarget_of_holds h t dt hvs, Bool.and_false]

/-- A sound group aborts only at a call that leaves an implementation without arguments. -/
theorem Group.hasShortCall_of_aborts {g : Group} (hg : g.Sound) {t dt : Float}
    (h : g.code.aborts (g.snapshot t dt) = true) : g.code.resolved.hasShortCall = true := by
  have hholds : (g.snapshot t dt).aborts g.code.resolved.scope = false := by
    rw [Snapshot.aborts, snapshot, Scope.lacksTarget_of_holds hg.holds t dt fun _ hv => hv, Bool.and_false]
  cases hcode : g.code with
  | interpreted r =>
    rw [hcode] at h hholds
    simp only [CodeObject.aborts, show (g.snapshot t dt).aborts r.scope = false from hholds, Bool.false_or,
      Bool.and_eq_true] at h
    exact h.1.1
  | native c =>
    rw [hcode] at h hholds
    simp only [CodeObject.aborts, show (g.snapshot t dt).aborts c.resolved.scope = false from hholds, Bool.and_false,
      Bool.false_eq_true] at h

end FixedStep
