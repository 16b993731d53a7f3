import FixedStep.Lowering
import FixedStep.Proofs.Scope
/-!
# Lowered — what resolving leaves

For each kind of expression one lemma says what it is lowered to and when (`lower_binary`, `lower_call`); whatever is
proved about lowered expressions goes through these.  State variables have distinct names, and every slot that an update
writes or reads is the slot of one of them (`wellScoped_of_resolve`).
-/
namespace FixedStep
namespace Scope

theorem slot_lt_of_slot? {s : Scope} {name : String} {slot : Nat} (h : s.slot? name = some slot) :
    slot < s.stateVariables.length := by
  obtain ⟨v, hv, -⟩ := getElem?_of_slot? h
  exact (List.getElem?_eq_some_iff.1 hv).1

/-! ## One step of lowering -/

section

variable {s : Scope} {sp : Span} {n : Node} {d : Dimension}

theorem value?_eq_state {name : String} {slot : Nat} :
    s.value? name = some (.state slot) ↔ s.slot? name = some slot := by
  unfold value?
  constructor
  · intro h
    split at h <;> cases h
    assumption
  · intro h
    rw [h]

/-- Of what a name stands for only values are lowered. -/
theorem lowerName_eq_ok {name : String} : s.lowerName name = .ok (n, d) ↔
    (∃ slot, s.value? name = some (.state slot) ∧ n = .state slot ∧ d = s.unitOf slot) ∨
      (∃ q, s.value? name = some (.constant q) ∧ n = .const q.value ∧ d = q.dimension) ∨
        ∃ reading, s.value? name = some (.clock reading) ∧ n = .clock reading ∧ d = .time := by
  rw [lowerName, find?_eq]
  constructor
  · intro h
    cases hvalue : s.value? name with
    | none =>
      rw [hvalue, Option.none_or] at h
      cases hf : s.functions.find? name <;> rw [hf] at h <;> exact absurd h refuse_ne_ok
    | some b =>
      rw [hvalue, Option.some_or] at h
      cases b with
      | state slot =>
        cases h
        exact .inl ⟨slot, rfl, rfl, rfl⟩
      | constant q =>
        cases h
        exact .inr (.inl ⟨q, rfl, rfl, rfl⟩)
      | clock reading =>
        cases h
        exact .inr (.inr ⟨reading, rfl, rfl, rfl⟩)
      | function f => exact absurd h refuse_ne_ok
  · rintro (⟨slot, hvalue, rfl, rfl⟩ | ⟨q, hvalue, rfl, rfl⟩ | ⟨reading, hvalue, rfl, rfl⟩)
    all_goals rw [hvalue, Option.some_or]

theorem callee_eq_ok {name : String} {count : Nat} {g : Function} :
    s.callee name count = .ok g ↔ s.find? name = some (.function g) ∧ count = g.arity := by
  unfold callee
  constructor
  · intro h
    split at h
    · rename_i f hfound
      split at h
      · rename_i hcount
        cases h
        exact ⟨hfound, hcount⟩
      · exact absurd h refuse_ne_ok
    · exact absurd h refuse_ne_ok
    · exact absurd h refuse_ne_ok
  · rintro ⟨hfound, hcount⟩
    rw [hfound]
    exact if_pos hcount

theorem lower_neg {e : Expr} :
    s.lower (.signed .neg e sp) = .ok (n, d) ↔ ∃ operand, s.lower e = .ok (operand, d) ∧ n = .neg operand := by
  simp only [lower, bind_eq_ok, pure_eq_ok, Prod.exists, Prod.mk.injEq]
  constructor
  · rintro ⟨operand, d, h, rfl, rfl⟩
    exact ⟨operand, h, rfl⟩
  · rintro ⟨operand, h, rfl⟩
    exact ⟨operand, d, h, rfl, rfl⟩

theorem lower_binary {op : Operator} {l r : Expr} : s.lower (.binary op l r sp) = .ok (n, d) ↔
    ∃ left ld right rd, s.lower l = .ok (left, ld) ∧ s.lower r = .ok (right, rd) ∧
      operationUnit op (.binary op l r sp) ld right rd = .ok d ∧ n = .binary op left right := by
  simp only [lower, bind_eq_ok, pure_eq_ok, Prod.exists, Prod.mk.injEq]
  constructor
  · rintro ⟨left, ld, hl, right, rd, hr, d, hd, rfl, rfl⟩
    exact ⟨left, ld, right, rd, hl, hr, hd, rfl⟩
  · rintro ⟨left, ld, right, rd, hl, hr, hd, rfl⟩
    exact ⟨left, ld, hl, right, rd, hr, d, hd, rfl, rfl⟩

theorem lower_call {f : Ident} {args : List Expr} : s.lower (.call f args sp) = .ok (n, d) ↔
    ∃ g lowered, s.callee f.name args.length = .ok g ∧ s.lowerAll args = .ok lowered ∧
      g.resultUnit (lowered.map (·.2)) = .ok d ∧ n = .call g (lowered.map (·.1)) := by
  simp only [lower, bind_eq_ok, pure_eq_ok, Prod.mk.injEq, Checked.mapRefusal_eq_ok]
  constructor
  · rintro ⟨g, hcallee, lowered, hargs, d, hd, rfl, rfl⟩
    exact ⟨g, lowered, hcallee, hargs, hd, rfl⟩
  · rintro ⟨g, lowered, hcallee, hargs, hd, rfl⟩
    exact ⟨g, hcallee, lowered, hargs, d, hd, rfl, rfl⟩

theorem lowerAll_cons {e : Expr} {es : List Expr} {lowered : List (Node × Dimension)} :
    s.lowerAll (e :: es) = .ok lowered ↔
      ∃ first rest, s.lower e = .ok first ∧ s.lowerAll es = .ok rest ∧ lowered = first :: rest := by
  simp only [lowerAll, bind_eq_ok, pure_eq_ok]
  constructor
  · rintro ⟨first, hfirst, rest, hrest, rfl⟩
    exact ⟨first, rest, hfirst, hrest, rfl⟩
  · rintro ⟨first, rest, hfirst, hrest, rfl⟩
    exact ⟨first, hfirst, rest, hrest, rfl⟩

end

/-! ## Slots -/

theorem lowerName_slots {s : Scope} {name : String} {n : Node} {d : Dimension} (h : s.lowerName name = .ok (n, d)) :
    ∀ slot ∈ n.slots, slot < s.stateVariables.length := by
  intro slot hslot
  rcases lowerName_eq_ok.1 h with ⟨place, hvalue, rfl, -⟩ | ⟨q, -, rfl, -⟩ | ⟨reading, -, rfl, -⟩
  · obtain rfl := List.mem_singleton.1 hslot
    exact slot_lt_of_slot? (value?_eq_state.1 hvalue)
  · exact absurd hslot List.not_mem_nil
  · exact absurd hslot List.not_mem_nil

mutual

theorem lower_slots {s : Scope} : ∀ {e : Expr} {n : Node} {d : Dimension}, s.lower e = .ok (n, d) →
    ∀ slot ∈ n.slots, slot < s.stateVariables.length
  | .number _ _, _, _, h, _, hslot => by
    cases h
    exact absurd hslot List.not_mem_nil
  | .name _ _, _, _, h, slot, hslot => by
    rw [lower] at h
    exact lowerName_slots h slot hslot
  | .signed .neg e _, _, _, h, slot, hslot => by
    obtain ⟨n, hn, rfl⟩ := lower_neg.1 h
    exact lower_slots hn slot hslot
  | .signed .plus e _, _, _, h, slot, hslot => by
    rw [lower] at h
    exact lower_slots h slot hslot
  | .binary op l r sp, _, _, h, slot, hslot => by
    obtain ⟨ln, ld, rn, rd, hl, hr, -, rfl⟩ := lower_binary.1 h
    rcases List.mem_append.1 hslot with hslot | hslot
    · exact lower_slots hl slot hslot
    · exact lower_slots hr slot hslot
  | .call f args sp, _, _, h, slot, hslot => by
    obtain ⟨g, lowered, -, hargs, -, rfl⟩ := lower_call.1 h
    exact lowerAll_slots hargs slot hslot

theorem lowerAll_slots {s : Scope} : ∀ {es : List Expr} {lowered : List (Node × Dimension)},
    s.lowerAll es = .ok lowered → ∀ slot ∈ Node.slotsAll (lowered.map (·.1)), slot < s.stateVariables.length
  | [], _, h, _, hslot => by
    cases h
    exact absurd hslot List.not_mem_nil
  | e :: es, _, h, slot, hslot => by
    obtain ⟨⟨n, d⟩, rest, hfirst, hrest, rfl⟩ := lowerAll_cons.1 h
    rcases List.mem_append.1 hslot with hslot | hslot
    · exact lower_slots hfirst slot hslot
    · exact lowerAll_slots hrest slot hslot

end

/-- One update for an equation with a right-hand side, and none for another. -/
theorem lowerEquations_cons {s : Scope} {eq : Equation} {eqs : List Equation} {updates : List Update} :
    s.lowerEquations (eq :: eqs) = .ok updates ↔
      (eq.rhs = none ∧ s.lowerEquations eqs = .ok updates) ∨
        ∃ rhs slot node rest, eq.rhs = some rhs ∧ s.slot? eq.target.name = some slot ∧
          s.lower rhs = .ok (node, s.unitOf slot) ∧ s.lowerEquations eqs = .ok rest ∧
            updates = ⟨slot, node⟩ :: rest := by
  rw [lowerEquations]
  constructor
  · intro h
    split at h
    · rename_i hrhs
      exact .inl ⟨hrhs, h⟩
    · rename_i rhs hrhs
      split at h
      · exact absurd h refuse_ne_ok
      · rename_i slot hslot
        obtain ⟨⟨node, found⟩, hlower, h⟩ := bind_eq_ok.1 h
        simp only at h
        split at h
        · obtain ⟨_, hrefused, -⟩ := bind_eq_ok.1 h
          exact absurd hrefused refuse_ne_ok
        · rename_i heq
          obtain ⟨rest, hrest, hpure⟩ := bind_eq_ok.1 h
          obtain rfl := Decidable.not_not.1 heq
          exact .inr ⟨rhs, slot, node, rest, hrhs, hslot, hlower, hrest, (pure_eq_ok.1 hpure).symm⟩
  · rintro (⟨hrhs, hrest⟩ | ⟨rhs, slot, node, rest, hrhs, hslot, hlower, hrest, rfl⟩)
    · rw [hrhs]
      exact hrest
    · rw [hrhs]
      simp only [hslot]
      refine bind_eq_ok.2 ⟨_, hlower, ?_⟩
      rw [if_neg (fun h => h rfl)]
      exact bind_eq_ok.2 ⟨rest, hrest, rfl⟩

end Scope

namespace Resolved

/-- State variables have distinct names, and updates write and read their slots. -/
structure WellScoped (r : Resolved) : Prop where
  distinct : (r.scope.stateVariables.map (·.name)).Nodup
  writes : ∀ u ∈ r.updates, u.target < r.scope.stateVariables.length
  reads : ∀ u ∈ r.updates, ∀ slot ∈ u.node.slots, slot < r.scope.stateVariables.length

theorem updates_slots {s : Scope} : ∀ {eqs : List Equation} {updates : List Update},
    s.lowerEquations eqs = .ok updates → ∀ u ∈ updates,
      u.target < s.stateVariables.length ∧ ∀ slot ∈ u.node.slots, slot < s.stateVariables.length
  | [], _, h, _, hu => by
    cases h
    exact absurd hu List.not_mem_nil
  | eq :: eqs, _, h, u, hu => by
    rcases Scope.lowerEquations_cons.1 h with ⟨-, hrest⟩ | ⟨rhs, slot, node, rest, -, hslot, hlower, hrest, rfl⟩
    · exact updates_slots hrest u hu
    · rcases List.mem_cons.1 hu with rfl | hu
      · exact ⟨Scope.slot_lt_of_slot? hslot, Scope.lower_slots hlower⟩
      · exact updates_slots hrest u hu

variable {set : EquationSet} {catalog : Catalog} {constants : Constants} {r : Resolved}

theorem built_of_resolve (h : resolve set catalog constants = .ok r) : Scope.Built set catalog constants r.scope := by
  obtain ⟨s, hbuild, h⟩ := bind_eq_ok.1 h
  obtain ⟨updates, -, hr⟩ := bind_eq_ok.1 h
  obtain rfl := pure_eq_ok.1 hr
  exact Scope.built_of_build hbuild

theorem updates_of_resolve (h : resolve set catalog constants = .ok r) :
    r.scope.lowerEquations set.equations = .ok r.updates := by
  obtain ⟨s, -, h⟩ := bind_eq_ok.1 h
  obtain ⟨updates, hupdates, hr⟩ := bind_eq_ok.1 h
  obtain rfl := pure_eq_ok.1 hr
  exact hupdates

theorem stateVariables_of_resolve (h : resolve set catalog constants = .ok r) :
    r.scope.stateVariables.map (·.name) = set.equations.map (·.target.name) :=
  (Scope.declare_ok (built_of_resolve h).declared).1

/-- **What resolves is well scoped.** -/
theorem wellScoped_of_resolve (h : resolve set catalog constants = .ok r) : r.WellScoped := by
  have hupdates := updates_of_resolve h
  refine ⟨?_, fun u hu => (updates_slots hupdates u hu).1, fun u hu => (updates_slots hupdates u hu).2⟩
  rw [stateVariables_of_resolve h]
  exact (Scope.nodup_of_declare (built_of_resolve h).declared).1

end Resolved
end FixedStep
