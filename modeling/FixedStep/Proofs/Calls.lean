import FixedStep.Proofs.Kernel.Uses
import FixedStep.Proofs.Typing
/-!
# Calls — what a lowered expression calls

Every call is of a function of the catalog, with as many arguments as the function takes.
-/
namespace FixedStep

mutual

/-- Every call, however deep, is of a function that the catalog finds and has as many arguments as that takes. -/
def Node.CallsIn (catalog : Catalog) : Node → Prop
  | .const _ => True
  | .state _ => True
  | .clock _ => True
  | .neg n => n.CallsIn catalog
  | .binary _ l r => l.CallsIn catalog ∧ r.CallsIn catalog
  | .call f args => (∃ name, catalog.find? name = some f) ∧ args.length = f.arity ∧ Node.AllCallIn catalog args

def Node.AllCallIn (catalog : Catalog) : List Node → Prop
  | [] => True
  | n :: ns => n.CallsIn catalog ∧ Node.AllCallIn catalog ns

end

namespace Scope

variable {set : EquationSet} {catalog : Catalog} {constants : Constants} {s : Scope}

theorem lowerName_callsIn {name : String} {n : Node} {d : Dimension} (h : s.lowerName name = .ok (n, d)) :
    n.CallsIn catalog := by
  rcases lowerName_eq_ok.1 h with ⟨slot, -, rfl, -⟩ | ⟨q, -, rfl, -⟩ | ⟨reading, -, rfl, -⟩ <;> exact trivial

mutual

theorem lower_callsIn (hb : Built set catalog constants s) : ∀ {e : Expr} {n : Node} {d : Dimension},
    s.lower e = .ok (n, d) → n.CallsIn catalog
  | .number _ _, _, _, h => by
    cases h
    exact trivial
  | .name _ _, _, _, h => by
    rw [lower] at h
    exact lowerName_callsIn h
  | .signed .neg e _, _, _, h => by
    obtain ⟨n, hn, rfl⟩ := lower_neg.1 h
    have hoperand : n.CallsIn catalog := lower_callsIn hb hn
    exact hoperand
  | .signed .plus e _, _, _, h => by
    rw [lower] at h
    exact lower_callsIn hb h
  | .binary op l r sp, _, _, h => by
    obtain ⟨ln, ld, rn, rd, hl, hr, -, rfl⟩ := lower_binary.1 h
    exact ⟨lower_callsIn hb hl, lower_callsIn hb hr⟩
  | .call f args sp, _, _, h => by
    obtain ⟨g, lowered, hcallee, hargs, -, rfl⟩ := lower_call.1 h
    obtain ⟨-, hg, hcount⟩ := callee_ok hb hcallee
    refine ⟨⟨f.name, hg⟩, ?_, lowerAll_callsIn hb hargs⟩
    rw [List.length_map, lowerAll_length hargs, hcount]

theorem lowerAll_callsIn (hb : Built set catalog constants s) : ∀ {es : List Expr} {lowered : List (Node × Dimension)},
    s.lowerAll es = .ok lowered → Node.AllCallIn catalog (lowered.map (·.1))
  | [], _, h => by
    cases h
    exact trivial
  | e :: es, _, h => by
    obtain ⟨⟨n, d⟩, rest, hfirst, hrest, rfl⟩ := lowerAll_cons.1 h
    exact ⟨lower_callsIn hb hfirst, lowerAll_callsIn hb hrest⟩

end

theorem updates_callsIn (hb : Built set catalog constants s) : ∀ {eqs : List Equation} {updates : List Update},
    s.lowerEquations eqs = .ok updates → ∀ u ∈ updates, u.node.CallsIn catalog
  | [], _, h, _, hu => by
    cases h
    exact absurd hu List.not_mem_nil
  | eq :: eqs, _, h, u, hu => by
    rcases lowerEquations_cons.1 h with ⟨-, hrest⟩ | ⟨rhs, slot, node, rest, -, -, hlower, hrest, rfl⟩
    · exact updates_callsIn hb hrest u hu
    · rcases List.mem_cons.1 hu with rfl | hu
      · exact lower_callsIn hb hlower
      · exact updates_callsIn hb hrest u hu

end Scope

/-- **Updates call functions of the catalog**, with as many arguments as those take. -/
theorem Resolved.callsIn_of_resolve {set : EquationSet} {catalog : Catalog} {constants : Constants} {r : Resolved}
    (h : resolve set catalog constants = .ok r) : ∀ u ∈ r.updates, u.node.CallsIn catalog := by
  obtain ⟨s, hbuild, h⟩ := bind_eq_ok.1 h
  obtain ⟨updates, hupdates, hr⟩ := bind_eq_ok.1 h
  obtain rfl := pure_eq_ok.1 hr
  exact Scope.updates_callsIn (Scope.built_of_build hbuild) hupdates

mutual

theorem Node.found_of_calls {catalog : Catalog} : ∀ {n : Node}, n.CallsIn catalog → ∀ f ∈ Kernel.calls n,
    ∃ name, catalog.find? name = some f
  | .const _, _, _, hf => absurd hf List.not_mem_nil
  | .state _, _, _, hf => absurd hf List.not_mem_nil
  | .clock _, _, _, hf => absurd hf List.not_mem_nil
  | .neg n, h, f, hf => found_of_calls (n := n) h f hf
  | .binary _ l r, h, f, hf => by
    rcases List.mem_append.1 hf with hf | hf
    · exact found_of_calls h.1 f hf
    · exact found_of_calls h.2 f hf
  | .call g args, h, f, hf => by
    rcases List.mem_cons.1 hf with rfl | hf
    · exact h.1
    · exact found_of_callsAll h.2.2 f hf

theorem Node.found_of_callsAll {catalog : Catalog} : ∀ {ns : List Node}, Node.AllCallIn catalog ns →
    ∀ f ∈ Kernel.callsAll ns, ∃ name, catalog.find? name = some f
  | [], _, _, hf => absurd hf List.not_mem_nil
  | _ :: _, h, f, hf => by
    rcases List.mem_append.1 hf with hf | hf
    · exact found_of_calls h.1 f hf
    · exact found_of_callsAll h.2 f hf

end

end FixedStep
