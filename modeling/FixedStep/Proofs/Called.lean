import FixedStep.Proofs.Kernel.Uses
import FixedStep.Proofs.Registration
/-!
# Called — the functions of a scope are those that its equations call

A lowered expression calls what the expression calls, in the same order (`calledIn_of_lower`), and a scope whose
equations were all lowered has a function under every name they call and under no other (`mem_functions_iff`).
-/
namespace FixedStep

theorem NameMap.mem_names {α : Type} {m : NameMap α} {name : String} : name ∈ m.names ↔ (m.find? name).isSome := by
  rw [names, List.mem_map, Option.isSome_iff_exists]
  constructor
  · rintro ⟨⟨n, value⟩, hmem, rfl⟩
    exact ⟨value, mem_entries_iff.1 hmem⟩
  · rintro ⟨value, hvalue⟩
    exact ⟨(name, value), mem_entries_iff.2 hvalue, rfl⟩

namespace Scope

variable {set : EquationSet} {catalog : Catalog} {constants : Constants} {s : Scope}

theorem functions_of_callee {name : String} {count : Nat} {f : Function} (h : s.callee name count = .ok f) :
    s.functions.find? name = some f :=
  (find?_eq_function.1 (callee_eq_ok.1 h).1).2

theorem lowerName_calls {name : String} {n : Node} {d : Dimension} (h : s.lowerName name = .ok (n, d)) :
    Kernel.calls n = [] := by
  rcases lowerName_eq_ok.1 h with ⟨slot, -, rfl, -⟩ | ⟨q, -, rfl, -⟩ | ⟨reading, -, rfl, -⟩ <;> rfl

mutual

/-- A lowered expression calls functions under the names that the scope has for them. -/
theorem functions_of_lower (hkeyed : catalog.Keyed) (hb : Built set catalog constants s) : ∀ {e : Expr} {n : Node}
    {d : Dimension}, s.lower e = .ok (n, d) → ∀ f ∈ Kernel.calls n, s.functions.find? f.name = some f
  | .number _ _, _, _, h, _, hf => by
    cases h
    exact absurd hf List.not_mem_nil
  | .name _ _, _, _, h, f, hf => by
    rw [lower] at h
    rw [lowerName_calls h] at hf
    exact absurd hf List.not_mem_nil
  | .signed .neg e _, _, _, h, f, hf => by
    obtain ⟨n, hn, rfl⟩ := lower_neg.1 h
    exact functions_of_lower hkeyed hb hn f hf
  | .signed .plus e _, _, _, h, f, hf => by
    rw [lower] at h
    exact functions_of_lower hkeyed hb h f hf
  | .binary op l r sp, _, _, h, f, hf => by
    obtain ⟨ln, ld, rn, rd, hl, hr, -, rfl⟩ := lower_binary.1 h
    rcases List.mem_append.1 hf with hf | hf
    · exact functions_of_lower hkeyed hb hl f hf
    · exact functions_of_lower hkeyed hb hr f hf
  | .call g args sp, _, _, h, f, hf => by
    obtain ⟨called, lowered, hcallee, hargs, -, rfl⟩ := lower_call.1 h
    rcases List.mem_cons.1 hf with rfl | hf
    · obtain ⟨-, hcatalog, -⟩ := callee_ok hb hcallee
      rw [hkeyed _ _ hcatalog]
      exact functions_of_callee hcallee
    · exact functions_of_lowerAll hkeyed hb hargs f hf

theorem functions_of_lowerAll (hkeyed : catalog.Keyed) (hb : Built set catalog constants s) : ∀ {es : List Expr}
    {lowered : List (Node × Dimension)}, s.lowerAll es = .ok lowered →
      ∀ f ∈ Kernel.callsAll (lowered.map (·.1)), s.functions.find? f.name = some f
  | [], _, h, _, hf => by
    cases h
    exact absurd hf List.not_mem_nil
  | e :: es, _, h, f, hf => by
    obtain ⟨⟨n, d⟩, rest, hfirst, hrest, rfl⟩ := lowerAll_cons.1 h
    rcases List.mem_append.1 hf with hf | hf
    · exact functions_of_lower hkeyed hb hfirst f hf
    · exact functions_of_lowerAll hkeyed hb hrest f hf

end

/-! ## Names called -/

mutual

/-- **A lowered expression calls what the expression calls**, in the same order. -/
theorem calledIn_of_lower (hkeyed : catalog.Keyed) (hb : Built set catalog constants s) : ∀ {e : Expr} {n : Node}
    {d : Dimension}, s.lower e = .ok (n, d) → (Kernel.calls n).map (·.name) = calledIn e
  | .number _ _, _, _, h => by
    cases h
    rfl
  | .name _ _, _, _, h => by
    rw [lower] at h
    rw [lowerName_calls h]
    rfl
  | .signed .neg e _, _, _, h => by
    obtain ⟨n, hn, rfl⟩ := lower_neg.1 h
    rw [Kernel.calls, calledIn, calledIn_of_lower hkeyed hb hn]
  | .signed .plus e _, _, _, h => by
    rw [lower] at h
    rw [calledIn, calledIn_of_lower hkeyed hb h]
  | .binary op l r sp, _, _, h => by
    obtain ⟨ln, ld, rn, rd, hl, hr, -, rfl⟩ := lower_binary.1 h
    rw [Kernel.calls, List.map_append, calledIn_of_lower hkeyed hb hl, calledIn_of_lower hkeyed hb hr, calledIn]
  | .call f args sp, _, _, h => by
    obtain ⟨g, lowered, hcallee, hargs, -, rfl⟩ := lower_call.1 h
    obtain ⟨-, hcatalog, -⟩ := callee_ok hb hcallee
    rw [Kernel.calls, List.map_cons, hkeyed _ _ hcatalog, calledInAll_of_lowerAll hkeyed hb hargs, calledIn]

theorem calledInAll_of_lowerAll (hkeyed : catalog.Keyed) (hb : Built set catalog constants s) : ∀ {es : List Expr}
    {lowered : List (Node × Dimension)}, s.lowerAll es = .ok lowered →
      (Kernel.callsAll (lowered.map (·.1))).map (·.name) = calledInAll es
  | [], _, h => by
    cases h
    rfl
  | e :: es, _, h => by
    obtain ⟨⟨n, d⟩, rest, hfirst, hrest, rfl⟩ := lowerAll_cons.1 h
    rw [List.map_cons, Kernel.callsAll, List.map_append, calledIn_of_lower hkeyed hb hfirst,
      calledInAll_of_lowerAll hkeyed hb hrest, calledInAll]

end

/-- The functions of a scope stand under their own names. -/
theorem values_functions (hkeyed : catalog.Keyed) (hb : Built set catalog constants s) :
    s.functions.values.map (·.name) = s.functions.names := by
  refine (List.map_map).trans (List.map_congr_left fun ⟨name, f⟩ hmem => ?_)
  have hf := NameMap.mem_entries_iff.1 hmem
  rw [hb.functions_eq] at hf
  split at hf
  · exact hkeyed name f hf
  · cases hf

/-- **The functions of a scope stand under the names that its equations call**, once all of them have dimensions. -/
theorem mem_functions_iff (hkeyed : catalog.Keyed) (hb : Built set catalog constants s)
    (hlowered : ∀ eq ∈ set.equations, ∀ rhs, eq.rhs = some rhs → ∃ n d, s.lower rhs = .ok (n, d)) (name : String) :
    name ∈ s.functions.names ↔ name ∈ calledNames set := by
  rw [NameMap.mem_names]
  constructor
  · intro hsome
    rw [hb.functions_eq name] at hsome
    split at hsome
    · rename_i hbound
      rcases List.mem_append.1 hbound.1 with hcalled | hused
      · exact hcalled
      · -- a name used as a value stands for one
        obtain ⟨rhs, hrhs, hname⟩ := List.mem_flatMap.1 hused
        obtain ⟨eq, hmem, heq⟩ := List.mem_filterMap.1 hrhs
        obtain ⟨n, d, hn⟩ := hlowered eq hmem rhs heq
        exact absurd ((value?_eq_none hb).1 hbound.2) (used_taken (hasUnit_of_lower hb hn) name hname)
    · cases hsome
  · intro hcalled
    obtain ⟨rhs, hrhs, hname⟩ := List.mem_flatMap.1 hcalled
    obtain ⟨eq, hmem, heq⟩ := List.mem_filterMap.1 hrhs
    obtain ⟨n, d, hn⟩ := hlowered eq hmem rhs heq
    rw [← calledIn_of_lower hkeyed hb hn] at hname
    obtain ⟨f, hf, rfl⟩ := List.mem_map.1 hname
    rw [functions_of_lower hkeyed hb hn f hf]
    rfl

end Scope
end FixedStep
