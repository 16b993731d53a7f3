import FixedStep.Proofs.Registration
/-!
# Permanence — what registering functions cannot change

A catalog is told by its history: the registrations in order, some of them refused.  A name keeps the dimensions it was
first declared with (`signature_after`), whatever is registered later, and stands for the last function that was
accepted under it (`find?_after`).
-/
namespace FixedStep
namespace Catalog

variable {c : Catalog} {f : Function} {name : String}

theorem keyed_of_registered (h : c.Registered) : c.Keyed := by
  induction h with
  | empty => exact keyed_empty
  | standard => exact keyed_standard
  | register _ _ hregister ih => exact keyed_register ih hregister

/-- **Every function of a catalog takes its declared inputs to its declared output.** -/
theorem resultUnit_of_registered (h : c.Registered) (hf : c.find? name = some f) :
    f.resultUnit f.signature.inputs = .ok f.signature.output := by
  obtain ⟨d, hbuild⟩ := exists_build_of_registered h hf
  obtain ⟨hcoherent, rfl⟩ := Draft.build_iff.1 hbuild
  exact hcoherent.resultUnit

/-! ## One registration -/

/-- **A function is refused for a name that stands for other declared dimensions**, and for nothing else. -/
theorem register_eq_error (hc : c.Keyed) {e : CatalogError} : (c.register f).1 = .error e ↔
    e = .duplicate f.name ∧ ∃ old, c.find? f.name = some old ∧ old.signature ≠ f.signature := by
  have hcompatible : ∀ old, c.find? f.name = some old → (old.isCompatible f = true ↔ old.signature = f.signature) := by
    intro old hold
    simp [Function.isCompatible, hc _ _ hold]
  rcases register_cases c f with ⟨heq, hall⟩ | ⟨heq, old, hold, hnot⟩ <;> rw [heq]
  · constructor
    · intro h
      cases h
    · rintro ⟨-, old, hold, hne⟩
      exact absurd ((hcompatible old hold).1 (hall old hold)) hne
  · have hne : old.signature ≠ f.signature := fun hsame => by
      rw [(hcompatible old hold).2 hsame] at hnot
      cases hnot
    exact ⟨fun h => ⟨(Except.error.inj h).symm, old, hold, hne⟩, fun h => congrArg _ h.1.symm⟩

/-- **A refused registration leaves the catalog as it is.** -/
theorem register_refused {e : CatalogError} (h : (c.register f).1 = .error e) : (c.register f).2 = c := by
  rcases register_cases c f with ⟨heq, -⟩ | ⟨heq, -⟩ <;> rw [heq] at h ⊢
  cases h

theorem find?_register_of_ne (h : name ≠ f.name) : (c.register f).2.find? name = c.find? name := by
  rcases register_cases c f with ⟨heq, -⟩ | ⟨heq, -⟩
  · rw [heq, find?_register heq, if_neg (Ne.symm h)]
  · rw [heq]

theorem signature_register {old : Function} (h : c.find? name = some old) :
    ∃ g, (c.register f).2.find? name = some g ∧ g.signature = old.signature := by
  rcases register_cases c f with ⟨heq, -⟩ | ⟨heq, -⟩
  · by_cases hname : f.name = name
    · subst hname
      exact ⟨f, by rw [heq, find?_register heq, if_pos rfl], (signature_of_register heq h).symm⟩
    · exact ⟨old, by rw [heq, find?_register heq, if_neg hname, h], rfl⟩
  · exact ⟨old, by rw [heq, h], rfl⟩

theorem registered_register (hc : c.Registered) {d : Draft} (hbuild : d.build = .ok f) :
    (c.register f).2.Registered := by
  rcases register_cases c f with ⟨heq, -⟩ | ⟨heq, -⟩
  · exact .register hc hbuild (by rw [heq])
  · rw [heq]
    exact hc

/-! ## Registrations in order -/

def after (c : Catalog) : List Function → Catalog
  | [] => c
  | f :: fs => (c.register f).2.after fs

def accepted (c : Catalog) : List Function → List Function
  | [] => []
  | f :: fs => if (c.register f).1.isOk then f :: (c.register f).2.accepted fs else (c.register f).2.accepted fs

def lastOf (name : String) (fs : List Function) : Option Function := (fs.filter (·.name == name)).getLast?

theorem after_append (c : Catalog) (fs more : List Function) : c.after (fs ++ more) = (c.after fs).after more := by
  induction fs generalizing c with
  | nil => rfl
  | cons f fs ih => exact ih _

theorem registered_after : ∀ {fs : List Function} {c : Catalog}, c.Registered →
    (∀ f ∈ fs, ∃ d : Draft, d.build = .ok f) → (c.after fs).Registered
  | [], _, hc, _ => hc
  | f :: fs, _, hc, hbuilt => by
    obtain ⟨⟨d, hbuild⟩, hrest⟩ := List.forall_mem_cons.1 hbuilt
    rw [after]
    exact registered_after (registered_register hc hbuild) hrest

/-- **A name keeps its declared dimensions**, and stays. -/
theorem signature_after : ∀ (fs : List Function) {c : Catalog} {old : Function}, c.find? name = some old →
    ∃ g, (c.after fs).find? name = some g ∧ g.signature = old.signature
  | [], _, old, h => ⟨old, h, rfl⟩
  | f :: fs, c, old, h => by
    obtain ⟨g, hg, hsignature⟩ := signature_register (f := f) h
    obtain ⟨g', hg', hsignature'⟩ := signature_after fs hg
    exact ⟨g', hg', hsignature'.trans hsignature⟩

theorem lastOf_cons (name : String) (f : Function) (fs : List Function) :
    lastOf name (f :: fs) = (lastOf name fs).or (if f.name = name then some f else none) := by
  unfold lastOf
  by_cases h : f.name = name
  · rw [List.filter_cons_of_pos (by simpa using h), List.getLast?_cons, if_pos h]
    cases (fs.filter (·.name == name)).getLast? <;> rfl
  · rw [List.filter_cons_of_neg (by simpa using h), if_neg h, Option.or_none]

/-- **A name stands for the last function accepted under it**, or for what it stood for at the start. -/
theorem find?_after : ∀ (fs : List Function) (c : Catalog),
    (c.after fs).find? name = (lastOf name (c.accepted fs)).or (c.find? name)
  | [], _ => rfl
  | f :: fs, c => by
    rw [after, find?_after fs, accepted]
    rcases register_cases c f with ⟨heq, -⟩ | ⟨heq, -⟩
    · -- found only if no later function of its name was accepted
      have hfind := find?_register heq name
      rw [heq, if_pos (by rfl), lastOf_cons, Option.or_assoc, hfind]
      split <;> rfl
    · rw [heq, if_neg (by exact Bool.false_ne_true)]

/-- **What a history leaves fixed** about the catalog after it. -/
structure Permanent (start : Catalog) (calls : List Function) : Prop where
  /-- A registration fails for a name that is there with other declared dimensions, and for nothing else. -/
  refused : ∀ f, (∃ e, ((start.after calls).register f).1 = .error e) ↔
    ∃ old, (start.after calls).find? f.name = some old ∧ old.signature ≠ f.signature
  /-- A failed registration names the function and changes nothing. -/
  unchanged : ∀ f e, ((start.after calls).register f).1 = .error e →
    e = .duplicate f.name ∧ ((start.after calls).register f).2 = start.after calls
  /-- A name that is there stays, with as many arguments and the same declared dimensions. -/
  stays : ∀ name f, (start.after calls).find? name = some f → ∀ more, ∃ g,
    (start.after (calls ++ more)).find? name = some g ∧ g.arity = f.arity ∧ g.signature = f.signature
  /-- A name stands for the last function accepted under it. -/
  last : ∀ name, (start.after calls).find? name = (lastOf name (start.accepted calls)).or (start.find? name)
  others : ∀ f name, name ≠ f.name → ((start.after calls).register f).2.find? name = (start.after calls).find? name
  declared : ∀ name f, (start.after calls).find? name = some f →
    f.name = name ∧ f.resultUnit f.signature.inputs = .ok f.signature.output

/-- **Declared dimensions are permanent**, from any catalog on and through any registrations of functions that were
built. -/
theorem signatures_permanent {start : Catalog} (hstart : start.Registered) {calls : List Function}
    (hbuilt : ∀ f ∈ calls, ∃ d : Draft, d.build = .ok f) : Permanent start calls := by
  have hregistered := registered_after hstart hbuilt
  have hkeyed := keyed_of_registered hregistered
  refine ⟨fun f => ?_, fun f e h => ⟨((register_eq_error hkeyed).1 h).1, register_refused h⟩, fun name f h more => ?_,
    fun _ => find?_after calls start, fun _ _ => find?_register_of_ne,
    fun name f h => ⟨hkeyed name f h, resultUnit_of_registered hregistered h⟩⟩
  · simp only [register_eq_error hkeyed, exists_eq_left]
  · obtain ⟨g, hg, hsignature⟩ := signature_after more h
    rw [after_append]
    exact ⟨g, hg, congrArg (·.inputs.length) hsignature, hsignature⟩

/-- A function of two arguments that has a name of the catalog to start from. -/
def pairedAbs : Draft := { plainAbs with arity := 2 }

/-- With other arguments the name is refused, before and after a function took the place of the first. -/
theorem signatures_permanent_abs :
    let calls := [pairedAbs.function, preservingAbs.function]
    Registered standard ∧ (∀ f ∈ calls, ∃ d : Draft, d.build = .ok f) ∧
      (standard.after calls).find? "abs" = some preservingAbs.function ∧
      ((standard.after calls).register pairedAbs.function).1 = .error (.duplicate "abs") ∧
      (standard.after calls).find? "sin" = standard.find? "sin" := by
  intro calls
  have hbuilt : ∀ f ∈ calls, ∃ d : Draft, d.build = .ok f :=
    List.forall_mem_cons.2 ⟨⟨pairedAbs, rfl⟩, List.forall_mem_cons.2 ⟨⟨preservingAbs, rfl⟩, nofun⟩⟩
  have hpermanent := signatures_permanent .standard hbuilt
  have hlast : (standard.after calls).find? "abs" = some preservingAbs.function := by
    rw [hpermanent.last]
    rfl
  refine ⟨.standard, hbuilt, hlast, ?_, ?_⟩
  · obtain ⟨e, he⟩ := (hpermanent.refused pairedAbs.function).2 ⟨_, hlast, by decide⟩
    rw [he, (hpermanent.unchanged _ _ he).1]
    rfl
  · rw [hpermanent.last]
    rfl

end Catalog
end FixedStep
