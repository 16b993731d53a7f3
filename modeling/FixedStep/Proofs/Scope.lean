import FixedStep.Proofs.Fault
import FixedStep.Proofs.NameMap
import FixedStep.Scope
/-!
# Scope — what a set of equations leaves in its scope

The state variables of a scope are its equations, one for one (`declare_ok`), and they can be declared when the targets
are distinct and every unit states a dimension (`exists_declare`).  A function is bound for every name that the set uses
and that stands for nothing else, and for no other name (`Built`).
-/
namespace FixedStep
namespace Scope

/-! ## State variables -/

theorem declare_cons {taken : List String} {k : Nat} {eq : Equation} {eqs : List Equation} {vars : List Variable} :
    declare taken k (eq :: eqs) = .ok vars ↔
      eq.target.name ∉ taken ∧ ∃ unit rest, eq.unit.unit = .ok unit ∧
        declare (eq.target.name :: taken) (k + if eq.rhs.isSome then 1 else 0) eqs = .ok rest ∧
        vars = ⟨eq.target.name, unit, eq.rhs.map fun _ => k⟩ :: rest := by
  rw [declare]
  split
  · rename_i hmem
    exact ⟨fun h => absurd h refuse_ne_ok, fun h => absurd hmem h.1⟩
  · rename_i hmem
    simp only [bind_eq_ok, Checked.mapRefusal_eq_ok, pure_eq_ok]
    constructor
    · rintro ⟨unit, hunit, rest, hrest, rfl⟩
      exact ⟨hmem, unit, rest, hunit, hrest, rfl⟩
    · rintro ⟨-, unit, rest, hunit, hrest, rfl⟩
      exact ⟨unit, hunit, rest, hrest, rfl⟩

/-- **The state variables are the equations**, with the dimensions that their units state. -/
theorem declare_ok : ∀ {eqs : List Equation} {taken : List String} {k : Nat} {vars : List Variable},
    declare taken k eqs = .ok vars →
      vars.map (·.name) = eqs.map (·.target.name) ∧ vars.map (fun v => Except.ok v.unit) = eqs.map (·.unit.unit)
  | [], _, _, _, h => by
    obtain rfl := Except.ok.inj h
    exact ⟨rfl, rfl⟩
  | eq :: eqs, _, _, _, h => by
    obtain ⟨-, unit, rest, hunit, hrest, rfl⟩ := declare_cons.1 h
    obtain ⟨hnames, hunits⟩ := declare_ok hrest
    exact ⟨congrArg _ hnames, by rw [List.map_cons, List.map_cons, hunits, hunit]⟩

theorem nodup_of_declare : ∀ {eqs : List Equation} {taken : List String} {k : Nat} {vars : List Variable},
    declare taken k eqs = .ok vars →
      (eqs.map (·.target.name)).Nodup ∧ ∀ name ∈ taken, name ∉ eqs.map (·.target.name)
  | [], _, _, _, _ => ⟨List.nodup_nil, fun _ _ h => by cases h⟩
  | eq :: eqs, taken, _, _, h => by
    obtain ⟨hfresh, unit, rest, -, hrest, rfl⟩ := declare_cons.1 h
    obtain ⟨hnodup, hdisjoint⟩ := nodup_of_declare hrest
    refine ⟨List.nodup_cons.2 ⟨hdisjoint _ List.mem_cons_self, hnodup⟩, fun name hname hmem => ?_⟩
    rcases List.mem_cons.1 hmem with rfl | hmem
    · exact hfresh hname
    · exact hdisjoint name (List.mem_cons_of_mem _ hname) hmem

theorem exists_declare : ∀ {eqs : List Equation} (taken : List String) (k : Nat),
    (eqs.map (·.target.name)).Nodup → (∀ name ∈ taken, name ∉ eqs.map (·.target.name)) →
      (∀ eq ∈ eqs, ∃ d, eq.unit.unit = .ok d) → ∃ vars, declare taken k eqs = .ok vars
  | [], _, _, _, _, _ => ⟨[], rfl⟩
  | eq :: eqs, taken, k, hnodup, hdisjoint, hunits => by
    obtain ⟨hhead, htail⟩ := List.nodup_cons.1 hnodup
    obtain ⟨unit, hunit⟩ := hunits eq List.mem_cons_self
    obtain ⟨rest, hrest⟩ := exists_declare (eq.target.name :: taken)
      (k + if eq.rhs.isSome then 1 else 0) htail (fun name hname hmem => by
        rcases List.mem_cons.1 hname with rfl | hname
        · exact hhead hmem
        · exact hdisjoint name hname (List.mem_cons_of_mem _ hmem)) (fun e he => hunits e (List.mem_cons_of_mem _ he))
    exact ⟨_, declare_cons.2 ⟨fun h => hdisjoint _ h List.mem_cons_self, unit, rest, hunit, hrest, rfl⟩⟩

/-! ## Slots -/

theorem slot?_eq_none {s : Scope} {name : String} : s.slot? name = none ↔ name ∉ s.stateVariables.map (·.name) := by
  simp only [slot?, List.findIdx?_eq_none_iff, List.mem_map, beq_eq_false_iff_ne]
  exact ⟨fun h ⟨v, hv, hname⟩ => h v hv hname, fun h v hv hname => h ⟨v, hv, hname⟩⟩

/-- A slot is the place of a variable with the name. -/
theorem getElem?_of_slot? {s : Scope} {name : String} {slot : Nat} (h : s.slot? name = some slot) :
    ∃ v, s.stateVariables[slot]? = some v ∧ v.name = name := by
  obtain ⟨hlt, hname, -⟩ := List.findIdx?_eq_some_iff_getElem.1 h
  exact ⟨s.stateVariables[slot], List.getElem?_eq_getElem hlt, by simpa using hname⟩

/-- Where no name is taken twice, a variable's name leads to its place. -/
theorem slot?_of_getElem? {s : Scope} (hnodup : (s.stateVariables.map (·.name)).Nodup) {slot : Nat} {v : Variable}
    (h : s.stateVariables[slot]? = some v) : s.slot? v.name = some slot := by
  obtain ⟨hlt, rfl⟩ := List.getElem?_eq_some_iff.1 h
  refine List.findIdx?_eq_some_iff_getElem.2 ⟨hlt, by simp, fun j hj => ?_⟩
  have hne := List.pairwise_iff_getElem.1 hnodup j slot (by simp; omega) (by simpa using hlt) hj
  simpa using hne

theorem slot?_nameOf {s : Scope} (hnodup : (s.stateVariables.map (·.name)).Nodup) {slot : Nat}
    (hslot : slot < s.stateVariables.length) : s.slot? (s.nameOf slot) = some slot := by
  have hget := List.getElem?_eq_getElem hslot
  rw [nameOf, hget]
  exact slot?_of_getElem? hnodup hget

/-! ## Bindings -/

/-- What a name stands for when it is no function. -/
def value? (s : Scope) (name : String) : Option Binding :=
  match s.slot? name, s.constants.find? name, reading? name with
  | some slot, _, _ => some (.state slot)
  | none, some q, _ => some (.constant q)
  | none, none, some r => some (.clock r)
  | none, none, none => none

theorem find?_eq (s : Scope) (name : String) :
    s.find? name = (s.value? name).or ((s.functions.find? name).map .function) := by
  unfold find? value?
  cases s.slot? name with
  | some slot => rfl
  | none =>
    cases s.constants.find? name with
    | some q => rfl
    | none => cases reading? name <;> rfl

/-- A name is found as a function where it stands for no value. -/
theorem find?_eq_function {s : Scope} {name : String} {g : Function} :
    s.find? name = some (.function g) ↔ s.value? name = none ∧ s.functions.find? name = some g := by
  rw [find?_eq]
  cases hvalue : s.value? name with
  | none => simp
  | some b =>
    unfold value? at hvalue
    split at hvalue <;> cases hvalue <;> simp

/-- The names that right-hand sides call. -/
def calledNames (set : EquationSet) : List String := (set.equations.filterMap (·.rhs)).flatMap calledIn

/-- The names that right-hand sides use as values. -/
def usedNames (set : EquationSet) : List String := (set.equations.filterMap (·.rhs)).flatMap usedIn

/-- **What building a scope leaves**: functions are bound under the names called or used that stand for nothing else. -/
structure Built (set : EquationSet) (catalog : Catalog) (constants : Constants) (s : Scope) : Prop where
  declared : declare [] 0 set.equations = .ok s.stateVariables
  constants_eq : s.constants = constants
  functions_eq : ∀ name, s.functions.find? name =
    if name ∈ calledNames set ++ usedNames set ∧ s.value? name = none then catalog.find? name else none
  known : ∀ name ∈ calledNames set, s.value? name = none → (catalog.find? name).isSome

/-- The functions that some names have brought into a scope. -/
def Bound (catalog : Catalog) (names : List String) (s : Scope) : Prop :=
  ∀ name, s.functions.find? name = if name ∈ names ∧ s.value? name = none then catalog.find? name else none

theorem isSome_find? {catalog : Catalog} {names : List String} {s : Scope} (hbound : Bound catalog names s)
    (name : String) : (s.find? name).isSome ↔
      s.value? name ≠ none ∨ name ∈ names ∧ s.value? name = none ∧ catalog.find? name ≠ none := by
  rw [find?_eq, hbound name]
  cases hv : s.value? name with
  | some b => simp
  | none =>
    by_cases hmem : name ∈ names
    · cases hc : catalog.find? name <;> simp [hmem]
    · simp [hmem]

/-- The names bound after one more, where a name that stands for nothing yet brings in its function. -/
theorem bound_insert {catalog : Catalog} {names : List String} {s : Scope} (hbound : Bound catalog names s)
    {name : String} {f : Function} (hvalue : s.value? name = none) (hf : catalog.find? name = some f) :
    Bound catalog (names ++ [name]) ⟨s.stateVariables, s.constants, s.functions.insert name f⟩ := by
  intro other
  have hsame : (⟨s.stateVariables, s.constants, s.functions.insert name f⟩ : Scope).value? other = s.value? other := rfl
  rw [hsame, NameMap.find?_insert, hbound other]
  by_cases hother : name = other
  · subst hother
    simp [hvalue, hf]
  · simp [hother, Ne.symm hother]

/-- A name that was bound, or has no function, changes nothing. -/
theorem bound_skip {catalog : Catalog} {names : List String} {s : Scope} (hbound : Bound catalog names s)
    {name : String} (hskip : (s.find? name).isSome ∨ catalog.find? name = none) :
    Bound catalog (names ++ [name]) s := by
  intro other
  rw [hbound other]
  by_cases hother : other = name
  · subst hother
    rcases hskip with hfound | hnone
    · rcases (isSome_find? hbound other).1 hfound with hvalue | ⟨hmem, -, -⟩
      · simp [hvalue]
      · simp [hmem]
    · simp [hnone]
  · simp [hother]

theorem value?_of_not_found {s : Scope} {name : String} (h : ¬ (s.find? name).isSome) : s.value? name = none := by
  rw [Option.not_isSome_iff_eq_none, find?_eq] at h
  exact (Option.or_eq_none_iff.1 h).1

/-- **What one binding keeps.** -/
theorem bindUsed_bound {catalog : Catalog} {names : List String} {s : Scope} (hbound : Bound catalog names s)
    (name : String) : Bound catalog (names ++ [name]) (bindUsed catalog s name) ∧
      (bindUsed catalog s name).stateVariables = s.stateVariables ∧
      (bindUsed catalog s name).constants = s.constants := by
  unfold bindUsed
  split
  · rename_i hfound
    exact ⟨bound_skip hbound (.inl hfound), rfl, rfl⟩
  · rename_i hfound
    split
    · rename_i f hf
      exact ⟨bound_insert hbound (value?_of_not_found hfound) hf, rfl, rfl⟩
    · rename_i hnone
      exact ⟨bound_skip hbound (.inr hnone), rfl, rfl⟩

/-- A called name is bound like a used one, and has to be known. -/
theorem bindCalled_eq {catalog : Catalog} {s : Scope} {name : String} :
    bindCalled catalog s name =
      if (s.find? name).isSome ∨ (catalog.find? name).isSome then .ok (bindUsed catalog s name)
      else refuse (.unknownFunction name) := by
  unfold bindCalled bindUsed
  by_cases hfound : (s.find? name).isSome
  · simp [hfound]
  · cases catalog.find? name <;> simp [hfound]

theorem foldl_bindUsed {catalog : Catalog} : ∀ (more names : List String) {s : Scope}, Bound catalog names s →
    Bound catalog (names ++ more) (more.foldl (bindUsed catalog) s) ∧
      (more.foldl (bindUsed catalog) s).stateVariables = s.stateVariables ∧
      (more.foldl (bindUsed catalog) s).constants = s.constants
  | [], names, s, hbound => ⟨by rwa [List.append_nil], rfl, rfl⟩
  | name :: more, names, s, hbound => by
    obtain ⟨hnext, hvars, hconstants⟩ := bindUsed_bound hbound name
    obtain ⟨hrest, hvars', hconstants'⟩ := foldl_bindUsed more (names ++ [name]) hnext
    rw [List.append_assoc, List.singleton_append] at hrest
    exact ⟨hrest, hvars'.trans hvars, hconstants'.trans hconstants⟩

theorem value?_congr {s s' : Scope} (hvars : s'.stateVariables = s.stateVariables)
    (hconstants : s'.constants = s.constants) (name : String) : s'.value? name = s.value? name := by
  unfold value? slot?
  rw [hvars, hconstants]

/-- **Binding called names** succeeds when each is known or stands for something else, and binds them like used ones. -/
theorem foldlM_bindCalled {catalog : Catalog} (s' : Scope) : ∀ (more names : List String) {s : Scope},
    Bound catalog names s → (more.foldlM (bindCalled catalog) s = .ok s' ↔
      (∀ name ∈ more, s.value? name = none → (catalog.find? name).isSome) ∧ s' = more.foldl (bindUsed catalog) s)
  | [], names, s, hbound => by
    rw [List.foldlM_nil, pure_eq_ok]
    exact ⟨fun h => ⟨nofun, h.symm⟩, fun h => h.2.symm⟩
  | name :: more, names, s, hbound => by
    obtain ⟨hnext, hvars, hconstants⟩ := bindUsed_bound hbound name
    have ih := foldlM_bindCalled s' more (names ++ [name]) hnext
    -- a name found only as a function was bound from the catalog, so the catalog decides for it too
    have hknown : (s.find? name).isSome ∨ (catalog.find? name).isSome ↔
        (s.value? name = none → (catalog.find? name).isSome) := by
      rw [isSome_find? hbound]
      cases s.value? name <;> cases catalog.find? name <;> simp
    rw [List.foldlM_cons, bindCalled_eq, List.foldl_cons]
    split
    · rename_i hcond
      rw [show ((Except.ok (bindUsed catalog s name) : Checked CompileError Scope) >>= fun s => more.foldlM _ s) =
        more.foldlM (bindCalled catalog) (bindUsed catalog s name) from rfl, ih]
      simp only [List.forall_mem_cons, value?_congr hvars hconstants]
      have hhead := hknown.1 hcond
      exact ⟨fun ⟨htail, heq⟩ => ⟨⟨hhead, htail⟩, heq⟩, fun ⟨⟨_, htail⟩, heq⟩ => ⟨htail, heq⟩⟩
    · rename_i hcond
      refine ⟨fun h => absurd h (by nofun), fun h => absurd ?_ hcond⟩
      exact hknown.2 (h.1 name List.mem_cons_self)

theorem build_iff {set : EquationSet} {catalog : Catalog} {constants : Constants} {s : Scope} :
    build set catalog constants = .ok s ↔ ∃ vars, declare [] 0 set.equations = .ok vars ∧
      (∀ name ∈ calledNames set, (⟨vars, constants, .empty⟩ : Scope).value? name = none → (catalog.find? name).isSome) ∧
      s = (calledNames set ++ usedNames set).foldl (bindUsed catalog) ⟨vars, constants, .empty⟩ := by
  have hempty : ∀ vars, Bound catalog [] ⟨vars, constants, .empty⟩ := fun vars name => by simp [NameMap.find?_empty]
  unfold build
  simp only [bind_eq_ok, pure_eq_ok, List.foldl_append]
  constructor
  · rintro ⟨vars, hvars, called, hcalled, rfl⟩
    obtain ⟨hknown, rfl⟩ := (foldlM_bindCalled _ (calledNames set) [] (hempty vars)).1 hcalled
    exact ⟨vars, hvars, hknown, rfl⟩
  · rintro ⟨vars, hvars, hknown, rfl⟩
    exact ⟨vars, hvars, _, (foldlM_bindCalled _ (calledNames set) [] (hempty vars)).2 ⟨hknown, rfl⟩, rfl⟩

theorem built_of_build {set : EquationSet} {catalog : Catalog} {constants : Constants} {s : Scope}
    (h : build set catalog constants = .ok s) : Built set catalog constants s := by
  obtain ⟨vars, hvars, hknown, rfl⟩ := build_iff.1 h
  have hempty : Bound catalog [] ⟨vars, constants, .empty⟩ := fun name => by simp [NameMap.find?_empty]
  obtain ⟨hbound, hsame, hconstants⟩ := foldl_bindUsed (calledNames set ++ usedNames set) [] hempty
  refine ⟨hsame ▸ hvars, hconstants, hbound, fun name hname hvalue => hknown name hname ?_⟩
  rwa [value?_congr hsame hconstants] at hvalue

end Scope
end FixedStep
