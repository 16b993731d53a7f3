import FixedStep.Kernel
import FixedStep.Proofs.Registration
import FixedStep.Toolchain
/-!
# Relevance — a set of equations depends only on the names it uses

Constants and functions that right-hand sides do not name, and those that something else hides, have no part in what a
set becomes.  Two callers that agree on the rest (`EquationSet.Agreed`) get the same variables, functions, updates and
program, or the same fault (`resolve_of_agreed`).
-/
namespace FixedStep

/-- Two computations that end alike: with the same fault, or with values that are related. -/
inductive Checked.Corresponds {ε α β : Type} (R : α → β → Prop) : Checked ε α → Checked ε β → Prop where
  | ok {a : α} {b : β} : R a b → Corresponds R (.ok a) (.ok b)
  | error (fault : Fault ε) : Corresponds R (.error fault) (.error fault)

namespace Checked.Corresponds

variable {ε α β γ δ : Type} {R : α → β → Prop} {Q : γ → δ → Prop} {x : Checked ε α} {y : Checked ε β}

theorem bind (h : Corresponds R x y) {f : α → Checked ε γ} {g : β → Checked ε δ}
    (hnext : ∀ a b, R a b → Corresponds Q (f a) (g b)) : Corresponds Q (x >>= f) (y >>= g) := by
  cases h with
  | ok hab => exact hnext _ _ hab
  | error fault => exact .error fault

/-- What is read off the values is the same if related values agree on it. -/
theorem map_eq (h : Corresponds R x y) {f : α → γ} {g : β → γ} (hsame : ∀ a b, R a b → f a = g b) :
    x.map f = y.map g := by
  cases h with
  | ok hab => exact congrArg Except.ok (hsame _ _ hab)
  | error fault => rfl

end Checked.Corresponds

/-! ## Scopes that agree -/

namespace Scope

/-- Scopes that stand alike to some names: they have the same variables and functions, the names stand for the same
values, and where a name stands for none, the catalogs have the same function for it. -/
structure Agree (names : List String) (catalog catalog' : Catalog) (s s' : Scope) : Prop where
  stateVariables : s'.stateVariables = s.stateVariables
  functions : s'.functions = s.functions
  values : ∀ name ∈ names, s'.value? name = s.value? name
  known : ∀ name ∈ names, s.value? name = none → catalog'.find? name = catalog.find? name

variable {names : List String} {catalog catalog' : Catalog} {s s' : Scope}

namespace Agree

theorem find? (h : Agree names catalog catalog' s s') {name : String} (hname : name ∈ names) :
    s'.find? name = s.find? name := by
  rw [find?_eq, find?_eq, h.functions, h.values name hname]

theorem unitOf (h : Agree names catalog catalog' s s') (slot : Nat) : s'.unitOf slot = s.unitOf slot := by
  rw [Scope.unitOf, Scope.unitOf, h.stateVariables]

theorem slot? (h : Agree names catalog catalog' s s') (name : String) : s'.slot? name = s.slot? name := by
  rw [Scope.slot?, Scope.slot?, h.stateVariables]

/-- Where a name is bound to a function in both, the scopes agree as before. -/
theorem insert (h : Agree names catalog catalog' s s') (name : String) (f : Function) :
    Agree names catalog catalog' ⟨s.stateVariables, s.constants, s.functions.insert name f⟩
      ⟨s'.stateVariables, s'.constants, s'.functions.insert name f⟩ :=
  ⟨h.stateVariables, congrArg (·.insert name f) h.functions, h.values, h.known⟩

end Agree

/-! ## Binding -/

theorem bindUsed_agree (h : Agree names catalog catalog' s s') {name : String} (hname : name ∈ names) :
    Agree names catalog catalog' (bindUsed catalog s name) (bindUsed catalog' s' name) := by
  unfold bindUsed
  rw [h.find? hname]
  split
  · exact h
  · rename_i hnew
    rw [h.known name hname (value?_of_not_found hnew)]
    cases catalog.find? name with
    | none => exact h
    | some f => exact h.insert name f

/-- **A called name is bound alike**, or refused alike. -/
theorem bindCalled_corresponds (h : Agree names catalog catalog' s s') {name : String} (hname : name ∈ names) :
    Checked.Corresponds (Agree names catalog catalog') (bindCalled catalog s name) (bindCalled catalog' s' name) := by
  have hbound := bindUsed_agree h hname
  have hcondition : (s'.find? name).isSome ∨ (catalog'.find? name).isSome ↔
      (s.find? name).isSome ∨ (catalog.find? name).isSome := by
    rw [h.find? hname]
    cases hfound : s.find? name with
    | some b => simp
    | none =>
      have hvalue : s.value? name = none := value?_of_not_found (Option.not_isSome_iff_eq_none.2 hfound)
      rw [h.known name hname hvalue]
  rw [bindCalled_eq, bindCalled_eq]
  by_cases hcond : (s.find? name).isSome ∨ (catalog.find? name).isSome
  · rw [if_pos hcond, if_pos (hcondition.2 hcond)]
    exact .ok hbound
  · rw [if_neg hcond, if_neg (mt hcondition.1 hcond)]
    exact .error _

theorem foldlM_bindCalled_corresponds : ∀ {more : List String} {s s' : Scope}, more ⊆ names →
    Agree names catalog catalog' s s' → Checked.Corresponds (Agree names catalog catalog')
      (more.foldlM (bindCalled catalog) s) (more.foldlM (bindCalled catalog') s')
  | [], _, _, _, h => .ok h
  | name :: more, _, _, hmore, h => by
    obtain ⟨hname, hmore⟩ := List.cons_subset.1 hmore
    rw [List.foldlM_cons, List.foldlM_cons]
    exact (bindCalled_corresponds h hname).bind fun _ _ hnext => foldlM_bindCalled_corresponds hmore hnext

theorem foldl_bindUsed_agree : ∀ {more : List String} {s s' : Scope}, more ⊆ names →
    Agree names catalog catalog' s s' →
      Agree names catalog catalog' (more.foldl (bindUsed catalog) s) (more.foldl (bindUsed catalog') s')
  | [], _, _, _, h => h
  | name :: more, _, _, hmore, h => by
    obtain ⟨hname, hmore⟩ := List.cons_subset.1 hmore
    rw [List.foldl_cons, List.foldl_cons]
    exact foldl_bindUsed_agree hmore (bindUsed_agree h hname)

/-! ## Lowering -/

theorem lowerName_agree (h : Agree names catalog catalog' s s') {name : String} (hname : name ∈ names) :
    s'.lowerName name = s.lowerName name := by
  rw [lowerName, lowerName, h.find? hname]
  split
  · rw [h.unitOf]
  all_goals rfl

theorem callee_agree (h : Agree names catalog catalog' s s') {name : String} (hname : name ∈ names) (count : Nat) :
    s'.callee name count = s.callee name count := by
  rw [callee, callee, h.find? hname]

mutual

/-- **An expression is lowered alike**, or refused alike, in scopes that agree on its names. -/
theorem lower_agree (h : Agree names catalog catalog' s s') : ∀ {e : Expr}, calledIn e ⊆ names → usedIn e ⊆ names →
    s'.lower e = s.lower e
  | .number _ _, _, _ => rfl
  | .name n _, _, hused => by
    rw [lower, lower, lowerName_agree h (hused List.mem_cons_self)]
  | .signed .neg e _, hcalled, hused => by
    have hoperand := lower_agree h (e := e) hcalled hused
    rw [lower, lower, hoperand]
  | .signed .plus e _, hcalled, hused => by
    have hoperand := lower_agree h (e := e) hcalled hused
    rw [lower, lower, hoperand]
  | .binary op l r _, hcalled, hused => by
    obtain ⟨hcl, hcr⟩ := List.append_subset.1 hcalled
    obtain ⟨hul, hur⟩ := List.append_subset.1 hused
    rw [lower, lower, lower_agree h hcl hul, lower_agree h hcr hur]
  | .call f args _, hcalled, hused => by
    obtain ⟨hf, hargs⟩ := List.cons_subset.1 hcalled
    have hused : usedInAll args ⊆ names := hused
    rw [lower, lower, callee_agree h hf, lowerAll_agree h hargs hused]

theorem lowerAll_agree (h : Agree names catalog catalog' s s') : ∀ {es : List Expr}, calledInAll es ⊆ names →
    usedInAll es ⊆ names → s'.lowerAll es = s.lowerAll es
  | [], _, _ => rfl
  | e :: es, hcalled, hused => by
    obtain ⟨hce, hces⟩ := List.append_subset.1 hcalled
    obtain ⟨hue, hues⟩ := List.append_subset.1 hused
    rw [lowerAll, lowerAll, lower_agree h hce hue, lowerAll_agree h hces hues]

end

theorem lowerEquations_agree (h : Agree names catalog catalog' s s') : ∀ {eqs : List Equation},
    (eqs.filterMap (·.rhs)).flatMap calledIn ⊆ names → (eqs.filterMap (·.rhs)).flatMap usedIn ⊆ names →
      s'.lowerEquations eqs = s.lowerEquations eqs
  | [], _, _ => rfl
  | eq :: eqs, hcalled, hused => by
    rw [lowerEquations, lowerEquations, h.slot?]
    cases hrhs : eq.rhs with
    | none =>
      rw [List.filterMap_cons_none hrhs] at hcalled hused
      exact lowerEquations_agree h hcalled hused
    | some rhs =>
      rw [List.filterMap_cons_some hrhs, List.flatMap_cons] at hcalled hused
      obtain ⟨hcalled, hcalledRest⟩ := List.append_subset.1 hcalled
      obtain ⟨hused, husedRest⟩ := List.append_subset.1 hused
      cases s.slot? eq.target.name with
      | none => rfl
      | some slot =>
        dsimp only
        rw [lower_agree h hcalled hused, lowerEquations_agree h hcalledRest husedRest, h.unitOf]

end Scope

/-! ## Programs -/

namespace Kernel

mutual

/-- A program names variables, and knows nothing else of a scope. -/
theorem expression_congr {s s' : Scope} (h : s'.stateVariables = s.stateVariables) : ∀ n : Node,
    expression s' n = expression s n
  | .const _ => rfl
  | .state slot => by rw [expression, expression, Scope.nameOf, Scope.nameOf, h]
  | .clock _ => rfl
  | .neg n => by rw [expression, expression, expression_congr h n]
  | .binary op l r => by
    cases op <;> simp only [expression, expression_congr h l, expression_congr h r]
  | .call f args => by rw [expression, expression, expressions_congr h args]

theorem expressions_congr {s s' : Scope} (h : s'.stateVariables = s.stateVariables) : ∀ ns : List Node,
    expressions s' ns = expressions s ns
  | [] => rfl
  | n :: ns => by rw [expressions, expressions, expression_congr h n, expressions_congr h ns]

end

theorem generate_congr {r r' : Resolved} (hvars : r'.scope.stateVariables = r.scope.stateVariables)
    (hupdates : r'.updates = r.updates) : generate r' = generate r := by
  have hname : r'.scope.nameOf = r.scope.nameOf := by
    funext slot
    rw [Scope.nameOf, Scope.nameOf, hvars]
  have hstatement : statement r'.scope = statement r.scope := by
    funext u
    rw [statement, statement, hname, expression_congr hvars]
  simp only [generate, functionsUsed, Resolved.targets, hvars, hupdates, hname, hstatement]

end Kernel

/-! ## Sets of equations -/

/-- **Two callers agree on a set**: for every name in a right-hand side that is no state variable they have the same
constant or none, and where that is no constant and no reading of the clock, the same function or none. -/
def EquationSet.Agreed (set : EquationSet) (catalog catalog' : Catalog) (constants constants' : Constants) : Prop :=
  ∀ name ∈ Scope.calledNames set ++ Scope.usedNames set, ¬ set.Declares name →
    constants'.find? name = constants.find? name ∧
      (constants.find? name = none → name ≠ "t" → name ≠ "dt" → catalog'.find? name = catalog.find? name)

/-- All of a resolved set but the constants of the caller, with the program that is generated from it. -/
structure Resolved.Contents where
  stateVariables : List Variable
  functions : List Function
  updates : List Update
  kernel : Kernel

def Resolved.contents (r : Resolved) : Contents :=
  ⟨r.scope.stateVariables, r.scope.functions.values, r.updates, Kernel.generate r⟩

variable {set : EquationSet} {catalog catalog' : Catalog} {constants constants' : Constants}

/-- Before any function is bound, the scopes of two callers agree if the callers do. -/
theorem Scope.agree_of_agreed (h : set.Agreed catalog catalog' constants constants') {vars : List Variable}
    (hvars : declare [] 0 set.equations = .ok vars) :
    Agree (calledNames set ++ usedNames set) catalog catalog' ⟨vars, constants, .empty⟩ ⟨vars, constants', .empty⟩ := by
  have hslot : ∀ name, (⟨vars, constants, .empty⟩ : Scope).slot? name = none ↔ ¬ set.Declares name := by
    intro name
    rw [slot?_eq_none, (declare_ok hvars).1]
    simp only [List.mem_map, EquationSet.Declares]
  refine ⟨rfl, rfl, fun name hname => ?_, fun name hname hvalue => ?_⟩
  · have hsame : (⟨vars, constants', .empty⟩ : Scope).slot? name = (⟨vars, constants, .empty⟩ : Scope).slot? name := rfl
    rw [value?, value?, hsame]
    cases hs : (⟨vars, constants, .empty⟩ : Scope).slot? name with
    | some slot => rfl
    | none => rw [(h name hname ((hslot name).1 hs)).1]
  · unfold value? at hvalue
    split at hvalue
    case h_4 hs hc hr =>
      obtain ⟨ht, hdt⟩ := reading?_eq_none.1 hr
      exact (h name hname ((hslot name).1 hs)).2 hc ht hdt
    all_goals cases hvalue

/-- **Callers that agree on a set get scopes that agree**, or the same fault. -/
theorem Scope.build_corresponds (h : set.Agreed catalog catalog' constants constants') :
    Checked.Corresponds (Agree (calledNames set ++ usedNames set) catalog catalog') (build set catalog constants)
      (build set catalog' constants') := by
  unfold build
  cases hvars : declare [] 0 set.equations with
  | error fault => exact .error fault
  | ok vars =>
    have hcalled := foldlM_bindCalled_corresponds (List.subset_append_left _ _) (agree_of_agreed h hvars)
    exact hcalled.bind fun _ _ hbound => .ok (foldl_bindUsed_agree (List.subset_append_right _ _) hbound)

theorem resolve_corresponds (h : set.Agreed catalog catalog' constants constants') :
    Checked.Corresponds (fun r r' => r.contents = r'.contents) (resolve set catalog constants)
      (resolve set catalog' constants') := by
  refine (Scope.build_corresponds h).bind fun s s' hscope => ?_
  rw [Scope.lowerEquations_agree hscope (List.subset_append_left _ _) (List.subset_append_right _ _)]
  cases s.lowerEquations set.equations with
  | error fault => exact .error fault
  | ok updates =>
    have hkernel : Kernel.generate ⟨s', updates⟩ = Kernel.generate ⟨s, updates⟩ :=
      Kernel.generate_congr hscope.stateVariables rfl
    refine .ok ?_
    rw [Resolved.contents, Resolved.contents, hkernel, hscope.stateVariables, hscope.functions]

/-- **Only the names that a set uses matter.**  For callers that agree on them a set has the same variables, functions,
updates and program, or the same fault, and so a toolchain has the same key for the program. -/
theorem resolve_of_agreed (h : set.Agreed catalog catalog' constants constants') :
    (resolve set catalog constants).map Resolved.contents = (resolve set catalog' constants').map Resolved.contents ∧
      ∀ toolchain : Toolchain, (resolve set catalog constants).map (fun r => toolchain.key (Kernel.generate r).source) =
        (resolve set catalog' constants').map (fun r => toolchain.key (Kernel.generate r).source) := by
  have hsame := resolve_corresponds h
  refine ⟨hsame.map_eq fun _ _ hcontents => hcontents, fun toolchain => hsame.map_eq fun r r' hcontents => ?_⟩
  have hkernel : Kernel.generate r = Kernel.generate r' := congrArg Resolved.Contents.kernel hcontents
  rw [hkernel]

/-- A caller that knows one function, and constants that the set does not name or hides, agrees on it with one that
knows every function and no constant. -/
theorem resolve_of_agreed_absolute :
    let abs := Catalog.builtin "abs" Float.abs .preserve "#define abs fabs"
    let constants : Constants := .ofList [("q", ⟨2, .one⟩), ("v", ⟨1, .one⟩)]
    absolute.Agreed .standard (.ofList [("abs", abs)]) .empty constants ∧
      ∃ contents, (resolve absolute .standard .empty).map Resolved.contents = .ok contents ∧
        (resolve absolute (.ofList [("abs", abs)]) constants).map Resolved.contents = .ok contents := by
  intro abs constants
  have hagreed : absolute.Agreed .standard (.ofList [("abs", abs)]) .empty constants := by
    intro name hname hfree
    have hnames : Scope.calledNames absolute ++ Scope.usedNames absolute = ["abs", "v"] := rfl
    rw [hnames] at hname
    obtain rfl | hname := List.mem_cons.1 hname
    · exact ⟨rfl, fun _ _ _ => rfl⟩
    · obtain rfl := List.mem_singleton.1 hname
      exact absurd ⟨_, List.mem_cons_of_mem _ List.mem_cons_self, rfl⟩ hfree
  obtain ⟨r, hr⟩ : ∃ r, resolve absolute .standard .empty = .ok r := ⟨_, rfl⟩
  have hcontents : (resolve absolute .standard .empty).map Resolved.contents = .ok r.contents := by rw [hr]; rfl
  exact ⟨hagreed, r.contents, hcontents, (resolve_of_agreed hagreed).1.symm.trans hcontents⟩

end FixedStep
