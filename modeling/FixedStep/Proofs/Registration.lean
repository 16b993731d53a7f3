import FixedStep.Catalog.Builtin
import FixedStep.Proofs.Calls
import FixedStep.Proofs.Draft
/-!
# Registration — what a growing catalog leaves alone

A set of equations that resolves is resolved again after a function was registered, and the outcome is known: the same
scope and the same trees, with the new function where the one of its name was (`Resolved.renew`).  A function under a
new name is called nowhere.  One that replaces another has the declared dimensions of that, but its rule may differ, and
the rule is what calls are judged by; so all depends on the calls of that name (`Function.FitsAt`).
-/
namespace FixedStep

namespace Catalog

/-- **Every function stands under its own name.** -/
def Keyed (c : Catalog) : Prop := ∀ name f, c.find? name = some f → f.name = name

theorem keyed_empty : Keyed .empty := nofun

theorem keyed_ofList (fs : List Function) : Keyed (.ofList (fs.map fun f => (f.name, f))) := by
  intro name f h
  rcases NameMap.mem_or_find?_of_insertAll h with hmem | hfound
  · obtain ⟨g, -, heq⟩ := List.mem_map.1 hmem
    obtain ⟨rfl, rfl⟩ := Prod.mk.inj heq
    rfl
  · cases hfound

theorem keyed_standard : Keyed standard := keyed_ofList builtins

variable {c after : Catalog} {f : Function}

/-- **A function is put under its name, or refused** for one that is there with other declared dimensions. -/
theorem register_cases (c : Catalog) (f : Function) :
    (c.register f = (.ok (), c.insert f.name f) ∧ ∀ old, c.find? f.name = some old → old.isCompatible f = true) ∨
      c.register f = (.error (.duplicate f.name), c) ∧ ∃ old, c.find? f.name = some old ∧ old.isCompatible f = false := by
  unfold register
  cases hold : c.find? f.name with
  | none => exact .inl ⟨rfl, nofun⟩
  | some old =>
    cases hcompatible : old.isCompatible f with
    | true => exact .inl ⟨by simp only [hcompatible, if_true], fun _ h => Option.some.inj h ▸ hcompatible⟩
    | false => exact .inr ⟨by simp only [hcompatible, Bool.false_eq_true, if_false], old, rfl, hcompatible⟩

theorem insert_of_register (h : c.register f = (.ok (), after)) : after = c.insert f.name f := by
  rcases register_cases c f with ⟨heq, -⟩ | ⟨heq, -⟩ <;> cases heq.symm.trans h
  rfl

theorem find?_register (h : c.register f = (.ok (), after)) (name : String) :
    after.find? name = if f.name = name then some f else c.find? name := by
  rw [insert_of_register h]
  exact NameMap.find?_insert c f.name f name

/-- A function replaces one with its declared dimensions. -/
theorem signature_of_register (h : c.register f = (.ok (), after)) {old : Function} (hold : c.find? f.name = some old) :
    old.signature = f.signature := by
  rcases register_cases c f with ⟨-, hcompatible⟩ | ⟨heq, -⟩
  · have hsame := hcompatible old hold
    simp only [Function.isCompatible, Bool.and_eq_true, beq_iff_eq] at hsame
    exact hsame.2
  · cases heq.symm.trans h

theorem keyed_register (hc : c.Keyed) (h : c.register f = (.ok (), after)) : after.Keyed := by
  intro name g hg
  rw [find?_register h] at hg
  split at hg
  · rename_i hname
    obtain rfl := Option.some.inj hg
    exact hname
  · exact hc name g hg

/-- **The catalogs there are**: the empty one, the one to start from, and what registering functions makes of these.
A function can only come from a draft. -/
inductive Registered : Catalog → Prop where
  | empty : Registered .empty
  | standard : Registered standard
  | register {c after : Catalog} {d : Draft} {f : Function} :
    Registered c → d.build = .ok f → c.register f = (.ok (), after) → Registered after

theorem exists_build_builtin (name : String) (f : Float → Float) {rule : UnitRule} (defines : String)
    (hrule : rule [.one] = .ok .one) : ∃ d : Draft, d.build = .ok (builtin name f rule defines) := by
  refine ⟨{ name, arity := 1, implementation := unary f, leastArguments := 1, rule := some rule,
            native := some ⟨"", defines⟩ }, Draft.build_iff.2 ⟨⟨rfl, ?_, nofun, nofun⟩, rfl⟩⟩
  intro rule' hrule'
  obtain rfl := Option.some.inj hrule'
  exact hrule

theorem exists_build_of_mem_builtins : ∀ f ∈ builtins, ∃ d : Draft, d.build = .ok f := by
  simp only [builtins, List.forall_mem_cons]
  and_intros
  -- a rule for each, and each takes plain numbers to plain numbers
  all_goals first | exact exists_build_builtin _ _ _ rfl | exact nofun

/-- **Every function of a catalog was built**, so it keeps to its declared dimensions. -/
theorem exists_build_of_registered {c : Catalog} (h : c.Registered) :
    ∀ {name : String} {f : Function}, c.find? name = some f → ∃ d : Draft, d.build = .ok f := by
  induction h with
  | empty => nofun
  | standard =>
    intro name f hf
    rcases NameMap.mem_or_find?_of_insertAll hf with hmem | hfound
    · obtain ⟨g, hg, heq⟩ := List.mem_map.1 hmem
      obtain ⟨-, rfl⟩ := Prod.mk.inj heq
      exact exists_build_of_mem_builtins g hg
    · cases hfound
  | register _ hbuild hregister ih =>
    intro name f hf
    rw [find?_register hregister] at hf
    split at hf
    · obtain rfl := Option.some.inj hf
      exact ⟨_, hbuild⟩
    · exact ih hf

end Catalog

/-! ## A function in place of the one of its name -/

def Function.renew (f g : Function) : Function := if g.name = f.name then f else g

mutual

/-- The tree with `f` called wherever a function of its name is called. -/
def Node.renew (f : Function) : Node → Node
  | .const v => .const v
  | .state slot => .state slot
  | .clock reading => .clock reading
  | .neg n => .neg (n.renew f)
  | .binary op l r => .binary op (l.renew f) (r.renew f)
  | .call g args => .call (f.renew g) (Node.renewAll f args)

def Node.renewAll (f : Function) : List Node → List Node
  | [] => []
  | n :: ns => n.renew f :: Node.renewAll f ns

end

def Scope.renew (f : Function) (s : Scope) : Scope :=
  ⟨s.stateVariables, s.constants, if s.functions.contains f.name then s.functions.insert f.name f else s.functions⟩

/-- **The equations with `f` in place of the function of its name**; nothing else changes. -/
def Resolved.renew (f : Function) (r : Resolved) : Resolved :=
  ⟨r.scope.renew f, r.updates.map fun u => ⟨u.target, u.node.renew f⟩⟩

theorem Node.constant?_renew (f : Function) : ∀ n : Node, (n.renew f).constant? = n.constant?
  | .const _ => rfl
  | .state _ => rfl
  | .clock _ => rfl
  | .neg n => congrArg (Option.map Float.neg) (constant?_renew f n)
  | .binary _ _ _ => rfl
  | .call _ _ => rfl

mutual

/-- Where no function has the name, nothing changes. -/
theorem Node.renew_of_callsIn {catalog : Catalog} (hkeyed : catalog.Keyed) {f : Function}
    (hnew : catalog.find? f.name = none) : ∀ {n : Node}, n.CallsIn catalog → n.renew f = n
  | .const _, _ => rfl
  | .state _, _ => rfl
  | .clock _, _ => rfl
  | .neg n, h => congrArg Node.neg (renew_of_callsIn hkeyed hnew (n := n) h)
  | .binary _ l r, h => by
    rw [renew, renew_of_callsIn hkeyed hnew h.1, renew_of_callsIn hkeyed hnew h.2]
  | .call g args, h => by
    obtain ⟨name, hg⟩ := h.1
    have hne : g.name ≠ f.name := by
      intro heq
      rw [← hkeyed name g hg, heq, hnew] at hg
      cases hg
    rw [renew, Function.renew, if_neg hne, renewAll_of_callsIn hkeyed hnew h.2.2]

theorem Node.renewAll_of_callsIn {catalog : Catalog} (hkeyed : catalog.Keyed) {f : Function}
    (hnew : catalog.find? f.name = none) : ∀ {ns : List Node}, Node.AllCallIn catalog ns → renewAll f ns = ns
  | [], _ => rfl
  | _ :: _, h => by
    rw [renewAll, renew_of_callsIn hkeyed hnew h.1, renewAll_of_callsIn hkeyed hnew h.2]

end

/-! ## The parts of expressions -/

mutual

/-- An expression and everything in it. -/
def Expr.parts : Expr → List Expr
  | .number v sp => [.number v sp]
  | .name n sp => [.name n sp]
  | .signed sign e sp => .signed sign e sp :: e.parts
  | .binary op l r sp => .binary op l r sp :: (l.parts ++ r.parts)
  | .call f args sp => .call f args sp :: Expr.partsAll args

def Expr.partsAll : List Expr → List Expr
  | [] => []
  | e :: es => e.parts ++ Expr.partsAll es

end

theorem Expr.mem_parts_self (e : Expr) : e ∈ e.parts := by cases e <;> exact List.mem_cons_self

theorem Expr.mem_partsAll : ∀ {es : List Expr} {p : Expr}, p ∈ Expr.partsAll es ↔ ∃ e ∈ es, p ∈ e.parts
  | [], _ => ⟨nofun, fun ⟨_, he, _⟩ => nomatch he⟩
  | e :: es, p => by
    rw [partsAll, List.mem_append, mem_partsAll]
    simp only [List.mem_cons, exists_eq_or_imp]

mutual

theorem Expr.parts_trans {p q : Expr} (hp : p ∈ q.parts) : ∀ {e : Expr}, q ∈ e.parts → p ∈ e.parts
  | .number _ _, h => List.mem_singleton.1 h ▸ hp
  | .name _ _, h => List.mem_singleton.1 h ▸ hp
  | .signed _ e _, h => by
    rcases List.mem_cons.1 h with rfl | h
    · exact hp
    · exact List.mem_cons_of_mem _ (parts_trans hp h)
  | .binary _ l r _, h => by
    rcases List.mem_cons.1 h with rfl | h
    · exact hp
    · rcases List.mem_append.1 h with h | h
      · exact List.mem_cons_of_mem _ (List.mem_append_left _ (parts_trans hp h))
      · exact List.mem_cons_of_mem _ (List.mem_append_right _ (parts_trans hp h))
  | .call _ args _, h => by
    rcases List.mem_cons.1 h with rfl | h
    · exact hp
    · exact List.mem_cons_of_mem _ (partsAll_trans hp h)

theorem Expr.partsAll_trans {p q : Expr} (hp : p ∈ q.parts) :
    ∀ {es : List Expr}, q ∈ Expr.partsAll es → p ∈ Expr.partsAll es
  | _ :: _, h => by
    rcases List.mem_append.1 h with h | h
    · exact List.mem_append_left _ (parts_trans hp h)
    · exact List.mem_append_right _ (partsAll_trans hp h)

end

mutual

theorem Scope.calledIn_of_parts {p : Expr} {name : String} (hname : name ∈ calledIn p) :
    ∀ {e : Expr}, p ∈ e.parts → name ∈ calledIn e
  | .number _ _, h => List.mem_singleton.1 h ▸ hname
  | .name _ _, h => List.mem_singleton.1 h ▸ hname
  | .signed _ e _, h => by
    rcases List.mem_cons.1 h with rfl | h
    · exact hname
    · exact calledIn_of_parts hname (e := e) h
  | .binary _ l r _, h => by
    rcases List.mem_cons.1 h with rfl | h
    · exact hname
    · rcases List.mem_append.1 h with h | h
      · exact List.mem_append_left _ (calledIn_of_parts hname h)
      · exact List.mem_append_right _ (calledIn_of_parts hname h)
  | .call _ args _, h => by
    rcases List.mem_cons.1 h with rfl | h
    · exact hname
    · exact List.mem_cons_of_mem _ (calledInAll_of_parts hname h)

theorem Scope.calledInAll_of_parts {p : Expr} {name : String} (hname : name ∈ calledIn p) :
    ∀ {es : List Expr}, p ∈ Expr.partsAll es → name ∈ calledInAll es
  | _ :: _, h => by
    rcases List.mem_append.1 h with h | h
    · exact List.mem_append_left _ (calledIn_of_parts hname h)
    · exact List.mem_append_right _ (calledInAll_of_parts hname h)

end

/-- Everything in the right-hand sides. -/
def EquationSet.parts (set : EquationSet) : List Expr := (set.equations.filterMap (·.rhs)).flatMap Expr.parts

theorem EquationSet.mem_parts {set : EquationSet} {p : Expr} :
    p ∈ set.parts ↔ ∃ eq ∈ set.equations, ∃ rhs, eq.rhs = some rhs ∧ p ∈ rhs.parts := by
  simp only [parts, List.mem_flatMap, List.mem_filterMap]
  constructor
  · rintro ⟨rhs, ⟨eq, heq, hrhs⟩, hp⟩
    exact ⟨eq, heq, rhs, hrhs, hp⟩
  · rintro ⟨eq, heq, rhs, hrhs, hp⟩
    exact ⟨rhs, ⟨eq, heq, hrhs⟩, hp⟩

/-! ## Calls of the replaced function -/

/-- **`f` fits at an expression**: if that calls the function of `f`'s name, then `f` gives the dimension that the one
in the catalog gives to the arguments there. -/
def Function.FitsAt (f : Function) (set : EquationSet) (catalog : Catalog) (constants : Constants) : Expr → Prop
  | .call name args _ => name.name = f.name → ∀ old units d, catalog.find? f.name = some old →
      HasUnits set catalog constants args units → old.Yields units d → f.Yields units d
  | _ => True

/-- A function with the rule and the declared dimensions of another yields what that yields. -/
theorem Function.Yields.of_rule_eq {f old : Function} (hrule : old.rule = f.rule) (hsignature : old.signature = f.signature)
    {units : List Dimension} {d : Dimension} (h : old.Yields units d) : f.Yields units d := by
  rwa [Yields, hrule, hsignature] at h

/-- **What is always fitting**: the rule of the function replaced; and, where that has no rule, the rule of a function
that was built, because it confirms the declared dimensions. -/
theorem Function.fitsAt_of_rule {f : Function} {set : EquationSet} {catalog : Catalog} {constants : Constants}
    (hsignature : ∀ old, catalog.find? f.name = some old → old.signature = f.signature)
    (hrule : ∀ old, catalog.find? f.name = some old →
      old.rule = f.rule ∨ old.rule = none ∧ ∃ draft : Draft, draft.build = .ok f) :
    ∀ e : Expr, f.FitsAt set catalog constants e := by
  intro e
  cases e with
  | number | name | signed | binary => trivial
  | call =>
    intro _ old units d hold _ hyields
    have hsame := hsignature old hold
    rcases hrule old hold with hrule | ⟨hnone, draft, hbuild⟩
    · exact hyields.of_rule_eq hrule hsame
    · -- without a rule the arguments were those declared
      rcases hyields with ⟨rule, hsome, -⟩ | ⟨-, rfl, rfl⟩
      · cases hnone.symm.trans hsome
      · rw [hsame]
        cases hf : f.rule with
        | none => exact .inr ⟨hf, rfl, rfl⟩
        | some rule =>
          obtain ⟨hcoherent, rfl⟩ := Draft.build_iff.1 hbuild
          exact .inl ⟨rule, hf, hcoherent.rule rule hf⟩

/-! ## The scope before and after -/

namespace Scope

/-- The scopes of a set of equations before and after `f` was registered. -/
structure Grown (set : EquationSet) (catalog catalog' : Catalog) (constants : Constants) (f : Function) (s s' : Scope) :
    Prop where
  before : Built set catalog constants s
  after : Built set catalog' constants s'
  keyed : catalog.Keyed
  found : ∀ name, catalog'.find? name = if f.name = name then some f else catalog.find? name
  signature : ∀ old, catalog.find? f.name = some old → old.signature = f.signature

variable {set : EquationSet} {catalog catalog' : Catalog} {constants : Constants} {f : Function} {s s' : Scope}

namespace Grown

theorem stateVariables (h : Grown set catalog catalog' constants f s s') : s'.stateVariables = s.stateVariables :=
  Except.ok.inj (h.after.declared.symm.trans h.before.declared)

theorem value? (h : Grown set catalog catalog' constants f s s') (name : String) : s'.value? name = s.value? name :=
  value?_congr h.stateVariables (h.after.constants_eq.trans h.before.constants_eq.symm) name

theorem slot? (h : Grown set catalog catalog' constants f s s') (name : String) : s'.slot? name = s.slot? name := by
  rw [Scope.slot?, Scope.slot?, h.stateVariables]

theorem unitOf (h : Grown set catalog catalog' constants f s s') (slot : Nat) : s'.unitOf slot = s.unitOf slot := by
  rw [Scope.unitOf, Scope.unitOf, h.stateVariables]

/-- A function found before is found after, or `f` if it had the name. -/
theorem find?_function (h : Grown set catalog catalog' constants f s s') {name : String} {g : Function}
    (hg : s.find? name = some (.function g)) : s'.find? name = some (.function (f.renew g)) := by
  obtain ⟨hvalue, hbound⟩ := find?_eq_function.1 hg
  obtain ⟨-, hcatalog⟩ := free_of_function h.before hg
  have hkey := h.keyed name g hcatalog
  rw [h.before.functions_eq name] at hbound
  split at hbound
  · rename_i hname
    refine find?_eq_function.2 ⟨(h.value? name).trans hvalue, ?_⟩
    rw [h.after.functions_eq name, h.value?, if_pos hname, h.found, hcatalog, Function.renew, hkey]
    by_cases hf : f.name = name
    · simp only [hf, if_true]
    · simp only [hf, Ne.symm hf, if_false]
  · cases hbound

end Grown

theorem lowerName_grown (h : Grown set catalog catalog' constants f s s') {name : String} {n : Node} {d : Dimension}
    (hn : s.lowerName name = .ok (n, d)) : s'.lowerName name = .ok (n.renew f, d) := by
  rcases lowerName_eq_ok.1 hn with ⟨slot, hvalue, rfl, rfl⟩ | ⟨q, hvalue, rfl, rfl⟩ | ⟨reading, hvalue, rfl, rfl⟩
  · exact lowerName_eq_ok.2 (.inl ⟨slot, by rw [h.value?, hvalue], rfl, by rw [h.unitOf]⟩)
  · exact lowerName_eq_ok.2 (.inr (.inl ⟨q, by rw [h.value?, hvalue], rfl, rfl⟩))
  · exact lowerName_eq_ok.2 (.inr (.inr ⟨reading, by rw [h.value?, hvalue], rfl, rfl⟩))

theorem callee_grown (h : Grown set catalog catalog' constants f s s') {name : String} {count : Nat} {g : Function}
    (hg : s.callee name count = .ok g) : s'.callee name count = .ok (f.renew g) := by
  obtain ⟨-, hcatalog, hcount⟩ := callee_ok h.before hg
  have harity : count = (f.renew g).arity := by
    unfold Function.renew
    split
    · rename_i hname
      rw [← h.keyed name g hcatalog, hname] at hcatalog
      rw [hcount, Function.arity, Function.arity, h.signature g hcatalog]
    · exact hcount
  exact callee_eq_ok.2 ⟨h.find?_function (callee_eq_ok.1 hg).1, harity⟩

theorem operationUnit_renew (op : Operator) (e : Expr) (a b : Dimension) (n : Node) :
    operationUnit op e a (n.renew f) b = operationUnit op e a n b := by
  cases op with
  | pow => rw [operationUnit, operationUnit, Node.constant?_renew]
  | _ => rfl

mutual

/-- **An expression that was lowered is lowered again**, to the same dimension, if `f` fits at everything in it. -/
theorem lower_grown (h : Grown set catalog catalog' constants f s s') : ∀ {e : Expr} {n : Node} {d : Dimension},
    (∀ p ∈ e.parts, f.FitsAt set catalog constants p) → s.lower e = .ok (n, d) → s'.lower e = .ok (n.renew f, d)
  | .number _ _, _, _, _, hn => by
    cases hn
    rfl
  | .name _ _, _, _, _, hn => by
    rw [lower] at hn ⊢
    exact lowerName_grown h hn
  | .signed .neg e _, _, _, hfits, hn => by
    have hoperand : ∀ p ∈ e.parts, f.FitsAt set catalog constants p := fun p hp => hfits p (List.mem_cons_of_mem _ hp)
    obtain ⟨n, hlower, rfl⟩ := lower_neg.1 hn
    exact lower_neg.2 ⟨_, lower_grown h hoperand hlower, rfl⟩
  | .signed .plus e _, _, _, hfits, hn => by
    have hoperand : ∀ p ∈ e.parts, f.FitsAt set catalog constants p := fun p hp => hfits p (List.mem_cons_of_mem _ hp)
    rw [lower] at hn ⊢
    exact lower_grown h hoperand hn
  | .binary op l r sp, _, _, hfits, hn => by
    have hleft : ∀ p ∈ l.parts, f.FitsAt set catalog constants p := fun p hp =>
      hfits p (List.mem_cons_of_mem _ (List.mem_append_left _ hp))
    have hright : ∀ p ∈ r.parts, f.FitsAt set catalog constants p := fun p hp =>
      hfits p (List.mem_cons_of_mem _ (List.mem_append_right _ hp))
    obtain ⟨ln, ld, rn, rd, hl, hr, hd, rfl⟩ := lower_binary.1 hn
    exact lower_binary.2
      ⟨_, ld, _, rd, lower_grown h hleft hl, lower_grown h hright hr, (operationUnit_renew ..).trans hd, rfl⟩
  | .call name args sp, _, _, hfits, hn => by
    have hargs : ∀ p ∈ Expr.partsAll args, f.FitsAt set catalog constants p := fun p hp =>
      hfits p (List.mem_cons_of_mem _ hp)
    have hhere : f.FitsAt set catalog constants (.call name args sp) := hfits _ List.mem_cons_self
    obtain ⟨g, lowered, hcallee, hlowered, hd, rfl⟩ := lower_call.1 hn
    have hcallee' := callee_grown h hcallee
    obtain ⟨lowered', hlowered', hnodes, hunits⟩ := lowerAll_grown h hargs hlowered
    refine lower_call.2 ⟨f.renew g, lowered', hcallee', hlowered', ?_, by rw [hnodes, Node.renew]⟩
    rw [hunits]
    by_cases hname : g.name = f.name
    · -- a call of the function replaced: `f` gives the same dimension to the same arguments
      obtain ⟨-, hcatalog, hcount⟩ := callee_ok h.before hcallee
      have hkey := h.keyed name.name g hcatalog
      have hold : catalog.find? f.name = some g := by rw [← hname, hkey, hcatalog]
      have hlen : (lowered.map (·.2)).length = g.arity := by rw [List.length_map, lowerAll_length hlowered, hcount]
      have hlen' : (lowered.map (·.2)).length = f.arity := by
        rw [hlen, Function.arity, Function.arity, h.signature g hold]
      have hyields := (Function.resultUnit_eq_ok hlen).1 hd
      rw [Function.renew, if_pos hname]
      exact (Function.resultUnit_eq_ok hlen').2
        (hhere (hkey.symm.trans hname) g _ _ hold (hasUnits_of_lowerAll h.before hlowered) hyields)
    · rw [Function.renew, if_neg hname]
      exact hd

theorem lowerAll_grown (h : Grown set catalog catalog' constants f s s') : ∀ {es : List Expr}
    {lowered : List (Node × Dimension)}, (∀ p ∈ Expr.partsAll es, f.FitsAt set catalog constants p) →
      s.lowerAll es = .ok lowered → ∃ lowered', s'.lowerAll es = .ok lowered' ∧
        lowered'.map (·.1) = Node.renewAll f (lowered.map (·.1)) ∧ lowered'.map (·.2) = lowered.map (·.2)
  | [], _, _, hlowered => by
    cases hlowered
    exact ⟨[], rfl, rfl, rfl⟩
  | e :: es, _, hfits, hlowered => by
    have hhead : ∀ p ∈ e.parts, f.FitsAt set catalog constants p := fun p hp =>
      hfits p (List.mem_append_left _ hp)
    have htail : ∀ p ∈ Expr.partsAll es, f.FitsAt set catalog constants p := fun p hp =>
      hfits p (List.mem_append_right _ hp)
    obtain ⟨⟨n, d⟩, rest, hfirst, hrest, rfl⟩ := lowerAll_cons.1 hlowered
    obtain ⟨rest', hrest', hnodes, hunits⟩ := lowerAll_grown h htail hrest
    refine ⟨_, lowerAll_cons.2 ⟨_, rest', lower_grown h hhead hfirst, hrest', rfl⟩, ?_, ?_⟩
    · rw [List.map_cons, List.map_cons, hnodes, Node.renewAll]
    · rw [List.map_cons, List.map_cons, hunits]

end

theorem lowerEquations_grown (h : Grown set catalog catalog' constants f s s') : ∀ {eqs : List Equation}
    {updates : List Update}, (∀ eq ∈ eqs, ∀ rhs, eq.rhs = some rhs → ∀ p ∈ rhs.parts, f.FitsAt set catalog constants p) →
      s.lowerEquations eqs = .ok updates →
        s'.lowerEquations eqs = .ok (updates.map fun u => ⟨u.target, u.node.renew f⟩)
  | [], _, _, hupdates => by
    cases hupdates
    rfl
  | eq :: eqs, _, hfits, hupdates => by
    obtain ⟨hhead, htail⟩ := List.forall_mem_cons.1 hfits
    refine lowerEquations_cons.2 ?_
    rcases lowerEquations_cons.1 hupdates with ⟨hrhs, hrest⟩ | ⟨rhs, slot, node, rest, hrhs, hslot, hlower, hrest, rfl⟩
    · exact .inl ⟨hrhs, lowerEquations_grown h htail hrest⟩
    · refine .inr ⟨rhs, slot, node.renew f, _, hrhs, (h.slot? _).trans hslot, ?_, lowerEquations_grown h htail hrest, rfl⟩
      rw [h.unitOf]
      exact lower_grown h (hhead rhs hrhs) hlower

mutual

/-- A name used as a value stands for one. -/
theorem used_taken : ∀ {e : Expr} {d : Dimension}, HasUnit set catalog constants e d →
    ∀ name ∈ usedIn e, ¬ set.LeavesFree constants name
  | .number _ _, _, _, _, hname, _ => absurd hname List.not_mem_nil
  | .name _ _, _, h, name, hname, hfree => by
    obtain rfl := List.mem_singleton.1 hname
    cases h with
    | state _ hmem _ => exact hfree.undeclared ⟨_, hmem, rfl⟩
    | constant _ _ hq => exact absurd (hfree.notConstant.symm.trans hq) nofun
    | clock _ _ _ hclock =>
      rcases hclock with ht | hdt
      · exact hfree.notClock.1 ht
      · exact hfree.notClock.2 hdt
  | .signed _ _ _, _, .signed _ _ h, name, hname, hfree => used_taken h name hname hfree
  | .binary op l r sp, _, h, name, hname, hfree => by
    obtain ⟨a, b, hl, hr, -⟩ := operation_of_hasUnit (e := .binary op l r sp) h
    rcases List.mem_append.1 hname with hname | hname
    · exact used_taken hl name hname hfree
    · exact used_taken hr name hname hfree
  | .call _ _ _, _, .call _ _ _ _ hargs _, name, hname, hfree => used_taken_all hargs name hname hfree

theorem used_taken_all : ∀ {es : List Expr} {ds : List Dimension}, HasUnits set catalog constants es ds →
    ∀ name ∈ usedInAll es, ¬ set.LeavesFree constants name
  | [], _, .nil, _, hname, _ => absurd hname List.not_mem_nil
  | _ :: _, _, .cons h hs, name, hname, hfree => by
    rcases List.mem_append.1 hname with hname | hname
    · exact used_taken h name hname hfree
    · exact used_taken_all hs name hname hfree

end

/-- Where equations resolve, a function is bound for a name that stands for no value exactly when it is called. -/
theorem scope_eq_renew (h : Grown set catalog catalog' constants f s s')
    (hequal : ∀ eq ∈ set.equations, ∀ rhs, eq.rhs = some rhs → ∃ d, HasUnit set catalog constants rhs d) :
    s' = s.renew f := by
  have hused : ∀ name ∈ usedNames set, s.value? name ≠ none := by
    intro name hname hvalue
    obtain ⟨rhs, hrhs, hname⟩ := List.mem_flatMap.1 hname
    obtain ⟨eq, hmem, heq⟩ := List.mem_filterMap.1 hrhs
    obtain ⟨d, hd⟩ := hequal eq hmem rhs heq
    exact used_taken hd name hname ((value?_eq_none h.before).1 hvalue)
  have hcontains : s.functions.contains f.name = true ↔
      f.name ∈ calledNames set ++ usedNames set ∧ s.value? f.name = none := by
    rw [NameMap.contains, h.before.functions_eq f.name]
    constructor
    · intro hsome
      split at hsome
      · assumption
      · cases hsome
    · intro hbound
      rw [if_pos hbound]
      rcases List.mem_append.1 hbound.1 with hcalled | hname
      · exact h.before.known f.name hcalled hbound.2
      · exact absurd hbound.2 (hused f.name hname)
  have hfunctions : s'.functions = (s.renew f).functions := by
    refine NameMap.ext_find? fun name => ?_
    rw [h.after.functions_eq name, h.value?, h.found, renew]
    by_cases hname : f.name = name
    · subst hname
      rw [if_pos rfl]
      split
      · rename_i hbound
        rw [if_pos (hcontains.2 hbound), NameMap.find?_insert, if_pos rfl]
      · rename_i hbound
        rw [if_neg fun hsome => hbound (hcontains.1 hsome), h.before.functions_eq, if_neg hbound]
    · rw [if_neg hname, ← h.before.functions_eq name]
      split
      · rw [NameMap.find?_insert, if_neg hname]
      · rfl
  have hvars := h.stateVariables
  have hconstants := h.after.constants_eq.trans h.before.constants_eq.symm
  cases s'
  cases s
  cases hvars
  cases hconstants
  cases hfunctions
  rfl

/-- After the registration there is a scope as there was before. -/
theorem exists_grown (hkeyed : catalog.Keyed) (hregister : catalog.register f = (.ok (), catalog'))
    (hbuild : build set catalog constants = .ok s) :
    ∃ s', build set catalog' constants = .ok s' ∧ Grown set catalog catalog' constants f s s' := by
  obtain ⟨vars, hvars, hknown, -⟩ := build_iff.1 hbuild
  have hknown' : ∀ name ∈ calledNames set, (⟨vars, constants, .empty⟩ : Scope).value? name = none →
      (catalog'.find? name).isSome := by
    intro name hname hvalue
    rw [Catalog.find?_register hregister]
    split
    · rfl
    · exact hknown name hname hvalue
  have hbuild' := build_iff.2 ⟨vars, hvars, hknown', rfl⟩
  exact ⟨_, hbuild', built_of_build hbuild, built_of_build hbuild', hkeyed, Catalog.find?_register hregister,
    fun _ => Catalog.signature_of_register hregister⟩

end Scope

/-! ## Sets of equations -/

/-- An expression has one dimension, in a set that calls what it calls. -/
theorem HasUnit.unique {set : EquationSet} {catalog : Catalog} {constants : Constants} {s : Scope}
    (hb : Scope.Built set catalog constants s) {e : Expr} (hcalled : ∀ name ∈ Scope.calledIn e, name ∈ Scope.calledNames set)
    {d d' : Dimension} (h : HasUnit set catalog constants e d) (h' : HasUnit set catalog constants e d') : d = d' := by
  obtain ⟨n, hn⟩ := Scope.lower_of_hasUnit hb hcalled h
  obtain ⟨n', hn'⟩ := Scope.lower_of_hasUnit hb hcalled h'
  exact congrArg Prod.snd (Except.ok.inj (hn.symm.trans hn'))

theorem HasUnits.unique {set : EquationSet} {catalog : Catalog} {constants : Constants} {s : Scope}
    (hb : Scope.Built set catalog constants s) : ∀ {es : List Expr} {ds ds' : List Dimension},
      (∀ e ∈ es, ∀ name ∈ Scope.calledIn e, name ∈ Scope.calledNames set) → HasUnits set catalog constants es ds →
        HasUnits set catalog constants es ds' → ds = ds'
  | [], _, _, _, .nil, .nil => rfl
  | _ :: _, _, _, hcalled, .cons h hs, .cons h' hs' => by
    obtain ⟨hhead, htail⟩ := List.forall_mem_cons.1 hcalled
    rw [h.unique hb hhead h', hs.unique hb htail hs']

theorem HasUnits.transfer {set : EquationSet} {catalog catalog' : Catalog} {constants : Constants} :
    ∀ {es : List Expr} {ds : List Dimension},
      (∀ e ∈ es, ∀ d, HasUnit set catalog constants e d → HasUnit set catalog' constants e d) →
        HasUnits set catalog constants es ds → HasUnits set catalog' constants es ds
  | [], _, _, .nil => .nil
  | _ :: _, _, h, .cons hd hds => by
    obtain ⟨hhead, htail⟩ := List.forall_mem_cons.1 h
    exact .cons (hhead _ hd) (HasUnits.transfer htail hds)

section

variable {set : EquationSet} {catalog catalog' : Catalog} {constants : Constants} {f : Function} {r : Resolved}

mutual

/-- Where an expression has a dimension, everything in it has one. -/
theorem HasUnit.of_parts : ∀ {e p : Expr} {d : Dimension}, HasUnit set catalog constants e d → p ∈ e.parts →
    ∃ d', HasUnit set catalog constants p d'
  | .number _ _, _, _, h, hp => List.mem_singleton.1 hp ▸ ⟨_, h⟩
  | .name _ _, _, _, h, hp => List.mem_singleton.1 hp ▸ ⟨_, h⟩
  | .signed _ e _, _, _, .signed sign sp h, hp => by
    rcases List.mem_cons.1 hp with rfl | hp
    · exact ⟨_, .signed sign sp h⟩
    · exact h.of_parts hp
  | .binary op l r sp, _, _, h, hp => by
    rcases List.mem_cons.1 hp with rfl | hp
    · exact ⟨_, h⟩
    · obtain ⟨a, b, hl, hr, -⟩ := Scope.operation_of_hasUnit (e := .binary op l r sp) h
      rcases List.mem_append.1 hp with hp | hp
      · exact hl.of_parts hp
      · exact hr.of_parts hp
  | .call _ _ _, _, _, .call sp hfree hg hcount hargs hd, hp => by
    rcases List.mem_cons.1 hp with rfl | hp
    · exact ⟨_, .call sp hfree hg hcount hargs hd⟩
    · exact hargs.of_partsAll hp

theorem HasUnits.of_partsAll : ∀ {es : List Expr} {p : Expr} {ds : List Dimension}, HasUnits set catalog constants es ds →
    p ∈ Expr.partsAll es → ∃ d', HasUnit set catalog constants p d'
  | _ :: _, _, _, .cons h hs, hp => by
    rcases List.mem_append.1 hp with hp | hp
    · exact h.of_parts hp
    · exact hs.of_partsAll hp

end

theorem EquationSet.calledIn_of_mem_parts {p : Expr} (hp : p ∈ set.parts) :
    ∀ name ∈ Scope.calledIn p, name ∈ Scope.calledNames set := by
  intro name hname
  obtain ⟨eq, hmem, rhs, hrhs, hp⟩ := mem_parts.1 hp
  exact Scope.called_of_mem hmem hrhs name (Scope.calledIn_of_parts hname hp)

theorem EquationSet.parts_trans {p q : Expr} (hp : p ∈ q.parts) (hq : q ∈ set.parts) : p ∈ set.parts := by
  obtain ⟨eq, hmem, rhs, hrhs, hq⟩ := mem_parts.1 hq
  exact mem_parts.2 ⟨eq, hmem, rhs, hrhs, Expr.parts_trans hp hq⟩

/-- **Where no dimension moved, `f` fits.** -/
theorem Function.fitsAt_of_hasUnit {s s' : Scope} (h : Scope.Grown set catalog catalog' constants f s s')
    (hwell : set.WellDimensioned catalog constants)
    (hunits : ∀ e ∈ set.parts, ∀ d, HasUnit set catalog constants e d → HasUnit set catalog' constants e d) :
    ∀ e ∈ set.parts, f.FitsAt set catalog constants e
  | .number _ _, _ => trivial
  | .name _ _, _ => trivial
  | .signed _ _ _, _ => trivial
  | .binary _ _ _ _, _ => trivial
  | .call name args sp, hmem => by
    intro hname old units d hold hargs hyields
    have hmemArgs : ∀ a ∈ args, a ∈ set.parts := fun a ha =>
      EquationSet.parts_trans (q := .call name args sp)
        (List.mem_cons_of_mem _ (Expr.mem_partsAll.2 ⟨a, ha, a.mem_parts_self⟩)) hmem
    -- the call has a dimension, so it is a call of the function replaced
    obtain ⟨eq, heq, rhs, hrhs, hp⟩ := EquationSet.mem_parts.1 hmem
    obtain ⟨d₀, -, hd₀⟩ := hwell.equal eq heq rhs hrhs
    obtain ⟨d', hcall⟩ := hd₀.of_parts hp
    cases hcall with
    | call _ hfree hg hcount _ _ =>
      obtain rfl := Option.some.inj (hg.symm.trans (hname ▸ hold))
      -- the same arguments have the same dimensions after, and the result is that of `f`
      cases hunits _ hmem d (.call sp hfree hg hcount hargs hyields) with
      | call _ _ hg' _ hargs' hyields' =>
        rw [h.found, if_pos hname.symm] at hg'
        obtain rfl := Option.some.inj hg'
        have hargs'' := hargs.transfer fun a ha => hunits a (hmemArgs a ha)
        have hsame := hargs'.unique h.after (fun a ha => EquationSet.calledIn_of_mem_parts (hmemArgs a ha)) hargs''
        exact hsame ▸ hyields'

/-- **What registering a function does to a set of equations.**  The set resolves as before, with `f` for the function
of its name and every dimension in it as it was, exactly when `f` fits at all its calls.  It does if the name is new,
when nothing changes at all; if `f` has the rule of the function it replaces; and if that has no rule, and `f` was built
from a draft. -/
theorem resolve_register (hkeyed : catalog.Keyed) (hregister : catalog.register f = (.ok (), catalog'))
    (hresolve : resolve set catalog constants = .ok r) :
    (resolve set catalog' constants = .ok (r.renew f) ∧
        (∀ e ∈ set.parts, ∀ d, HasUnit set catalog constants e d → HasUnit set catalog' constants e d) ↔
      ∀ e ∈ set.parts, f.FitsAt set catalog constants e) ∧
    (catalog.find? f.name = none → resolve set catalog' constants = .ok r) ∧
    ((∀ old, catalog.find? f.name = some old → old.rule = f.rule ∨ old.rule = none ∧ ∃ draft : Draft, draft.build = .ok f) →
      resolve set catalog' constants = .ok (r.renew f)) := by
  have hwell := wellDimensioned_of_resolve hresolve
  have hcalls := Resolved.callsIn_of_resolve hresolve
  obtain ⟨s, hbuild, hrest⟩ := bind_eq_ok.1 hresolve
  obtain ⟨updates, hupdates, hr⟩ := bind_eq_ok.1 hrest
  obtain rfl := pure_eq_ok.1 hr
  obtain ⟨s', hbuild', hgrown⟩ := Scope.exists_grown hkeyed hregister hbuild
  have hscope : s' = s.renew f := Scope.scope_eq_renew hgrown fun eq hmem rhs hrhs => by
    obtain ⟨d, -, hd⟩ := hwell.equal eq hmem rhs hrhs
    exact ⟨d, hd⟩
  subst hscope
  have hresolves : (∀ e ∈ set.parts, f.FitsAt set catalog constants e) →
      resolve set catalog' constants = .ok (Resolved.renew f ⟨s, updates⟩) := by
    intro hfits
    have hupdates' := Scope.lowerEquations_grown hgrown (fun eq hmem rhs hrhs p hp =>
      hfits p (EquationSet.mem_parts.2 ⟨eq, hmem, rhs, hrhs, hp⟩)) hupdates
    exact bind_eq_ok.2 ⟨_, hbuild', bind_eq_ok.2 ⟨_, hupdates', rfl⟩⟩
  have hfits : (∀ old, catalog.find? f.name = some old → old.rule = f.rule ∨
      old.rule = none ∧ ∃ draft : Draft, draft.build = .ok f) → ∀ e ∈ set.parts, f.FitsAt set catalog constants e :=
    fun hrule e _ => Function.fitsAt_of_rule (fun _ => Catalog.signature_of_register hregister) hrule e
  refine ⟨⟨fun h => Function.fitsAt_of_hasUnit hgrown hwell h.2, fun hfits => ⟨hresolves hfits, fun e he d hd => ?_⟩⟩,
    fun hnew => ?_, fun hrule => hresolves (hfits hrule)⟩
  · obtain ⟨n, hn⟩ := Scope.lower_of_hasUnit hgrown.before (EquationSet.calledIn_of_mem_parts he) hd
    exact Scope.hasUnit_of_lower hgrown.after (Scope.lower_grown hgrown (fun p hp => hfits p (EquationSet.parts_trans hp he)) hn)
  · have hsame : Resolved.renew f ⟨s, updates⟩ = ⟨s, updates⟩ := by
      have hunbound : s.functions.contains f.name = false := by
        rw [NameMap.contains, hgrown.before.functions_eq, hnew, ite_self]
        rfl
      have hscope : s.renew f = s := by rw [Scope.renew, hunbound]; rfl
      have hkept : updates.map (fun u => (⟨u.target, u.node.renew f⟩ : Update)) = updates :=
        (List.map_congr_left fun u hu => by rw [Node.renew_of_callsIn hkeyed hnew (hcalls u hu)]).trans (List.map_id' _)
      rw [Resolved.renew, hscope, hkept]
    rw [hresolves (hfits fun old hold => absurd (hnew.symm.trans hold) nofun), hsame]

end

/-! ## A rule lost -/

/-- `y = abs(v) : volt`, with `v : volt`. -/
def absolute : EquationSet :=
  ⟨[⟨⟨"y", ⟨0, 1⟩⟩, some (.call ⟨"abs", ⟨4, 7⟩⟩ [.name "v" ⟨8, 9⟩] ⟨4, 10⟩), .name "volt" ⟨13, 17⟩, ⟨0, 17⟩⟩,
    ⟨⟨"v", ⟨18, 19⟩⟩, none, .name "volt" ⟨22, 26⟩, ⟨18, 26⟩⟩], ⟨0, 26⟩⟩

/-- A function in place of `abs` that does not say what it makes of dimensions. -/
def plainAbs : Draft := { name := "abs", arity := 1, implementation := Catalog.unary id, leastArguments := 1 }

/-- One that keeps the dimension of its argument, as the function it replaces does. -/
def preservingAbs : Draft := { plainAbs with rule := some .preserve }

theorem resolve_register_preservingAbs : ∃ catalog' r, preservingAbs.build = .ok preservingAbs.function ∧
    Catalog.standard.register preservingAbs.function = (.ok (), catalog') ∧ resolve absolute .standard .empty = .ok r ∧
      resolve absolute catalog' .empty = .ok (r.renew preservingAbs.function) := by
  have hbuild : preservingAbs.build = .ok preservingAbs.function := rfl
  have hold : Catalog.standard.find? "abs" = some (Catalog.builtin "abs" Float.abs .preserve "#define abs fabs") := rfl
  have hregister : Catalog.standard.register preservingAbs.function =
    (.ok (), Catalog.standard.insert "abs" preservingAbs.function) := rfl
  obtain ⟨r, hresolve⟩ : ∃ r, resolve absolute .standard .empty = .ok r := ⟨_, rfl⟩
  have hregistered := resolve_register Catalog.keyed_standard hregister hresolve
  refine ⟨_, r, hbuild, hregister, hresolve, hregistered.2.2 fun old h => ?_⟩
  obtain rfl := Option.some.inj (hold.symm.trans h)
  exact .inl rfl

/-- Its calls on dimensions other than those of plain numbers are refused. -/
theorem resolve_register_plainAbs : ∃ catalog', plainAbs.build = .ok plainAbs.function ∧
    Catalog.standard.register plainAbs.function = (.ok (), catalog') ∧ (∃ r, resolve absolute .standard .empty = .ok r) ∧
      ¬ ∃ r, resolve absolute catalog' .empty = .ok r := by
  refine ⟨Catalog.standard.insert "abs" plainAbs.function, rfl, rfl, ⟨_, rfl⟩, ?_⟩
  rintro ⟨r, hr⟩
  have hrefused : (resolve absolute (Catalog.standard.insert "abs" plainAbs.function) .empty).toOption = none := rfl
  rw [hr] at hrefused
  cases hrefused

end FixedStep
