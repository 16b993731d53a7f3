import FixedStep.Kernel
import FixedStep.Proofs.Range
/-!
# Lookup — evaluation that stops at what is not there

Evaluation takes an empty column for a slot that is not there and zero for a missing element, and texts take an empty
name for a variable that is not there.  Here every one of those lookups may fail, and one that fails leaves no result at
all.  What is well scoped has all its results, and they are those of the plain definitions.
-/
namespace FixedStep

theorem mapM_eq_some {α β : Type} {f : α → Option β} {g : α → β} : ∀ {xs : List α}, (∀ x ∈ xs, f x = some (g x)) →
    xs.mapM f = some (xs.map g)
  | [], _ => rfl
  | x :: xs, h => by
    obtain ⟨hx, hxs⟩ := List.forall_mem_cons.1 h
    rw [List.mapM_cons, hx, mapM_eq_some hxs]
    rfl

/-! ## Evaluation -/

namespace View

mutual

/-- The column of an expression, if every slot and every element that it looks up is there. -/
def evaluate? (v : View) : Node → Option Column
  | .const c => some (List.replicate v.len c)
  | .state slot => v.columns[slot]?
  | .clock reading => some (List.replicate v.len (v.reading reading))
  | .neg n => do
    let operand ← v.evaluate? n
    return operand.map Float.neg
  | .binary op l r => do
    let left ← v.evaluate? l
    let right ← v.evaluate? r
    return List.zipWith op.apply left right
  | .call f args => do
    let columns ← v.evaluateAll? args
    (List.range v.len).mapM fun i => do
      let row ← columns.mapM (·[i]?)
      return f.implementation row

def evaluateAll? (v : View) : List Node → Option (List Column)
  | [] => some []
  | n :: ns => do
    let first ← v.evaluate? n
    let rest ← v.evaluateAll? ns
    return first :: rest

end

/-- An update, if the slot that it writes is there as well. -/
def update? (v : View) (u : Update) : Option View := do
  let values ← v.evaluate? u.node
  if u.target < v.columns.length then return v.write u.target values else none

def updateAll? (v : View) (us : List Update) : Option View := us.foldlM update? v

variable {v : View}

/-- Columns of full length have an element for every row. -/
theorem mapM_rows {len : Nat} (f : List Float → Float) {columns : List Column} (hlen : ∀ c ∈ columns, c.length = len) :
    ((List.range len).mapM fun i => do
      let row ← columns.mapM (·[i]?)
      return f row) = some ((rows len columns).map f) := by
  have hrow : ∀ i ∈ List.range len, (do let row ← columns.mapM (·[i]?); return f row) =
      some (f (columns.map fun column => column[i]?.getD 0.0)) := by
    intro i hi
    have helements : columns.mapM (·[i]?) = some (columns.map fun column => column[i]?.getD 0.0) := by
      refine mapM_eq_some fun c hc => ?_
      rw [List.getElem?_eq_getElem (by rw [hlen c hc]; exact List.mem_range.1 hi), Option.getD_some]
    rw [helements]
    rfl
  rw [mapM_eq_some hrow]
  refine congrArg some (List.ext_getElem? fun i => ?_)
  rcases Nat.lt_or_ge i len with hi | hi
  · rw [List.getElem?_map, List.getElem?_map, rows_getElem? _ hi, List.getElem?_range hi]
    rfl
  · rw [List.getElem?_eq_none (by simpa using hi), List.getElem?_eq_none (by simpa [length_rows] using hi)]

mutual

/-- **Where evaluation reads in range, no lookup fails**, and the column is the one found without checks. -/
theorem evaluate?_of_inRange : ∀ {n : Node}, v.InRange n → v.evaluate? n = some (v.evaluate n)
  | .const _, _ => rfl
  | .state slot, h => by
    have hslot : slot < v.columns.length := by rwa [InRange] at h
    rw [evaluate?, evaluate, column, List.getElem?_eq_getElem hslot, Option.getD_some]
  | .clock _, _ => rfl
  | .neg n, h => by
    rw [InRange] at h
    rw [evaluate?, evaluate?_of_inRange h]
    rfl
  | .binary op l r, h => by
    rw [InRange] at h
    rw [evaluate?, evaluate?_of_inRange h.1, evaluate?_of_inRange h.2.1]
    rfl
  | .call f args, h => by
    rw [InRange] at h
    rw [evaluate?, evaluateAll?_of_allInRange h.1, evaluate, ← mapM_rows f.implementation h.2]
    rfl

theorem evaluateAll?_of_allInRange : ∀ {ns : List Node}, v.AllInRange ns → v.evaluateAll? ns = some (v.evaluateAll ns)
  | [], _ => rfl
  | n :: ns, h => by
    rw [AllInRange] at h
    rw [evaluateAll?, evaluate?_of_inRange h.1, evaluateAll?_of_allInRange h.2]
    rfl

end

theorem updateAll?_of_updatesInRange : ∀ {us : List Update} {v : View}, v.UpdatesInRange us →
    v.updateAll? us = some (v.updateAll us)
  | [], _, _ => rfl
  | u :: us, v, ⟨hread, hwrite, hrest⟩ => by
    have hupdate : v.update? u = some (v.update u) := by
      rw [update?, evaluate?_of_inRange hread]
      exact if_pos hwrite
    rw [updateAll?, List.foldlM_cons, hupdate]
    exact updateAll?_of_updatesInRange hrest

end View

/-! ## Names -/

def Scope.name? (s : Scope) (slot : Nat) : Option String := s.stateVariables[slot]?.map (·.name)

theorem Scope.name?_of_lt {s : Scope} {slot : Nat} (h : slot < s.stateVariables.length) :
    s.name? slot = some (s.nameOf slot) := by
  rw [name?, nameOf, List.getElem?_eq_getElem h]
  rfl

namespace Resolved

/-- The outcome, if every slot, element and variable that an execution looks up is there. -/
def runFrom? (r : Resolved) (s : Snapshot) (columns : List Column) : Option (NameMap Column) := do
  let v ← View.updateAll? ⟨s.len, columns, s.t, s.dt⟩ r.updates
  let entries ← r.updates.mapM fun u => do
    let name ← r.scope.name? u.target
    let values ← v.columns[u.target]?
    return (name, values)
  return .ofList entries

/-- **An execution finds all it looks up**, once its columns were gathered. -/
theorem runFrom?_of_wellScoped {r : Resolved} (hr : r.WellScoped) {s : Snapshot} {columns : List Column}
    (h : s.columns r.scope = .ok columns) : r.runFrom? s columns = some (r.runFrom s columns) := by
  have hsquare := square_columns h
  have hafter := (View.square_updateAll hsquare hr.reads).1
  rw [runFrom?, View.updateAll?_of_updatesInRange (View.updatesInRange_of_square hsquare hr.writes hr.reads)]
  have hentries : ∀ u ∈ r.updates, (do
      let name ← r.scope.name? u.target
      let values ← (View.updateAll ⟨s.len, columns, s.t, s.dt⟩ r.updates).columns[u.target]?
      return (name, values)) =
      some (r.scope.nameOf u.target, (View.updateAll ⟨s.len, columns, s.t, s.dt⟩ r.updates).column u.target) := by
    intro u hu
    have hlt : u.target < (View.updateAll ⟨s.len, columns, s.t, s.dt⟩ r.updates).columns.length := by
      rw [hafter.count]
      exact hr.writes u hu
    rw [Scope.name?_of_lt (hr.writes u hu), View.column, List.getElem?_eq_getElem hlt]
    rfl
  rw [Option.bind_eq_bind, Option.bind_some, mapM_eq_some hentries]
  rfl

end Resolved

/-! ## Invalid values -/

namespace Group

/-- The counts of updates in order, if every variable that they name is there. -/
def invalidCountsFrom? (scope : Scope) (outputs : NameMap Column) :
    NameMap Column → List Update → Option (List (String × Nat))
  | _, [] => some []
  | seen, u :: us => do
    let target ← scope.name? u.target
    match outputs.find? target with
    | none => invalidCountsFrom? scope outputs seen us
    | some values =>
      let names ← u.node.slots.mapM scope.name?
      let count := invalidCount values (names.filterMap seen.find?)
      let rest ← invalidCountsFrom? scope outputs (seen.insert target values) us
      return if count = 0 then rest else (target, count) :: rest

/-- **Counting finds every variable it names.** -/
theorem invalidCountsFrom?_of_wellScoped {scope : Scope} (outputs : NameMap Column) :
    ∀ {us : List Update} {seen : NameMap Column}, (∀ u ∈ us, u.target < scope.stateVariables.length) →
      (∀ u ∈ us, ∀ slot ∈ u.node.slots, slot < scope.stateVariables.length) →
        invalidCountsFrom? scope outputs seen us = some (invalidCountsFrom scope outputs seen us)
  | [], _, _, _ => rfl
  | u :: us, seen, hwrites, hreads => by
    obtain ⟨hwrite, hwrites⟩ := List.forall_mem_cons.1 hwrites
    obtain ⟨hread, hreads⟩ := List.forall_mem_cons.1 hreads
    have hnames : u.node.slots.mapM scope.name? = some (u.node.slots.map scope.nameOf) :=
      mapM_eq_some fun slot hslot => Scope.name?_of_lt (hread slot hslot)
    rw [invalidCountsFrom?, invalidCountsFrom, Scope.name?_of_lt hwrite, Option.bind_eq_bind, Option.bind_some]
    dsimp only
    cases outputs.find? (scope.nameOf u.target) with
    | none => exact invalidCountsFrom?_of_wellScoped outputs hwrites hreads
    | some values =>
      have hinputs : (u.node.slots.map scope.nameOf).filterMap seen.find? =
          u.node.slots.filterMap fun slot => seen.find? (scope.nameOf slot) := List.filterMap_map
      rw [← hinputs]
      simp only [hnames, invalidCountsFrom?_of_wellScoped outputs hwrites hreads]
      rfl

end Group

/-! ## Generated programs -/

namespace Kernel

mutual

/-- The text of an expression, if every variable in it is there. -/
def expression? (s : Scope) : Node → Option String
  | .const v => some (literal v)
  | .state slot => do
    let name ← s.name? slot
    return element name
  | .clock reading => some (clockName reading)
  | .neg n => do
    let operand ← expression? s n
    return "(-" ++ operand ++ ")"
  | .binary .pow l r => do
    let left ← expression? s l
    let right ← expression? s r
    return "pow(" ++ left ++ ", " ++ right ++ ")"
  | .binary op l r => do
    let left ← expression? s l
    let right ← expression? s r
    return "(" ++ left ++ " " ++ op.text ++ " " ++ right ++ ")"
  | .call f args => do
    let texts ← expressions? s args
    return f.name ++ "(" ++ ", ".intercalate texts ++ ")"

def expressions? (s : Scope) : List Node → Option (List String)
  | [] => some []
  | n :: ns => do
    let first ← expression? s n
    let rest ← expressions? s ns
    return first :: rest

end

def statement? (s : Scope) (u : Update) : Option String := do
  let target ← s.name? u.target
  let text ← expression? s u.node
  return element target ++ " = " ++ text ++ ";"

variable {s : Scope}

mutual

theorem expression?_of_slots : ∀ {n : Node}, (∀ slot ∈ n.slots, slot < s.stateVariables.length) →
    expression? s n = some (expression s n)
  | .const _, _ => rfl
  | .state slot, h => by
    rw [expression?, Scope.name?_of_lt (h slot List.mem_cons_self)]
    rfl
  | .clock _, _ => rfl
  | .neg n, h => by
    have hoperand : ∀ slot ∈ n.slots, slot < s.stateVariables.length := h
    rw [expression?, expression?_of_slots hoperand]
    rfl
  | .binary op l r, h => by
    have hl := expression?_of_slots (n := l) fun slot hslot => h slot (List.mem_append_left _ hslot)
    have hr := expression?_of_slots (n := r) fun slot hslot => h slot (List.mem_append_right _ hslot)
    -- the power is printed apart from the other operators
    cases op <;> simp only [expression?, hl, hr] <;> rfl
  | .call f args, h => by
    have hargs : ∀ slot ∈ Node.slotsAll args, slot < s.stateVariables.length := h
    rw [expression?, expressions?_of_slots hargs]
    rfl

theorem expressions?_of_slots : ∀ {ns : List Node}, (∀ slot ∈ Node.slotsAll ns, slot < s.stateVariables.length) →
    expressions? s ns = some (expressions s ns)
  | [], _ => rfl
  | n :: ns, h => by
    rw [expressions?, expression?_of_slots fun slot hslot => h slot (List.mem_append_left _ hslot),
      expressions?_of_slots fun slot hslot => h slot (List.mem_append_right _ hslot)]
    rfl

end

/-- **A generated program names variables that are there**, in its statements and as its outputs. -/
theorem generate_of_wellScoped {r : Resolved} (hr : r.WellScoped) :
    r.updates.mapM (statement? r.scope) = some (generate r).statements ∧
      (r.updates.mapM fun u => r.scope.name? u.target) = some (generate r).outputs := by
  refine ⟨mapM_eq_some fun u hu => ?_, mapM_eq_some fun u hu => Scope.name?_of_lt (hr.writes u hu)⟩
  rw [statement?, Scope.name?_of_lt (hr.writes u hu), expression?_of_slots (hr.reads u hu)]
  rfl

end Kernel
end FixedStep
