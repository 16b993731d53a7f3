import FixedStep.Proofs.Grammar.Reading
import FixedStep.Proofs.Kernel.Simulation
import FixedStep.Proofs.Kernel.Substitution
/-!
# Equivalence — a generated program computes what evaluation does

The program of a set of equations is read back as text: its substitutions line by line, its statements word by word.
On a machine that calculates as evaluation does, it writes the columns that evaluation gives (`run_generate`).
-/
namespace FixedStep
namespace Kernel

open Machine (Memory)

/-! ## The functions called -/

theorem mem_builtins {name : String} {f : Function} (h : Catalog.standard.find? name = some f) :
    f ∈ Catalog.builtins := by
  rcases NameMap.mem_or_find?_of_insertAll h with hmem | hfound
  · obtain ⟨g, hg, heq⟩ := List.mem_map.1 hmem
    obtain ⟨-, rfl⟩ := Prod.mk.inj heq
    exact hg
  · cases hfound

section
variable {set : EquationSet} {constants : Constants} {r : Resolved}

theorem called_builtin (h : resolve set Catalog.standard constants = .ok r) {u : Update} (hu : u ∈ r.updates) :
    ∀ f ∈ calls u.node, f ∈ Catalog.builtins := by
  intro f hf
  obtain ⟨name, hname⟩ := Node.found_of_calls (Resolved.callsIn_of_resolve h u hu) f hf
  exact mem_builtins hname

theorem used_builtin (h : resolve set Catalog.standard constants = .ok r) :
    ∀ f ∈ functionsUsed r, f ∈ Catalog.builtins := by
  intro f hf
  obtain ⟨u, hu, hf⟩ := exists_call_of_used hf
  exact called_builtin h hu f hf

theorem spelled_variables (h : resolve set Catalog.standard constants = .ok r) (hset : set.Spelled) :
    ∀ name ∈ r.scope.stateVariables.map (·.name), name.toList.all Lexeme.isNameRest := by
  intro name hname
  rw [Resolved.stateVariables_of_resolve h] at hname
  obtain ⟨eq, heq, rfl⟩ := List.mem_map.1 hname
  exact hset eq heq

theorem spelled_nameOf (h : resolve set Catalog.standard constants = .ok r) (hset : set.Spelled) {slot : Nat}
    (hslot : slot < r.scope.stateVariables.length) : (r.scope.nameOf slot).toList.all Lexeme.isNameRest :=
  spelled_variables h hset _ (Resolved.nameOf_mem hslot)

theorem named_update (h : resolve set Catalog.standard constants = .ok r) (hset : set.Spelled) {u : Update}
    (hu : u ∈ r.updates) : Named r.scope u.node :=
  ⟨fun slot hslot => spelled_nameOf h hset ((Resolved.wellScoped_of_resolve h).reads u hu slot hslot),
    fun f hf => (builtin_of_mem f (called_builtin h hu f hf)).isName, fun _ _ => trivial⟩

theorem definitions_generate (h : resolve set Catalog.standard constants = .ok r) (hset : set.Spelled) :
    definitions (generate r).source.toList = (functionsUsed r).flatMap Function.substitutions := by
  have hwrites := (Resolved.wellScoped_of_resolve h).writes
  refine definitions_source (fun f hf => (builtin_of_mem f (used_builtin h f hf)).support)
    (spelled_variables h hset) (fun name hname => ?_) fun u hu => ?_
  · obtain ⟨u, hu, rfl⟩ := List.mem_map.1 hname
    exact spelled_nameOf h hset (hwrites u hu)
  · exact Word.not_mem_newline_of_cut (ofText_statement (spelled_nameOf h hset (hwrites u hu)) (named_update h hset hu))

theorem provides_called (h : resolve set Catalog.standard constants = .ok r) {m : Machine} (hm : m.Conforms r)
    {u : Update} (hu : u ∈ r.updates) : ∀ f ∈ calls u.node,
      Provides m (replace ((functionsUsed r).flatMap Function.substitutions)) f := by
  intro f hf xs hxs
  -- the function used first under this name need not be `f`, but it brings the same substitution
  have hused : ∃ g ∈ functionsUsed r, g.name = f.name :=
    exists_used_of_call hu hf
  have hbuiltin := builtin_of_mem f (called_builtin h hu f hf)
  obtain ⟨g, hg, hvalue⟩ := hbuiltin.library
  rw [hbuiltin.arity] at hxs
  obtain ⟨x, rfl⟩ := List.length_eq_one_iff.1 hxs
  rw [replace_used (used_builtin h) hused, hvalue]
  exact hm.functions _ hg x

theorem runnable_update (h : resolve set Catalog.standard constants = .ok r) {m : Machine} (hm : m.Conforms r)
    {u : Update} (hu : u ∈ r.updates) : Runnable Catalog.standard r.scope m
      (replace ((functionsUsed r).flatMap Function.substitutions)) u.node :=
  ⟨⟨(Resolved.wellScoped_of_resolve h).reads u hu, provides_called h hm hu, fun v hv => value_literal hm.neg (hm.literals u hu v hv)⟩,
    Resolved.callsIn_of_resolve h u hu⟩

end

/-! ## Arrays read and written -/

theorem mirrors_start {s : Scope} (hdistinct : (s.stateVariables.map (·.name)).Nodup) {v : View}
    (hv : v.columns.length = s.stateVariables.length) :
    Mirrors s ⟨.ofList (((s.stateVariables.map (·.name)).map arrayName).zip v.columns), v.t, v.dt⟩ v := by
  refine ⟨fun slot hslot => NameMap.find?_insertAll_of_mem ?_ ?_, rfl, rfl⟩
  · rw [List.map_fst_zip (Nat.le_of_eq (by rw [List.length_map, List.length_map, hv]))]
    exact List.pairwise_map.2 (hdistinct.imp fun hne heq => hne (arrayName_injective heq))
  · have hcolumn : slot < v.columns.length := by rw [hv]; exact hslot
    refine List.mem_iff_getElem?.2 ⟨slot, ?_⟩
    rw [List.getElem?_zip_eq_some]
    rw [View.column, Scope.nameOf, List.getElem?_eq_getElem hcolumn, List.getElem?_eq_getElem hslot]
    exact ⟨by simp [hslot], rfl⟩

theorem written?_targets {s : Scope} {memory : Memory} {v : View} (h : Mirrors s memory v) : ∀ {us : List Update},
    (∀ u ∈ us, u.target < s.stateVariables.length) →
      Machine.written? memory (us.map fun u => s.nameOf u.target) =
        some (us.map fun u => (s.nameOf u.target, v.column u.target))
  | [], _ => rfl
  | u :: us, hus => by
    obtain ⟨hu, hrest⟩ := List.forall_mem_cons.1 hus
    rw [List.map_cons, Machine.written?, h.arrays _ hu, Option.bind_some, written?_targets h hrest]
    rfl

/-- **A generated program computes what evaluation does.**  Equations that resolve with the builtin functions, and that
have targets as a text gives them (`spelled_of_parse`), are evaluated over every input that their columns can be gathered
from; their program, run on the same columns by a machine that conforms, writes the same columns under the same names. -/
theorem run_generate {set : EquationSet} {constants : Constants} {r : Resolved} {m : Machine} {s : Snapshot}
    {columns : List Column} (h : resolve set Catalog.standard constants = .ok r) (hset : set.Spelled)
    (hm : m.Conforms r) (hcolumns : s.columns r.scope = .ok columns) :
    ∃ outputs, r.execute s = .ok outputs ∧ m.run (generate r) s.len s.t s.dt columns = some outputs := by
  have hscoped := Resolved.wellScoped_of_resolve h
  have hsquare := Resolved.square_columns hcolumns
  have hstart := mirrors_start hscoped.distinct hsquare.count
  have hspares := spares_used (used_builtin h)
  have hupdates : ∀ u ∈ r.updates, u.target < r.scope.stateVariables.length ∧
      Runnable Catalog.standard r.scope m (replace ((functionsUsed r).flatMap Function.substitutions)) u.node ∧
      ∀ f ∈ calls u.node, Word.isName f.name.toList := fun u hu =>
    ⟨hscoped.writes u hu, runnable_update h hm hu, (named_update h hset hu).functions⟩
  -- one loop for each update keeps memory and columns in step, from the arrays read to the arrays written
  obtain ⟨after, hrun, hafter⟩ := runAll_updates hscoped.distinct hm.toCalculates hspares
    (fun _ hslot => spelled_nameOf h hset hslot) hsquare hupdates hstart
  refine ⟨r.runFrom s columns, ?_, ?_⟩
  · rw [Resolved.execute, hcolumns]
    rfl
  · have hwritten := written?_targets hafter hscoped.writes
    rw [Machine.run, definitions_generate h hset]
    have hall : m.runAll (replace ((functionsUsed r).flatMap Function.substitutions)) s.len (generate r).statements
        ⟨.ofList (((generate r).inputs.map arrayName).zip columns), s.t, s.dt⟩ = some after := hrun
    have houtputs : Machine.written? after (generate r).outputs = _ := hwritten
    simp only [hall, Option.bind_some, houtputs]
    rfl

/-- A machine that calculates as evaluation does and reads a decimal as the number nearest to it. -/
def Machine.reference : Machine where
  number word := some (Decimal.ofSpelling word.toList).toFloat
  neg := Float.neg
  arithmetic := Operator.apply
  library name xs :=
    match xs with
    | [x] => ((NameMap.ofList mathLibrary).find? name).map fun f => f x
    | [x, y] => if name = "pow" then some (Float.pow x y) else none
    | _ => none

theorem reference_calculates : Machine.reference.Calculates := ⟨fun _ => rfl, fun _ _ _ _ => rfl, fun _ _ => rfl⟩

theorem reference_functions : ∀ e ∈ mathLibrary, ∀ x, Machine.reference.library e.1 [x] = some (e.2 x) := by
  have hdistinct : (mathLibrary.map (·.1)).Nodup := by decide +kernel
  rintro ⟨name, f⟩ he x
  have hfound : (NameMap.ofList mathLibrary).find? name = some f := NameMap.find?_insertAll_of_mem hdistinct he
  exact congrArg (Option.map fun g => g x) hfound

/-- `v = abs(v) * k : 1` and `w = v ** 1.5 : 1` -/
def folding : EquationSet :=
  ⟨[⟨⟨"v", ⟨0, 1⟩⟩, some (.binary .mul (.call ⟨"abs", ⟨4, 7⟩⟩ [.name "v" ⟨8, 9⟩] ⟨4, 10⟩) (.name "k" ⟨13, 14⟩) ⟨4, 14⟩),
      .number 1.0 ⟨17, 18⟩, ⟨0, 18⟩⟩,
    ⟨⟨"w", ⟨19, 20⟩⟩, some (.binary .pow (.name "v" ⟨23, 24⟩) (.number 1.5 ⟨28, 31⟩) ⟨23, 31⟩), .number 1.0 ⟨34, 35⟩,
      ⟨19, 35⟩⟩], ⟨0, 35⟩⟩

/-- What it resolves to, with `k` negative. -/
def foldingUpdates : Resolved :=
  let absolute := Catalog.builtin "abs" Float.abs .preserve "#define abs fabs"
  ⟨⟨[⟨"v", .one, some 0⟩, ⟨"w", .one, some 1⟩], .ofList [("k", ⟨-0.25, .one⟩)], .ofList [("abs", absolute)]⟩,
    [⟨0, .binary .mul (.call absolute [.state 0]) (.const (-0.25))⟩, ⟨1, .binary .pow (.state 0) (.const 1.5)⟩]⟩

theorem run_folding : ∃ outputs,
    foldingUpdates.execute ⟨2, 0.0, 0.5, .ofList [("v", [1.0, -2.0])]⟩ = .ok outputs ∧
      Machine.reference.run (generate foldingUpdates) 2 0.0 0.5 [[1.0, -2.0], [0.0, 0.0]] = some outputs := by
  have hresolve : resolve folding Catalog.standard (.ofList [("k", ⟨-0.25, .one⟩)]) = .ok foldingUpdates := rfl
  have hparse : (parse "v = abs(v) * k : 1\nw = v ** 1.5 : 1").equations = some folding := by
    with_unfolding_all rfl
  have hspelled : folding.Spelled := spelled_of_parse hparse
  have hliterals : ∀ u ∈ foldingUpdates.updates, ∀ v ∈ constants u.node, Binary.isFinite v →
      (Machine.reference.number (String.ofList (magnitudeText v))).map
        (if Binary.isNegative v then Machine.reference.neg else id) = some v := by decide +kernel
  exact run_generate (s := ⟨2, 0.0, 0.5, .ofList [("v", [1.0, -2.0])]⟩) hresolve hspelled
    ⟨reference_calculates, reference_functions, hliterals⟩ rfl

end Kernel
end FixedStep
