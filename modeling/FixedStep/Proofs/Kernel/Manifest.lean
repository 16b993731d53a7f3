import FixedStep.Proofs.Alignment
import FixedStep.Proofs.Kernel.Substitution
import FixedStep.Proofs.Onset
/-!
# Manifest — a program lists what it reads, writes and calls

The calls of a set of equations stand in its right-hand sides, each before those in its arguments.  A function enters
the program where its name comes first among them, and never again (`pairwise_firstUses`); its code is written in that
order, and what has no code is listed in that order.
-/
namespace FixedStep
namespace Kernel

/-! ## First uses -/

theorem not_mem_of_mem_firstUses {f : Function} : ∀ {fs : List Function} {seen : List String},
    f ∈ firstUses seen fs → f.name ∉ seen
  | [], _, h => absurd h List.not_mem_nil
  | g :: fs, seen, h => by
    rw [firstUses] at h
    split at h
    · exact not_mem_of_mem_firstUses h
    · rename_i hnew
      rcases List.mem_cons.1 h with rfl | h
      · exact hnew
      · exact fun hseen => not_mem_of_mem_firstUses h (List.mem_cons_of_mem _ hseen)

/-- **Functions are kept in the order in which their names first come**, which is why none is kept twice. -/
theorem pairwise_firstUses : ∀ (fs : List Function) (seen : List String),
    ((firstUses seen fs).map (·.name)).Pairwise fun a b => (fs.map (·.name)).idxOf a < (fs.map (·.name)).idxOf b
  | [], _ => .nil
  | f :: fs, seen => by
    -- one name more in front moves the places of all others alike
    have hbehind : ∀ {seen' : List String}, f.name ∈ seen' → ((firstUses seen' fs).map (·.name)).Pairwise fun a b =>
        ((f :: fs).map (·.name)).idxOf a < ((f :: fs).map (·.name)).idxOf b := by
      intro seen' hseen
      refine (pairwise_firstUses fs seen').imp_of_mem fun {a b} ha hb hlt => ?_
      obtain ⟨g, hg, rfl⟩ := List.mem_map.1 ha
      obtain ⟨g', hg', rfl⟩ := List.mem_map.1 hb
      have hne : f.name ≠ g.name := fun heq => not_mem_of_mem_firstUses hg (heq ▸ hseen)
      have hne' : f.name ≠ g'.name := fun heq => not_mem_of_mem_firstUses hg' (heq ▸ hseen)
      rw [List.map_cons, List.idxOf_cons_ne _ hne, List.idxOf_cons_ne _ hne']
      exact Nat.succ_lt_succ hlt
    rw [firstUses]
    split
    · exact hbehind ‹_›
    · refine List.pairwise_cons.2 ⟨fun b hb => ?_, hbehind List.mem_cons_self⟩
      obtain ⟨g, hg, rfl⟩ := List.mem_map.1 hb
      have hne : f.name ≠ g.name := fun heq => not_mem_of_mem_firstUses hg (heq ▸ List.mem_cons_self)
      rw [List.map_cons, List.idxOf_cons_self, List.idxOf_cons_ne _ hne]
      exact Nat.succ_pos _

theorem mem_names_firstUses {name : String} {fs : List Function} :
    name ∈ (firstUses [] fs).map (·.name) ↔ name ∈ fs.map (·.name) := by
  constructor
  · intro hname
    obtain ⟨f, hf, rfl⟩ := List.mem_map.1 hname
    exact List.mem_map_of_mem (mem_of_mem_firstUses hf)
  · intro hname
    obtain ⟨f, hf, rfl⟩ := List.mem_map.1 hname
    obtain ⟨g, hg, hsame⟩ := exists_mem_firstUses hf List.not_mem_nil
    exact List.mem_map.2 ⟨g, hg, hsame⟩

/-! ## Code -/

/-- Code as it is written: without the blanks at its end, on lines of its own. -/
def codeLine (code : String) : String := Text.trimEnd code ++ "\n"

/-- One kind of code of functions, where they have some. -/
def pieces (kind : Fragment → String) (used : List Function) : List String :=
  ((used.filterMap (·.native)).map kind).filter fun code => !code.isEmpty

theorem join_codeLines : ∀ codes : List String,
    String.join (codes.map codeLines) = String.join ((codes.filter fun code => !code.isEmpty).map codeLine)
  | [] => rfl
  | code :: codes => by
    rw [List.map_cons, String.join_cons, join_codeLines codes, codeLines]
    cases hempty : code.isEmpty with
    | true => simp [hempty]
    | false => simp [hempty, codeLine]

theorem functionCode_eq (used : List Function) :
    functionCode used = String.join ((pieces (·.defines) used).map codeLine) ++
      String.join ((pieces (·.supportCode) used).map codeLine) := by
  rw [pieces, pieces, ← join_codeLines, ← join_codeLines, List.map_map, List.map_map]
  rfl

/-- The program behind the code of functions. -/
def program (r : Resolved) : String :=
  helpers ++ "\n" ++ opening ++ String.join ((r.scope.stateVariables.map (·.name)).map readArray) ++
    String.join ((r.updates.map (statement r.scope)).map loop) ++ String.join (r.targets.map writeArray) ++ closing

theorem source_eq (r : Resolved) : (generate r).source =
    header ++ "\n" ++ functionCode (functionsUsed r) ++ "\n" ++ program r := by
  simp only [generate, program, String.append_assoc]

/-! ## The manifest -/

/-- **What a program lists and contains**, if `used` are the functions that the equations call, in order of first call:
the variables in slot order, the targets in the order of the updates, a statement for each update, the substitutions of
`used` and then their definitions, and the names of those without code. -/
structure Manifest (k : Kernel) (r : Resolved) (set : EquationSet) (catalog : Catalog) (used : List Function) :
    Prop where
  inputs : k.inputs = r.scope.stateVariables.map (·.name)
  declared : k.inputs = set.equations.map (·.target.name)
  outputs : k.outputs = r.updates.map fun u => r.scope.nameOf u.target
  defined : k.outputs = set.updates.map (·.target.name)
  distinct : k.inputs.Nodup ∧ k.outputs.Nodup
  statements : k.statements = r.updates.map (statement r.scope)
  called : ∀ name, name ∈ used.map (·.name) ↔ name ∈ Scope.calledNames set
  found : ∀ f ∈ used, catalog.find? f.name = some f
  ordered : (used.map (·.name)).Pairwise fun a b => (Scope.calledNames set).idxOf a < (Scope.calledNames set).idxOf b
  once : (used.map (·.name)).Nodup
  source : k.source = header ++ "\n" ++
    (String.join ((pieces (·.defines) used).map codeLine) ++
      String.join ((pieces (·.supportCode) used).map codeLine)) ++ "\n" ++ program r
  missing : k.missing = (used.filter fun f => f.native.isNone).map (·.name)

variable {set : EquationSet} {catalog : Catalog} {constants : Constants} {r : Resolved}

/-- **The manifest of a program matches what the program calls.** -/
theorem manifest_generate (hkeyed : catalog.Keyed) (h : resolve set catalog constants = .ok r) :
    ∃ used, (generate r).Manifest r set catalog used := by
  have hscoped := Resolved.wellScoped_of_resolve h
  have hcalls : (r.updates.flatMap fun u => calls u.node).map (·.name) = Scope.calledNames set :=
    Scope.called_of_lowerEquations hkeyed (Resolved.built_of_resolve h) (Resolved.updates_of_resolve h)
  have hordered := pairwise_firstUses (r.updates.flatMap fun u => calls u.node) []
  rw [← functionsUsed_eq, hcalls] at hordered
  exact ⟨functionsUsed r, {
    inputs := rfl
    declared := Resolved.stateVariables_of_resolve h
    outputs := rfl
    defined := Scope.targets_of_resolve h
    distinct := ⟨hscoped.distinct, Scope.nodup_targets h⟩
    statements := rfl
    called := fun name => by rw [← hcalls, functionsUsed_eq]; exact mem_names_firstUses
    found := fun f hf => by
      obtain ⟨u, hu, hf⟩ := exists_call_of_used hf
      exact Resolved.specified_of_resolve hkeyed h hu hf
    ordered := hordered
    once := hordered.imp fun hlt heq => absurd (heq ▸ hlt) (Nat.lt_irrefl _)
    source := by rw [source_eq, functionCode_eq]
    missing := congrArg _ (List.filter_congr fun f _ => Option.not_isSome f.native) }⟩

/-! ## Code that is shared, and code with blanks at its end -/

/-- A function of one number that programs know by a substitution, or not at all. -/
def lettered (name : String) (defines : Option String) : Draft where
  name := name
  arity := 1
  implementation := Catalog.unary id
  leastArguments := 1
  native := defines.map fun code => ⟨"", code⟩

def letters : Catalog := .ofList ((List.map Draft.function [lettered "f" (some "#define K 2"),
  lettered "g" (some "#define K 2"), lettered "h" (some "#define H 3\t"), lettered "k" none]).map fun f => (f.name, f))

/-- `y = f(g(x)) + h(k(x)) : 1`, with `x : 1`. -/
def lettersSet : EquationSet :=
  ⟨[⟨⟨"y", ⟨0, 1⟩⟩,
      some (.binary .add
        (.call ⟨"f", ⟨4, 5⟩⟩ [.call ⟨"g", ⟨6, 7⟩⟩ [.name "x" ⟨8, 9⟩] ⟨6, 10⟩] ⟨4, 11⟩)
        (.call ⟨"h", ⟨14, 15⟩⟩ [.call ⟨"k", ⟨16, 17⟩⟩ [.name "x" ⟨18, 19⟩] ⟨16, 20⟩] ⟨14, 21⟩) ⟨4, 21⟩),
      .number 1.0 ⟨24, 25⟩, ⟨0, 25⟩⟩,
    ⟨⟨"x", ⟨26, 27⟩⟩, none, .number 1.0 ⟨30, 31⟩, ⟨26, 31⟩⟩], ⟨0, 31⟩⟩

theorem manifest_generate_letters : letters.Keyed ∧ ∃ r, resolve lettersSet letters .empty = .ok r ∧
    ∃ used, (generate r).Manifest r lettersSet letters used := by
  obtain ⟨r, hr⟩ : ∃ r, resolve lettersSet letters .empty = .ok r := ⟨_, rfl⟩
  exact ⟨Catalog.keyed_ofList _, r, hr, manifest_generate (Catalog.keyed_ofList _) hr⟩

theorem not_mem_append {c : Char} {a b : String} (ha : c ∉ a.toList) (hb : c ∉ b.toList) : c ∉ (a ++ b).toList := by
  rw [String.toList_append, List.mem_append]
  exact not_or.2 ⟨ha, hb⟩

theorem not_mem_ofList {c : Char} {cs : List Char} (h : c ∉ cs) : c ∉ (String.ofList cs).toList := by
  rwa [String.toList_ofList]

theorem not_mem_join {c : Char} {texts : List String} (h : ∀ text ∈ texts, c ∉ text.toList) :
    c ∉ (String.join texts).toList := by
  rw [String.toList_join, List.mem_flatMap]
  exact fun ⟨text, htext, hc⟩ => h text htext hc

/-- No program has a tab of its own. -/
theorem tab_not_mem_source {r : Resolved} (hcode : '\t' ∉ (functionCode (functionsUsed r)).toList)
    (hreads : ∀ text ∈ (r.scope.stateVariables.map (·.name)).map readArray, '\t' ∉ text.toList)
    (hloops : ∀ text ∈ (r.updates.map (statement r.scope)).map loop, '\t' ∉ text.toList)
    (hwrites : ∀ text ∈ r.targets.map writeArray, '\t' ∉ text.toList) : '\t' ∉ (generate r).source.toList := by
  have hheader : '\t' ∉ header.toList := by
    unfold header
    iterate 5 refine not_mem_append ?_ (not_mem_ofList (by decide +kernel))
    exact not_mem_ofList (by decide +kernel)
  have hhelpers : '\t' ∉ helpers.toList := by
    unfold helpers
    iterate 24 refine not_mem_append ?_ (not_mem_ofList (by decide +kernel))
    exact not_mem_ofList (by decide +kernel)
  have hopening : '\t' ∉ opening.toList := by
    unfold opening
    iterate 7 refine not_mem_append ?_ (not_mem_ofList (by decide +kernel))
    exact not_mem_ofList (by decide +kernel)
  have hnewline : '\t' ∉ "\n".toList := not_mem_ofList (by decide +kernel)
  have hclosing : '\t' ∉ closing.toList := not_mem_ofList (by decide +kernel)
  have hprogram : '\t' ∉ (program r).toList := by
    have hstart := not_mem_append (not_mem_append hhelpers hnewline) hopening
    have harrays := not_mem_append (not_mem_append hstart (not_mem_join hreads)) (not_mem_join hloops)
    exact not_mem_append (not_mem_append harrays (not_mem_join hwrites)) hclosing
  rw [source_eq]
  exact not_mem_append (not_mem_append (not_mem_append (not_mem_append hheader hnewline) hcode) hnewline) hprogram

/-- Code that two functions share is written for each of them, and the tab behind the third is not written. -/
theorem source_letters_not_verbatim : ∃ r, resolve lettersSet letters .empty = .ok r ∧
    (functionsUsed r).map (fun f => (f.name, f.native.map (·.defines))) =
      [("f", some "#define K 2"), ("g", some "#define K 2"), ("h", some "#define H 3\t"), ("k", none)] ∧
    (∃ before between after, (generate r).source = before ++ "#define K 2" ++ between ++ "#define K 2" ++ after) ∧
    ¬ ∃ before after, (generate r).source = before ++ "#define H 3\t" ++ after := by
  obtain ⟨r, hr, hused, hcode, hreads, hloops, hwrites⟩ : ∃ r, resolve lettersSet letters .empty = .ok r ∧
      (functionsUsed r).map (fun f => (f.name, f.native.map (·.defines))) =
        [("f", some "#define K 2"), ("g", some "#define K 2"), ("h", some "#define H 3\t"), ("k", none)] ∧
      functionCode (functionsUsed r) = "#define K 2" ++ "\n" ++ "#define K 2" ++ "\n#define H 3\n" ∧
      (∀ text ∈ (r.scope.stateVariables.map (·.name)).map readArray, '\t' ∉ text.toList) ∧
      (∀ text ∈ (r.updates.map (statement r.scope)).map loop, '\t' ∉ text.toList) ∧
      ∀ text ∈ r.targets.map writeArray, '\t' ∉ text.toList := by
    refine ⟨_, rfl, rfl, ?_, ?_, ?_, ?_⟩ <;> decide +kernel
  refine ⟨r, hr, hused, ⟨header ++ "\n", "\n", "\n#define H 3\n" ++ "\n" ++ program r, ?_⟩, ?_⟩
  · rw [source_eq, hcode]
    simp only [String.append_assoc]
  · rintro ⟨before, after, hsource⟩
    have htab : '\t' ∉ (generate r).source.toList :=
      tab_not_mem_source (by rw [hcode]; decide +kernel) hreads hloops hwrites
    rw [hsource, String.toList_append, String.toList_append] at htab
    exact htab (List.mem_append_left _ (List.mem_append_right _ (by decide)))

end Kernel
end FixedStep
