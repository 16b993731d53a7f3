import FixedStep.Catalog.Builtin
import FixedStep.Proofs.Calls
import FixedStep.Proofs.Kernel.Machine
/-!
# Substitution — a program substitutes the names of the functions it uses

The only substitutions of a generated program are those that its functions bring (`definitions_source`): no other line
begins with `#define`.  They put the name of the mathematical library for every builtin that is used
(`replace_used`) and leave all other names as they are (`spares_used`).
-/
namespace FixedStep

/-- The substitutions that a function's code consists of. -/
def Function.substitutions (f : Function) : List (String × String) :=
  match f.native with
  | some code => Kernel.definitions (Kernel.codeLines code.defines).toList
  | none => []

namespace Kernel

/-! ## Line by line -/

theorem lines_ne_nil : ∀ cs : List Char, lines cs ≠ []
  | [] => List.cons_ne_nil _ _
  | c :: cs => by
    rw [lines]
    split
    · exact List.cons_ne_nil _ _
    · split <;> exact List.cons_ne_nil _ _

theorem lines_append (b : List Char) : ∀ a : List Char, lines (a ++ '\n' :: b) = lines a ++ lines b
  | [] => rfl
  | c :: cs => by
    rw [List.cons_append, lines, lines, lines_append b cs]
    by_cases hc : c = '\n'
    · rw [if_pos hc, if_pos hc, List.cons_append]
    · rw [if_neg hc, if_neg hc]
      cases hcs : lines cs with
      | nil => exact absurd hcs (lines_ne_nil cs)
      | cons l ls => rfl

theorem lines_of_not_mem : ∀ {cs : List Char}, '\n' ∉ cs → lines cs = [cs]
  | [], _ => rfl
  | c :: cs, h => by
    rw [List.mem_cons, not_or] at h
    rw [lines, if_neg (Ne.symm h.1), lines_of_not_mem h.2]

/-- What a text adds to the substitutions of the text after it. -/
def Brings (text : String) (ds : List (String × String)) : Prop :=
  ∀ rest, definitions (text.toList ++ rest) = ds ++ definitions rest

theorem brings_empty : Brings "" [] := fun _ => rfl

theorem Brings.append {a b : String} {ds es : List (String × String)} (ha : Brings a ds) (hb : Brings b es) :
    Brings (a ++ b) (ds ++ es) := by
  intro rest
  rw [String.toList_append, List.append_assoc, ha, hb, List.append_assoc]

theorem brings_join {α : Type} {f : α → String} : ∀ {xs : List α}, (∀ x ∈ xs, Brings (f x) []) →
    Brings (String.join (xs.map f)) []
  | [], _ => brings_empty
  | x :: xs, h => by
    obtain ⟨hx, hxs⟩ := List.forall_mem_cons.1 h
    rw [List.map_cons, String.join_cons]
    exact hx.append (brings_join hxs)

theorem definitions_append (a b : List Char) : definitions (a ++ '\n' :: b) = definitions a ++ definitions b := by
  rw [definitions, lines_append, List.filterMap_append]
  rfl

/-- Lines that are complete bring their own substitutions. -/
theorem brings_lines {text : String} (h : text.toList.getLast? = some '\n') :
    Brings text (definitions text.toList) := by
  intro rest
  obtain ⟨before, htext⟩ := List.getLast?_eq_some_iff.1 h
  have hown : definitions (before ++ ['\n']) = definitions before := by
    rw [definitions_append]
    exact List.append_nil _
  rw [htext, hown, List.append_assoc, List.singleton_append, definitions_append]

/-- A line that begins with something else than `#` brings nothing. -/
theorem brings_code {line : String} (hbreak : '\n' ∉ line.toList)
    (hcode : (line.toList.dropWhile (· == ' ')).head? ≠ some '#') : Brings (line ++ "\n") [] := by
  intro rest
  have hnone : define? line.toList = none := by
    have hdirective : directive.isPrefixOf (line.toList.dropWhile (· == ' ')) = false := by
      cases htext : line.toList.dropWhile (· == ' ') with
      | nil => rfl
      | cons c cs =>
        rw [htext, List.head?_cons] at hcode
        have hc : ('#' == c) = false := beq_eq_false_iff_ne.2 fun h => hcode (congrArg some h.symm)
        rw [directive, List.isPrefixOf, hc, Bool.false_and]
    simp [define?, hdirective]
  rw [String.toList_append, List.append_assoc]
  have happend : "\n".toList ++ rest = '\n' :: rest := rfl
  rw [happend, definitions_append, definitions, lines_of_not_mem hbreak, List.filterMap_cons, hnone]
  rfl

theorem not_mem_newline_arrayName {name : String} (h : name.toList.all Lexeme.isNameRest) :
    '\n' ∉ (arrayName name).toList := by
  intro hmem
  rw [arrayName, String.toList_append, List.mem_append] at hmem
  rcases hmem with hmem | hmem
  · revert hmem
    decide
  · have hrest := List.all_eq_true.1 h _ hmem
    cases hrest

theorem brings_readArray {name : String} (h : name.toList.all Lexeme.isNameRest) : Brings (readArray name) [] := by
  have hbreak := not_mem_newline_arrayName h
  unfold readArray
  generalize arrayName name = array at hbreak ⊢
  have hlines : "    std::vector<double> " ++ array ++ ";\n" ++
      "    if (!_read_array(" ++ array ++ ", _n)) return 2;\n" =
      ("    std::vector<double> " ++ array ++ ";" ++ "\n") ++
        ("    if (!_read_array(" ++ array ++ ", _n)) return 2;" ++ "\n") := by simp [← String.toList_inj]
  rw [hlines]
  exact (brings_code (by simp [hbreak]) (by simp)).append (brings_code (by simp [hbreak]) (by simp))

theorem brings_writeArray {name : String} (h : name.toList.all Lexeme.isNameRest) : Brings (writeArray name) [] := by
  have hbreak := not_mem_newline_arrayName h
  unfold writeArray
  generalize arrayName name = array at hbreak ⊢
  have hlines : "    _write_array(" ++ array ++ ");\n" = "    _write_array(" ++ array ++ ");" ++ "\n" := by
    simp [← String.toList_inj]
  rw [hlines]
  exact brings_code (by simp [hbreak]) (by simp)

theorem brings_loop {s : Scope} {u : Update} (h : '\n' ∉ (statement s u).toList) :
    Brings (loop (statement s u)) [] := by
  have hhead : ((statement s u).toList.dropWhile (· == ' ')).head? ≠ some '#' := by
    simp [statement, element, arrayName]
  unfold loop
  generalize statement s u = text at h hhead ⊢
  have hlines : "    for (size_t _i = 0; _i < _n; ++_i) \x7b\n" ++ "        " ++ text ++ "\n" ++ "    \x7d\n" =
      ("    for (size_t _i = 0; _i < _n; ++_i) \x7b" ++ "\n") ++
        (("        " ++ text ++ "\n") ++ ("    \x7d" ++ "\n")) := by
    simp [← String.toList_inj]
  rw [hlines]
  exact (brings_code (by simp) (by simp)).append
    ((brings_code (by simp [h]) (by simpa using hhead)).append (brings_code (by simp) (by simp)))

/-! ## The source -/

theorem brings_codeLines (code : String) : Brings (codeLines code) (definitions (codeLines code).toList) := by
  unfold codeLines
  split
  · exact brings_empty
  · exact brings_lines (by rw [String.toList_append]; exact List.getLast?_append)

theorem brings_defines : ∀ used : List Function,
    Brings (String.join ((used.filterMap (·.native)).map fun code => codeLines code.defines))
      (used.flatMap Function.substitutions)
  | [] => brings_empty
  | f :: fs => by
    have hrest := brings_defines fs
    rw [List.filterMap_cons, List.flatMap_cons, Function.substitutions]
    cases f.native with
    | none => exact hrest
    | some code =>
      rw [List.map_cons, String.join_cons]
      exact (brings_codeLines code.defines).append hrest

theorem brings_functionCode {used : List Function}
    (h : ∀ f ∈ used, ∀ code ∈ f.native, code.supportCode = "") :
    Brings (functionCode used) (used.flatMap Function.substitutions) := by
  have hsupport : Brings (String.join ((used.filterMap (·.native)).map fun code => codeLines code.supportCode)) [] := by
    refine brings_join fun code hcode => ?_
    obtain ⟨f, hf, hnative⟩ := List.mem_filterMap.1 hcode
    rw [h f hf code hnative]
    exact brings_empty
  have hcode := (brings_defines used).append hsupport
  rwa [List.append_nil] at hcode

/-- A literal text of complete lines that do not substitute. -/
theorem brings_ofList {cs : List Char} (h : cs.getLast? = some '\n' ∧ definitions cs = []) :
    Brings (String.ofList cs) [] := by
  have hlines : Brings (String.ofList cs) (definitions (String.ofList cs).toList) :=
    brings_lines (by rw [String.toList_ofList]; exact h.1)
  rwa [String.toList_ofList, h.2] at hlines

theorem Brings.and {a b : String} (ha : Brings a []) (hb : Brings b []) : Brings (a ++ b) [] := ha.append hb

/-- The texts around the code of functions, arrays and loops do not substitute. -/
theorem brings_frame : Brings header [] ∧ Brings helpers [] ∧ Brings opening [] ∧ Brings closing [] ∧ Brings "\n" [] := by
  -- each text is a row of literals, one for a line, and every literal is judged by itself
  refine ⟨?header, ?helpers, ?opening, brings_ofList (by decide +kernel), brings_ofList (by decide +kernel)⟩
  case header =>
    unfold header
    iterate 5 refine Brings.and ?_ (brings_ofList (by decide +kernel))
    exact brings_ofList (by decide +kernel)
  case helpers =>
    unfold helpers
    iterate 24 refine Brings.and ?_ (brings_ofList (by decide +kernel))
    exact brings_ofList (by decide +kernel)
  case opening =>
    unfold opening
    iterate 7 refine Brings.and ?_ (brings_ofList (by decide +kernel))
    exact brings_ofList (by decide +kernel)

/-- **The substitutions of a program are those of the functions it uses.** -/
theorem definitions_source {r : Resolved}
    (hsupport : ∀ f ∈ functionsUsed r, ∀ code ∈ f.native, code.supportCode = "")
    (hnames : ∀ name ∈ r.scope.stateVariables.map (·.name), name.toList.all Lexeme.isNameRest)
    (htargets : ∀ name ∈ r.targets, name.toList.all Lexeme.isNameRest)
    (hstatements : ∀ u ∈ r.updates, '\n' ∉ (statement r.scope u).toList) :
    definitions (generate r).source.toList = (functionsUsed r).flatMap Function.substitutions := by
  have hreads : Brings (String.join ((r.scope.stateVariables.map (·.name)).map readArray)) [] :=
    brings_join fun name hname => brings_readArray (hnames name hname)
  have hloops : Brings (String.join ((r.updates.map (statement r.scope)).map loop)) [] :=
    brings_join fun text htext => by
      obtain ⟨u, hu, rfl⟩ := List.mem_map.1 htext
      exact brings_loop (hstatements u hu)
  have hwrites : Brings (String.join (r.targets.map writeArray)) [] :=
    brings_join fun name hname => brings_writeArray (htargets name hname)
  have hcode := brings_functionCode hsupport
  obtain ⟨hheader, hhelpers, hopening, hclosing, hnewline⟩ := brings_frame
  -- the parts in their order, of which only the function code brings substitutions
  have hsource := (((((((((hheader.append hnewline).append hcode).append hnewline).append hhelpers).append
    hnewline).append hopening).append hreads).append hloops).append hwrites).append hclosing
  have hall := hsource []
  simp only [List.append_nil, List.nil_append] at hall
  rw [generate, hall]
  exact List.append_nil _

/-! ## Functions with one definition -/

/-- What is put for a name when all substitutions of the name agree. -/
theorem replace_eq {ds : List (String × String)} {name put : String} (hall : ∀ d ∈ ds, d.1 = name → d.2 = put)
    (h : put = name ∨ (name, put) ∈ ds) : replace ds name = put := by
  rw [replace]
  cases hfound : ds.find? (fun d => d.1 == name) with
  | none =>
    rcases h with rfl | hmem
    · rfl
    · exact absurd (beq_self_eq_true name) (List.find?_eq_none.1 hfound _ hmem)
  | some d =>
    have hname : d.1 = name := by simpa using List.find?_some hfound
    exact hall d (List.mem_of_find?_eq_some hfound) hname

/-- The name under which the mathematical library has a builtin. -/
def libraryName (name : String) : String := replace (Catalog.builtins.flatMap Function.substitutions) name

/-- The names that builtins leave alone. -/
def isReserved (name : String) : Bool := name.toList.head? == some '_' || ["NAN", "INFINITY", "pow"].contains name

/-- What a builtin is to a program: the mathematical library has it, under a name that its code puts for its own. -/
structure Builtin (f : Function) : Prop where
  isName : Word.isName f.name.toList
  free : isReserved f.name = false
  support : ∀ code ∈ f.native, code.supportCode = ""
  substitutions : f.substitutions = if libraryName f.name = f.name then [] else [(f.name, libraryName f.name)]
  arity : f.arity = 1
  library : ∃ g : Float → Float, (libraryName f.name, g) ∈ mathLibrary ∧ ∀ x, f.implementation [x] = g x

/-- **The builtins are the functions of the mathematical library**, four of them renamed. -/
theorem builtin_of_mem : ∀ f ∈ Catalog.builtins, Builtin f := by
  have hcode : (Catalog.builtins.map (fun f => libraryName f.name) = mathLibrary.map (·.1)) ∧
      ∀ f ∈ Catalog.builtins, Word.isName f.name.toList ∧ isReserved f.name = false ∧
        (∀ code ∈ f.native, code.supportCode = "") ∧ f.arity = 1 ∧
        f.substitutions = if libraryName f.name = f.name then [] else [(f.name, libraryName f.name)] := by
    decide +kernel
  have hfunctions : Catalog.builtins.map (fun f x => f.implementation [x]) = mathLibrary.map (·.2) := rfl
  intro f hf
  obtain ⟨hname, hfree, hsupport, harity, hsubstitutions⟩ := hcode.2 f hf
  refine ⟨hname, hfree, hsupport, hsubstitutions, harity, ?_⟩
  obtain ⟨i, hi, hget⟩ := List.getElem_of_mem hf
  have hlength : i < mathLibrary.length := hi
  have hlibrary : libraryName f.name = mathLibrary[i].1 := by
    have h := congrArg (·[i]?) hcode.1
    simpa [List.getElem?_eq_getElem hi, List.getElem?_eq_getElem hlength, hget] using h
  have hfunction : (fun x => f.implementation [x]) = mathLibrary[i].2 := by
    have h := congrArg (·[i]?) hfunctions
    simpa [List.getElem?_eq_getElem hi, List.getElem?_eq_getElem hlength, hget] using h
  refine ⟨mathLibrary[i].2, ?_, fun x => congrFun hfunction x⟩
  rw [hlibrary]
  exact List.getElem_mem hlength

section
variable {used : List Function}

theorem mem_substitutions (hused : ∀ f ∈ used, f ∈ Catalog.builtins) {d : String × String}
    (hd : d ∈ used.flatMap Function.substitutions) :
    ∃ f ∈ used, d = (f.name, libraryName f.name) ∧ libraryName f.name ≠ f.name := by
  obtain ⟨f, hf, hd⟩ := List.mem_flatMap.1 hd
  rw [(builtin_of_mem f (hused f hf)).substitutions] at hd
  split at hd
  · cases hd
  · rename_i hne
    exact ⟨f, hf, List.mem_singleton.1 hd, hne⟩

/-- **A builtin that is used has its name in the mathematical library put for it.** -/
theorem replace_used (hused : ∀ f ∈ used, f ∈ Catalog.builtins) {name : String} (h : ∃ f ∈ used, f.name = name) :
    replace (used.flatMap Function.substitutions) name = libraryName name := by
  obtain ⟨f, hf, rfl⟩ := h
  refine replace_eq (fun d hd hname => ?_) ?_
  · obtain ⟨g, -, rfl, -⟩ := mem_substitutions hused hd
    exact congrArg libraryName hname
  · by_cases hsame : libraryName f.name = f.name
    · exact .inl hsame
    · refine .inr (List.mem_flatMap.2 ⟨f, hf, ?_⟩)
      rw [(builtin_of_mem f (hused f hf)).substitutions, if_neg hsame]
      exact List.mem_singleton.2 rfl

/-- **Names that are no builtins' stay.** -/
theorem spares_used (hused : ∀ f ∈ used, f ∈ Catalog.builtins) :
    Spares (replace (used.flatMap Function.substitutions)) := by
  have hkeeps : ∀ {name : String}, isReserved name = true → replace (used.flatMap Function.substitutions) name = name := by
    intro name hreserved
    refine replace_eq (fun d hd hname => ?_) (.inl rfl)
    obtain ⟨f, hf, rfl, -⟩ := mem_substitutions hused hd
    obtain rfl : f.name = name := hname
    have hfree := (builtin_of_mem f (hused f hf)).free
    rw [hreserved] at hfree
    cases hfree
  refine ⟨fun name => hkeeps ?_, fun reading => hkeeps ?_, hkeeps rfl, hkeeps rfl, hkeeps rfl, hkeeps rfl⟩
  · rw [isReserved, arrayName, String.toList_append]
    rfl
  · cases reading <;> rfl

end

end Kernel
end FixedStep
