import FixedStep.Proofs.Alignment
import FixedStep.Proofs.CodeObject
/-!
# Building — when native code is built, and what it answers before

Native code is compiled like interpreted code, whatever its functions.  Each request is judged in the same order: a
function without code refuses it, then its input, and only what passes both has the program built.  The program is built
once (`after_served`), or not at all if some function has no code (`after_incomplete`) or the toolchain fails
(`after_failing`).
-/
namespace FixedStep

namespace CodeObject

/-- What is asked of a code object. -/
inductive Request where
  | prepare
  | execute (s : Snapshot)

/-- **One request**: its answer, which has columns if it was an execution, and the code object after it. -/
def perform (c : CodeObject) : Request → Except ExecError (Option (NameMap Column)) × CodeObject
  | .prepare => (c.prepare.1.map fun _ => none, c.prepare.2)
  | .execute s => ((c.execute s).1.map some, (c.execute s).2)

/-- A code object after requests, whatever their answers. -/
def after : CodeObject → List Request → CodeObject
  | c, [] => c
  | c, request :: more => (c.perform request).2.after more

/-- What code answers to a request once it is ready. -/
def answer (c : CodeObject) : Request → Except ExecError (Option (NameMap Column))
  | .prepare => .ok none
  | .execute s => (c.outcome s).map some

theorem answer_of_faithful {c : CodeObject} (h : c.Faithful) (request : Request) :
    c.answer request = ((interpreted c.resolved).perform request).1 := by
  cases request with
  | prepare => rfl
  | execute s => exact congrArg (Except.map some) (h s)

/-- Whether a code object has an answer to a request. -/
def accepts (c : CodeObject) (request : Request) : Bool := (c.perform request).1.isOk

theorem accepts_eq_true {c : CodeObject} {request : Request} :
    c.accepts request = true ↔ ∃ outcome, (c.perform request).1 = .ok outcome := by
  unfold accepts
  cases (c.perform request).1 with
  | error e => exact ⟨nofun, nofun⟩
  | ok outcome => exact ⟨fun _ => ⟨outcome, rfl⟩, fun _ => rfl⟩

end CodeObject

/-! ## One request -/

namespace NativeCode

open CodeObject (Request)

/-- The same code, its program built or not. -/
def withProgram (c : NativeCode) (built : Bool) : NativeCode :=
  ⟨c.resolved, c.kernel, c.toolchain, if built then some (c.toolchain.place c.kernel.source) else none, built.toNat,
    c.generated⟩

variable {c : NativeCode}

/-- **A function without code refuses every request.** -/
theorem perform_incomplete {name : String} (h : c.kernel.missing.head? = some name) (request : Request) :
    (CodeObject.native c).perform request = (.error (.notImplemented name .native), .native c) := by
  obtain ⟨more, hmissing⟩ := List.head?_eq_some_iff.1 h
  have hcheck : c.checkCapabilities = .error (.notImplemented name .native) := by
    rw [checkCapabilities, hmissing]
  cases request with
  | prepare =>
    have hprepare : c.prepare = (.error (.notImplemented name .native), c) := by rw [prepare, hcheck]
    rw [CodeObject.perform, CodeObject.prepare, hprepare]
    rfl
  | execute s =>
    have hexecute : c.execute s = (.error (.notImplemented name .native), c) := by rw [execute, hcheck]
    rw [CodeObject.perform, CodeObject.execute, hexecute]
    rfl

/-- **With code for every function a request is judged as interpreted code judges it**, and only if that has an answer
the program is built, unless it is built already.  Then the answer is the program's. -/
theorem perform_complete (hmissing : c.kernel.missing = []) (request : Request) :
    (CodeObject.native c).perform request =
      match ((CodeObject.interpreted c.resolved).perform request).1 with
      | .error e => (.error e, .native c)
      | .ok _ => (c.ensureBuilt.1.bind fun _ => (CodeObject.native c).answer request, .native c.ensureBuilt.2) := by
  have hcheck := checkCapabilities_eq_ok.2 hmissing
  cases request with
  | prepare =>
    rw [CodeObject.perform, CodeObject.prepare, prepare, hcheck]
    cases c.ensureBuilt.1 <;> rfl
  | execute s =>
    rw [CodeObject.perform, CodeObject.execute, execute, hcheck, CodeObject.perform, CodeObject.execute, Resolved.execute]
    cases hcolumns : s.columns c.resolved.scope with
    | error e => rfl
    | ok columns =>
      have houtcome : c.outcome s = c.answer c.place s columns := by
        rw [outcome, hcolumns]
        rfl
      rw [CodeObject.answer, CodeObject.outcome, houtcome]
      rcases c.ensureBuilt_cases with ⟨e, hbuild⟩ | ⟨after, hbuild, hbuilt⟩ <;> rw [hbuild]
      · rfl
      · rw [← hbuilt.answer]
        rfl

theorem perform_refused (hmissing : c.kernel.missing = []) {request : Request} {e : ExecError}
    (h : ((CodeObject.interpreted c.resolved).perform request).1 = .error e) :
    (CodeObject.native c).perform request = (.error e, .native c) := by
  rw [perform_complete hmissing, h]

theorem perform_accepted (hmissing : c.kernel.missing = []) {request : Request}
    (h : (CodeObject.interpreted c.resolved).accepts request) : (CodeObject.native c).perform request =
      (c.ensureBuilt.1.bind fun _ => (CodeObject.native c).answer request, .native c.ensureBuilt.2) := by
  obtain ⟨outcome, houtcome⟩ := CodeObject.accepts_eq_true.1 h
  rw [perform_complete hmissing, houtcome]

theorem ensureBuilt_failing {reason : String} (hfailure : c.toolchain.failure = some reason)
    (hbinary : c.binary = none) : c.ensureBuilt = (.error (.toolchain reason), c) := by
  unfold ensureBuilt Toolchain.build
  rw [hfailure, hbinary]

theorem ensureBuilt_withProgram (hfailure : c.toolchain.failure = none) (built : Bool) :
    (c.withProgram built).ensureBuilt.2 = c.withProgram true ∧
      ∃ path, (c.withProgram built).ensureBuilt.1 = .ok path := by
  cases built with
  | true => exact ⟨rfl, _, rfl⟩
  | false =>
    unfold ensureBuilt withProgram Toolchain.build
    rw [hfailure]
    exact ⟨rfl, _, rfl⟩

/-- Whether its program is built or not, code stands for the same. -/
theorem answer_withProgram (hbinary : c.binary = none) (built : Bool) (request : Request) :
    (CodeObject.native (c.withProgram built)).answer request = (CodeObject.native c).answer request := by
  have hplace : (c.withProgram built).place = c.place := by
    rw [place, place, hbinary]
    cases built <;> rfl
  cases request with
  | prepare => rfl
  | execute s =>
    rw [CodeObject.answer, CodeObject.answer, CodeObject.outcome, CodeObject.outcome, outcome, outcome, hplace]
    rfl

/-- **A toolchain that fails refuses what needs the program**, and nothing changes. -/
theorem perform_failing (hmissing : c.kernel.missing = []) {reason : String}
    (hfailure : c.toolchain.failure = some reason) (hbinary : c.binary = none) {request : Request}
    (h : (CodeObject.interpreted c.resolved).accepts request) :
    (CodeObject.native c).perform request = (.error (.toolchain reason), .native c) := by
  rw [perform_accepted hmissing h, ensureBuilt_failing hfailure hbinary]
  rfl

/-- **A toolchain that succeeds has the request answered** by the program; after that it is built, if it was before or
not. -/
theorem perform_served (hmissing : c.kernel.missing = []) (hbinary : c.binary = none)
    (hfailure : c.toolchain.failure = none) (built : Bool) {request : Request}
    (h : (CodeObject.interpreted c.resolved).accepts request) :
    (CodeObject.native (c.withProgram built)).perform request =
      ((CodeObject.native c).answer request, .native (c.withProgram true)) := by
  have hperform := perform_accepted (c := c.withProgram built) hmissing h
  obtain ⟨hafter, path, hpath⟩ := ensureBuilt_withProgram hfailure built
  rw [hperform, hafter, hpath, answer_withProgram hbinary]
  rfl

/-! ## Many requests -/

theorem after_incomplete {name : String} (h : c.kernel.missing.head? = some name) :
    ∀ past : List Request, (CodeObject.native c).after past = .native c
  | [] => rfl
  | request :: past => by
    rw [CodeObject.after, perform_incomplete h request]
    exact after_incomplete h past

theorem after_failing (hmissing : c.kernel.missing = []) {reason : String}
    (hfailure : c.toolchain.failure = some reason) (hbinary : c.binary = none) :
    ∀ past : List Request, (CodeObject.native c).after past = .native c
  | [] => rfl
  | request :: past => by
    have hkept : ((CodeObject.native c).perform request).2 = .native c := by
      cases h : ((CodeObject.interpreted c.resolved).perform request).1 with
      | error e => rw [perform_refused hmissing h]
      | ok outcome => rw [perform_failing hmissing hfailure hbinary (CodeObject.accepts_eq_true.2 ⟨outcome, h⟩)]
    rw [CodeObject.after, hkept]
    exact after_failing hmissing hfailure hbinary past

/-- **The program is built by the first request that needs it**, and by none after: `built` says whether it was before. -/
theorem after_served (hmissing : c.kernel.missing = []) (hbinary : c.binary = none)
    (hfailure : c.toolchain.failure = none) : ∀ (built : Bool) (past : List Request),
      (CodeObject.native (c.withProgram built)).after past =
        .native (c.withProgram (built || past.any (CodeObject.interpreted c.resolved).accepts))
  | built, [] => by rw [List.any_nil, Bool.or_false, CodeObject.after]
  | built, request :: past => by
    rw [CodeObject.after, List.any_cons]
    cases hneeds : (CodeObject.interpreted c.resolved).accepts request with
    | false =>
      cases h : ((CodeObject.interpreted c.resolved).perform request).1 with
      | ok outcome => cases hneeds.symm.trans (CodeObject.accepts_eq_true.2 ⟨outcome, h⟩)
      | error e =>
        have hperform := perform_refused (c := c.withProgram built) hmissing h
        rw [hperform, Bool.false_or]
        exact after_served hmissing hbinary hfailure built past
    | true =>
      rw [perform_served hmissing hbinary hfailure built hneeds, Bool.true_or, Bool.or_true]
      exact after_served hmissing hbinary hfailure true past

end NativeCode

/-! ## The function that is missing first -/

/-- The first function that the right-hand sides call, in reading order, that has no native code. -/
def EquationSet.unsupported? (set : EquationSet) (catalog : Catalog) : Option String :=
  (Scope.calledNames set).find? fun name => (catalog.find? name).any fun f => !f.supports .native

/-- Leaving out later uses does not change which name is the first of a kind, if `q` tells from the name what `p` tells
from the function. -/
theorem Kernel.find?_firstUses {p : Function → Bool} {q : String → Bool} : ∀ {fs : List Function} {seen : List String},
    (∀ f ∈ fs, p f = q f.name) → (∀ name ∈ seen, q name = false) →
      ((firstUses seen fs).find? p).map (·.name) = (fs.map (·.name)).find? q
  | [], _, _, _ => rfl
  | f :: fs, seen, hnamed, hseen => by
    obtain ⟨hf, hnamed⟩ := List.forall_mem_cons.1 hnamed
    rw [firstUses, List.map_cons]
    split
    · rename_i hmem
      have hnot : ¬ q f.name = true := by rw [hseen _ hmem]; exact Bool.false_ne_true
      rw [find?_firstUses hnamed hseen, List.find?_cons_of_neg hnot]
    · cases hq : q f.name with
      | true =>
        rw [List.find?_cons_of_pos (hf.trans hq), List.find?_cons_of_pos hq]
        rfl
      | false =>
        have hnot : ¬ q f.name = true := by rw [hq]; exact Bool.false_ne_true
        rw [List.find?_cons_of_neg (hf ▸ hnot), List.find?_cons_of_neg hnot]
        exact find?_firstUses hnamed (List.forall_mem_cons.2 ⟨hq, hseen⟩)

/-- **The first name among the missing is the first unsupported function of the equations.** -/
theorem Kernel.head?_missing {set : EquationSet} {catalog : Catalog} {constants : Constants} {r : Resolved}
    (hkeyed : catalog.Keyed) (h : resolve set catalog constants = .ok r) :
    (generate r).missing.head? = set.unsupported? catalog := by
  have hcalled := Scope.called_of_lowerEquations hkeyed (Resolved.built_of_resolve h) (Resolved.updates_of_resolve h)
  have hnamed : ∀ f ∈ r.updates.flatMap (fun u => calls u.node),
      (!f.supports .native) = (catalog.find? f.name).any fun g => !g.supports .native := by
    intro f hf
    obtain ⟨u, hu, hf⟩ := List.mem_flatMap.1 hf
    rw [Resolved.specified_of_resolve hkeyed h hu hf]
    rfl
  calc (generate r).missing.head?
      = ((functionsUsed r).find? fun f => !f.supports .native).map (·.name) := by
        rw [generate, List.head?_map, List.head?_filter]
    _ = ((r.updates.flatMap fun u => calls u.node).map (·.name)).find? fun name =>
          (catalog.find? name).any fun f => !f.supports .native := by
        rw [functionsUsed_eq]
        exact find?_firstUses (q := fun name => (catalog.find? name).any fun f => !f.supports .native) hnamed
          fun _ h => absurd h List.not_mem_nil
    _ = set.unsupported? catalog := by rw [hcalled, EquationSet.unsupported?, Scope.calledNames]

/-! ## Compiled code -/

/-- **How native code answers requests** beside the interpreted code of the same equations, if the function that lacks
code and the reason of the toolchain's failure are these. -/
structure CodeObject.Serves (native interpreted : CodeObject) (unsupported? failure? : Option String) : Prop where
  /-- A function without code refuses every request, and nothing is built. -/
  incomplete : ∀ name, unsupported? = some name → ∀ past, (native.after past).builds? = some 0 ∧
    ∀ request, ((native.after past).perform request).1 = .error (.notImplemented name .native)
  /-- What interpreted code refuses is refused for the same reason, and nothing is built for it. -/
  refused : unsupported? = none → ∀ past request e, (interpreted.perform request).1 = .error e →
    (native.after past).perform request = (.error e, native.after past)
  /-- What needs the program is refused again and again while it cannot be built. -/
  failing : unsupported? = none → ∀ reason, failure? = some reason → ∀ past, (native.after past).builds? = some 0 ∧
    ∀ request, interpreted.accepts request → ((native.after past).perform request).1 = .error (.toolchain reason)
  /-- What needs the program is answered by it, and it is built once, when it is first needed.  A program that does what
  the equations say answers as interpreted code does. -/
  served : unsupported? = none → failure? = none → ∀ past,
    (native.after past).builds? = some (past.any interpreted.accepts).toNat ∧
      (∀ request, interpreted.accepts request → ((native.after past).perform request).1 = native.answer request) ∧
        (native.Faithful → ∀ request outcome, (interpreted.perform request).1 = .ok outcome →
          ((native.after past).perform request).1 = .ok outcome)

theorem NativeCode.serves {c : NativeCode} (hbinary : c.binary = none) (hbuilds : c.builds = 0) :
    CodeObject.Serves (.native c) (.interpreted c.resolved) c.kernel.missing.head? c.toolchain.failure := by
  have hunbuilt : c.withProgram false = c := by
    rw [withProgram, Bool.toNat_false, ← hbuilds, if_neg Bool.false_ne_true, ← hbinary]
  refine ⟨fun name hname past => ?_, fun hcomplete past request e he => ?_, fun hcomplete reason hreason past => ?_,
    fun hcomplete hsucceeds past => ?_⟩
  · rw [after_incomplete hname]
    exact ⟨congrArg some hbuilds, fun request => by rw [perform_incomplete hname]⟩
  · have hmissing := List.head?_eq_none_iff.1 hcomplete
    cases hfailure : c.toolchain.failure with
    | some reason => rw [after_failing hmissing hfailure hbinary, perform_refused hmissing he]
    | none =>
      have hafter := after_served hmissing hbinary hfailure false past
      have hrefused := fun built => perform_refused (c := c.withProgram built) hmissing he
      rw [hunbuilt] at hafter
      rw [hafter]
      exact hrefused _
  · have hmissing := List.head?_eq_none_iff.1 hcomplete
    rw [after_failing hmissing hreason hbinary]
    exact ⟨congrArg some hbuilds, fun request hneeds => by rw [perform_failing hmissing hreason hbinary hneeds]⟩
  · have hmissing := List.head?_eq_none_iff.1 hcomplete
    have hafter := after_served hmissing hbinary hsucceeds false past
    have hanswers : ∀ request, (CodeObject.interpreted c.resolved).accepts request →
        (((CodeObject.native c).after past).perform request).1 = (CodeObject.native c).answer request := by
      intro request hneeds
      rw [hunbuilt] at hafter
      rw [hafter, perform_served hmissing hbinary hsucceeds _ hneeds]
    refine ⟨?_, hanswers, fun hfaithful request outcome houtcome => ?_⟩
    · rw [hunbuilt, Bool.false_or] at hafter
      rw [hafter]
      rfl
    · rw [hanswers request (CodeObject.accepts_eq_true.2 ⟨outcome, houtcome⟩), CodeObject.answer_of_faithful hfaithful]
      exact houtcome

/-- **Native code is compiled like interpreted code, and built when it is needed.**  With a toolchain a set compiles for
both backends or is refused for both with the same fault, and native code answers requests as `Serves` tells. -/
theorem Compiler.compile_native {c : Compiler} {toolchain : Toolchain} (hkeyed : c.catalog.Keyed)
    (htoolchain : c.toolchain = some toolchain) (set : EquationSet) (constants : Constants) :
    (c.compile set constants .native).map (·.resolved) = (c.compile set constants .interpreted).map (·.resolved) ∧
      ∀ native interpreted, c.compile set constants .native = .ok native →
        c.compile set constants .interpreted = .ok interpreted →
          native.Serves interpreted (set.unsupported? c.catalog) toolchain.failure := by
  unfold compile
  rw [htoolchain]
  cases hresolve : resolve set c.catalog constants with
  | error fault => exact ⟨rfl, nofun⟩
  | ok r =>
    refine ⟨rfl, fun native interpreted hnative hinterpreted => ?_⟩
    obtain rfl := Except.ok.inj hnative
    obtain rfl := Except.ok.inj hinterpreted
    rw [← Kernel.head?_missing hkeyed hresolve]
    exact NativeCode.serves rfl rfl

/-- Without native code for `abs` whatever is asked is refused.  With it a snapshot without values is refused for what
it lacks, and a preparation builds the program or finds that the toolchain fails. -/
theorem Compiler.compile_native_absolute :
    let program (_ : String) : Except ExecError String := .error (.host "no program")
    let cc : Option String → Option Toolchain := fun failure? => some ⟨"cc", [], failure?, fun _ => program⟩
    let lacking : Compiler := ⟨Catalog.standard.insert "abs" preservingAbs.function, cc none⟩
    let broken : Compiler := ⟨.standard, cc (some "no cc")⟩
    let working : Compiler := ⟨.standard, cc none⟩
    let bare : CodeObject.Request := .execute ⟨1, 0.0, 0.0, .empty⟩
    (∃ native, lacking.compile absolute .empty .native = .ok native ∧
      ((native.after [.prepare]).perform bare).1 = .error (.notImplemented "abs" .native)) ∧
    (∃ native, broken.compile absolute .empty .native = .ok native ∧
      ((native.after [.prepare]).perform bare).1 = .error (.missingVariable "v") ∧
      ((native.after [.prepare]).perform .prepare).1 = .error (.toolchain "no cc")) ∧
    ∃ native, working.compile absolute .empty .native = .ok native ∧ (native.after [bare]).builds? = some 0 ∧
      (native.after [bare, .prepare, bare, .prepare]).builds? = some 1 := by
  intro program cc lacking broken working bare
  have hregistered : Catalog.standard.register preservingAbs.function = (.ok (), lacking.catalog) := rfl
  have hkeyed := Catalog.keyed_standard
  have hlacking := Compiler.compile_native (Catalog.keyed_register hkeyed hregistered) (rfl : lacking.toolchain = _)
    absolute .empty
  have hbroken := Compiler.compile_native hkeyed (rfl : broken.toolchain = _) absolute .empty
  have hworking := Compiler.compile_native hkeyed (rfl : working.toolchain = _) absolute .empty
  have hlacks : absolute.unsupported? lacking.catalog = some "abs" := rfl
  have hcomplete : absolute.unsupported? .standard = none := rfl
  refine ⟨⟨_, rfl, ?_⟩, ⟨_, rfl, ?_, ?_⟩, ⟨_, rfl, ?_, ?_⟩⟩
  · exact ((hlacking.2 _ _ rfl rfl).incomplete "abs" hlacks _).2 bare
  · rw [(hbroken.2 _ _ rfl rfl).refused hcomplete _ bare _ rfl]
  · exact ((hbroken.2 _ _ rfl rfl).failing hcomplete "no cc" rfl _).2 .prepare rfl
  · exact ((hworking.2 _ _ rfl rfl).served hcomplete rfl _).1
  · exact ((hworking.2 _ _ rfl rfl).served hcomplete rfl _).1

end FixedStep
