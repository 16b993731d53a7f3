import FixedStep.Kernel
import FixedStep.Protocol
import FixedStep.Toolchain
/-!
# CodeObject — a set of equations ready to run

Interpreted code evaluates the equations.  Native code is a generated program: that every function it calls has code is
checked first, the program is built when it is first needed, and its own answer is the outcome.
-/
namespace FixedStep

/-- The program generated for a set of equations, its place once it was built, and how often that was. -/
structure NativeCode where
  resolved : Resolved
  kernel : Kernel
  toolchain : Toolchain
  binary : Option String
  builds : Nat
  generated : kernel = Kernel.generate resolved

inductive CodeObject where
  | interpreted (resolved : Resolved)
  | native (code : NativeCode)

namespace NativeCode

def start (resolved : Resolved) (toolchain : Toolchain) : NativeCode :=
  ⟨resolved, Kernel.generate resolved, toolchain, none, 0, rfl⟩

/-- Whether every function called has code; the first without decides. -/
def checkCapabilities (c : NativeCode) : Except ExecError Unit :=
  match c.kernel.missing with
  | [] => .ok ()
  | f :: _ => .error (.notImplemented f .native)

/-- The program's place; it is built unless it was before. -/
def ensureBuilt (c : NativeCode) : Except ExecError String × NativeCode :=
  match c.binary with
  | some place => (.ok place, c)
  | none =>
    match c.toolchain.build c.kernel.source with
    | .ok place => (.ok place, ⟨c.resolved, c.kernel, c.toolchain, some place, c.builds + 1, c.generated⟩)
    | .error e => (.error e, c)

/-- The work before the first execution. -/
def prepare (c : NativeCode) : Except ExecError Unit × NativeCode :=
  match c.checkCapabilities with
  | .error e => (.error e, c)
  | .ok () => (c.ensureBuilt.1.map fun _ => (), c.ensureBuilt.2)

/-- **The answer of the program in a place** to a snapshot with these columns. -/
def answer (c : NativeCode) (place : String) (s : Snapshot) (columns : List Column) :
    Except ExecError (NameMap Column) := do
  let output ← c.toolchain.run place (Protocol.encodeInput s.len s.t s.dt columns)
  let written ← Protocol.decodeOutput output s.len c.kernel.outputs.length
  return .ofList (c.kernel.outputs.zip written)

/-- One execution: capabilities, then input, then the program. -/
def execute (c : NativeCode) (s : Snapshot) : Except ExecError (NameMap Column) × NativeCode :=
  match c.checkCapabilities with
  | .error e => (.error e, c)
  | .ok () =>
    match s.columns c.resolved.scope with
    | .error e => (.error e, c)
    | .ok columns =>
      match c.ensureBuilt with
      | (.error e, c) => (.error e, c)
      | (.ok place, c) => (c.answer place s columns, c)

end NativeCode

namespace CodeObject

def backend : CodeObject → Backend
  | interpreted _ => .interpreted
  | native _ => .native

def resolved : CodeObject → Resolved
  | interpreted r => r
  | native c => c.resolved

def targets (c : CodeObject) : List String := c.resolved.targets

/-- How often the program was built; interpreted code has none. -/
def builds? : CodeObject → Option Nat
  | interpreted _ => none
  | native c => some c.builds

/-- **The work before the first execution**, and the code object after it. -/
def prepare : CodeObject → Except ExecError Unit × CodeObject
  | interpreted r => (.ok (), interpreted r)
  | native c => (c.prepare.1, native c.prepare.2)

/-- **One execution**, and the code object after it. -/
def execute : CodeObject → Snapshot → Except ExecError (NameMap Column) × CodeObject
  | interpreted r, s => (r.execute s, interpreted r)
  | native c, s => ((c.execute s).1, native (c.execute s).2)

end CodeObject

/-- What a session compiles with: a catalog, and a toolchain if the host has one. -/
structure Compiler where
  catalog : Catalog
  toolchain : Option Toolchain

namespace Compiler

def backends (c : Compiler) : List Backend :=
  Backend.all.filter fun b => b == .interpreted || c.toolchain.isSome

/-- **A set of equations becomes a code object.**  The equations are judged before the backend is looked for. -/
def compile (c : Compiler) (set : EquationSet) (constants : Constants) (backend : Backend) :
    Checked CompileError CodeObject := do
  let resolved ← resolve set c.catalog constants
  match backend with
  | .interpreted => return .interpreted resolved
  | .native =>
    match c.toolchain with
    | none => refuse (.backendUnavailable .native)
    | some toolchain => return .native (.start resolved toolchain)

/-- The equations of a text without issues. -/
def readEquations (source : String) : Except CompileError EquationSet :=
  match parse source with
  | ⟨some set, []⟩ => .ok set
  | ⟨_, issues⟩ => .error (.parse issues)

/-- **A source text becomes a code object.** -/
def compileSource (c : Compiler) (source : String) (constants : Constants) (backend : Backend) :
    Checked CompileError CodeObject := do
  let set ← Checked.ofExcept (readEquations source)
  c.compile set constants backend

end Compiler
end FixedStep
