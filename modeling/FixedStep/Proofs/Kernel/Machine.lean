import FixedStep.Proofs.Kernel.Reading
import FixedStep.Evaluation
/-!
# Machine — what running a generated program computes

The host of a program reads number words, calculates, and has a library of functions (`Machine`).  A program's names are
replaced as its own substitutions say; its statements then run one after the other, each as a loop over the elements
that writes an array in place (`Machine.run`).  Whatever the program does not provide for has no outcome.
-/
namespace FixedStep
namespace Kernel

/-! ## Substitutions of a program -/

def lines : List Char → List (List Char)
  | [] => [[]]
  | c :: cs =>
    if c = '\n' then [] :: lines cs
    else match lines cs with
      | [] => [[c]]
      | l :: ls => (c :: l) :: ls

/-- What a line that substitutes begins with. -/
def directive : List Char := ['#', 'd', 'e', 'f', 'i', 'n', 'e', ' ']

/-- The substitution of a line `#define name replacement`. -/
def define? (line : List Char) : Option (String × String) :=
  let text := line.dropWhile (· == ' ')
  let body := text.drop directive.length
  let name := body.takeWhile Lexeme.isNameRest
  let replacement := body.drop (name.length + 1)
  if directive.isPrefixOf text && Word.isName name && Word.isName replacement && body == name ++ ' ' :: replacement then
    some (String.ofList name, String.ofList replacement)
  else none

/-- The substitutions of a text, line by line. -/
def definitions (text : List Char) : List (String × String) := (lines text).filterMap define?

/-- A name with its replacement put for it. -/
def replace (definitions : List (String × String)) (name : String) : String :=
  ((definitions.find? fun d => d.1 == name).map (·.2)).getD name

/-! ## Machines -/

structure Machine where
  /-- The value of a number word. -/
  number : String → Option Float
  neg : Float → Float
  arithmetic : Operator → Float → Float → Float
  /-- The functions of the mathematical library, by name. -/
  library : String → List Float → Option Float

namespace Machine

/-- The arrays by name, and the clock. -/
structure Memory where
  arrays : NameMap Column
  t : Float
  dt : Float

def constant? (memory : Memory) (name : String) : Option Float :=
  if name = "NAN" then some (0.0 / 0.0)
  else if name = "INFINITY" then some (1.0 / 0.0)
  else if name = clockName .time then some memory.t
  else if name = clockName .step then some memory.dt
  else none

mutual

/-- The value of an expression at an element. -/
def value (m : Machine) (memory : Memory) (i : Nat) : Term → Option Float
  | .number w => m.number w
  | .constant name => constant? memory name
  | .element array => (memory.arrays.find? array).bind (·[i]?)
  | .neg t => (m.value memory i t).map m.neg
  | .binary op l r => (m.value memory i l).bind fun x => (m.value memory i r).map (m.arithmetic op x)
  | .call f args => (m.values memory i args).bind (m.library f)

def values (m : Machine) (memory : Memory) (i : Nat) : List Term → Option (List Float)
  | [] => some []
  | t :: ts => (m.value memory i t).bind fun x => (m.values memory i ts).map (x :: ·)

end

/-- The memory after one element was assigned. -/
def assign (m : Machine) (a : Assignment) (memory : Memory) (i : Nat) : Option Memory :=
  (memory.arrays.find? a.array).bind fun column => (m.value memory i a.value).bind fun x =>
    if i < column.length then some ⟨memory.arrays.insert a.array (column.set i x), memory.t, memory.dt⟩ else none

/-- The memory after the elements before `n` were assigned in their order. -/
def loop (m : Machine) (a : Assignment) (memory : Memory) : Nat → Option Memory
  | 0 => some memory
  | n + 1 => (m.loop a memory n).bind fun memory => m.assign a memory n

/-- The memory after statements, each read and then run over all elements. -/
def runAll (m : Machine) (rename : String → String) (len : Nat) : List String → Memory → Option Memory
  | [], memory => some memory
  | text :: texts, memory => (Assignment.ofText? rename text).bind fun a =>
    (m.loop a memory len).bind fun memory => m.runAll rename len texts memory

def written? (memory : Memory) : List String → Option (List (String × Column))
  | [] => some []
  | name :: names => (memory.arrays.find? (arrayName name)).bind fun column =>
    (written? memory names).map ((name, column) :: ·)

/-- **A run of a program**: the arrays it writes by name, from the element count, the clock and the arrays it reads. -/
def run (m : Machine) (k : Kernel) (len : Nat) (t dt : Float) (inputs : List Column) : Option (NameMap Column) :=
  let memory : Memory := ⟨.ofList ((k.inputs.map arrayName).zip inputs), t, dt⟩
  (m.runAll (replace (definitions k.source.toList)) len k.statements memory).bind fun memory =>
    (written? memory k.outputs).map NameMap.ofList

end Machine

/-- The functions of the mathematical library. -/
def mathLibrary : List (String × (Float → Float)) := [
  ("sin", Float.sin), ("cos", Float.cos), ("tan", Float.tan), ("sinh", Float.sinh), ("cosh", Float.cosh),
  ("tanh", Float.tanh), ("asin", Float.asin), ("acos", Float.acos), ("atan", Float.atan), ("exp", Float.exp),
  ("log", Float.log), ("log10", Float.log10), ("sqrt", Float.sqrt), ("ceil", Float.ceil), ("floor", Float.floor),
  ("fabs", Float.abs)]

/-- The operators and powers of a machine are those of evaluation. -/
structure Machine.Calculates (m : Machine) : Prop where
  neg : ∀ x, m.neg x = Float.neg x
  arithmetic : ∀ op, op ≠ .pow → ∀ x y, m.arithmetic op x y = op.apply x y
  pow : ∀ x y, m.library "pow" [x, y] = some (Float.pow x y)

/-- **A machine that conforms to what updates need**: it calculates as evaluation does, its library has the functions of
the mathematical library, and the literals printed for the numbers of the updates are read as those numbers. -/
structure Machine.Conforms (m : Machine) (r : Resolved) : Prop extends m.Calculates where
  functions : ∀ e ∈ mathLibrary, ∀ x, m.library e.1 [x] = some (e.2 x)
  literals : ∀ u ∈ r.updates, ∀ v ∈ constants u.node, Binary.isFinite v →
    (m.number (String.ofList (magnitudeText v))).map (if Binary.isNegative v then m.neg else id) = some v

end Kernel
end FixedStep
