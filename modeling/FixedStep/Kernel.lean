import FixedStep.Lowering
import FixedStep.Text.Blank
/-!
# Kernel — a set of equations as a program of its own

The program reads the number of elements, the clock and every state array as bit patterns, runs each update as a loop
over the elements, and writes the arrays of the targets.  Functions enter by their substitutions first and their
definitions after, in the order of first use; those without code are listed as missing.
-/
namespace FixedStep

/-- A generated program and what it needs and yields. -/
structure Kernel where
  source : String
  /-- One assignment for each update. -/
  statements : List String
  /-- The variables in the order they are read. -/
  inputs : List String
  /-- The targets in the order they are written. -/
  outputs : List String
  /-- The functions used that have no code. -/
  missing : List String
deriving DecidableEq, Repr

namespace Kernel

/-- Literals have a point or an exponent, which is written outside `1e-4 … 1e16`. -/
def literalLayout : Layout where
  plainFrom := -4
  plainBelow := 16
  pointZero := true
  plusSign := false
  tie := .up
  nan := "NAN"
  infinity := "INFINITY"

/-- **A number as a literal**, in parentheses when it has a sign. -/
def literal (x : Float) : String :=
  if !x.isNaN && Binary.isNegative x then "(" ++ literalLayout.render x ++ ")" else literalLayout.render x

def arrayName (name : String) : String := "_var_" ++ name

/-- The element of a variable's array that the loop stands at. -/
def element (name : String) : String := arrayName name ++ "[_i]"

def clockName : ClockReading → String
  | .time => "_clock_t"
  | .step => "_clock_dt"

mutual

/-- **The text of an expression**: powers are calls, every other operation stands in parentheses. -/
def expression (s : Scope) : Node → String
  | .const v => literal v
  | .state slot => element (s.nameOf slot)
  | .clock reading => clockName reading
  | .neg n => "(-" ++ expression s n ++ ")"
  | .binary .pow l r => "pow(" ++ expression s l ++ ", " ++ expression s r ++ ")"
  | .binary op l r => "(" ++ expression s l ++ " " ++ op.text ++ " " ++ expression s r ++ ")"
  | .call f args => f.name ++ "(" ++ ", ".intercalate (expressions s args) ++ ")"

def expressions (s : Scope) : List Node → List String
  | [] => []
  | n :: ns => expression s n :: expressions s ns

end

def statement (s : Scope) (u : Update) : String :=
  element (s.nameOf u.target) ++ " = " ++ expression s u.node ++ ";"

/-! ## The functions used -/

/-- The functions found so far, in the order they were found in, and the names they were found under. -/
structure Uses where
  used : List Function
  seen : List String

namespace Uses

def start : Uses := ⟨[], []⟩

/-- A call: its function is kept if the name is new. -/
def meet (u : Uses) (f : Function) : Uses :=
  if f.name ∈ u.seen then u else ⟨u.used ++ [f], f.name :: u.seen⟩

mutual

/-- **The calls of a tree are met**: each before those in its arguments, from the left. -/
def collect (u : Uses) : Node → Uses
  | .const _ => u
  | .state _ => u
  | .clock _ => u
  | .neg n => u.collect n
  | .binary _ l r => (u.collect l).collect r
  | .call f args => (u.meet f).collectAll args

def collectAll (u : Uses) : List Node → Uses
  | [] => u
  | n :: ns => (u.collect n).collectAll ns

end

end Uses

/-- The functions a set of equations uses, in the order of first use. -/
def functionsUsed (r : Resolved) : List Function :=
  (r.updates.foldl (fun u update => u.collect update.node) Uses.start).used

/-! ## The program -/

def header : String :=
  "// Generated by eqsim. Do not edit.\n" ++
  "#include <cmath>\n" ++
  "#include <cstdint>\n" ++
  "#include <cstdio>\n" ++
  "#include <cstring>\n" ++
  "#include <vector>\n"

/-- Reading and writing arrays of bit patterns. -/
def helpers : String :=
  "static double _from_bits(unsigned long long b) \x7b\n" ++
  "    double d;\n" ++
  "    std::memcpy(&d, &b, sizeof d);\n" ++
  "    return d;\n" ++
  "\x7d\n" ++
  "\n" ++
  "static unsigned long long _to_bits(double d) \x7b\n" ++
  "    unsigned long long b;\n" ++
  "    std::memcpy(&b, &d, sizeof b);\n" ++
  "    return b;\n" ++
  "\x7d\n" ++
  "\n" ++
  "static bool _read_array(std::vector<double>& v, size_t n) \x7b\n" ++
  "    v.resize(n);\n" ++
  "    for (size_t i = 0; i < n; ++i) \x7b\n" ++
  "        unsigned long long b;\n" ++
  "        if (std::scanf(\"%llx\", &b) != 1) return false;\n" ++
  "        v[i] = _from_bits(b);\n" ++
  "    \x7d\n" ++
  "    return true;\n" ++
  "\x7d\n" ++
  "\n" ++
  "static void _write_array(const std::vector<double>& v) \x7b\n" ++
  "    for (double d : v) std::printf(\"%016llx\\n\", _to_bits(d));\n" ++
  "\x7d\n"

/-- The start of the main routine: the element count and the clock. -/
def opening : String :=
  "int main() \x7b\n" ++
  "    unsigned long long _n_in, _t_bits, _dt_bits;\n" ++
  "    if (std::scanf(\"%llu %llx %llx\", &_n_in, &_t_bits, &_dt_bits) != 3) return 2;\n" ++
  "    const size_t _n = (size_t)_n_in;\n" ++
  "    const double _clock_t = _from_bits(_t_bits);\n" ++
  "    const double _clock_dt = _from_bits(_dt_bits);\n" ++
  "    (void)_clock_t;\n" ++
  "    (void)_clock_dt;\n"

def readArray (name : String) : String :=
  "    std::vector<double> " ++ arrayName name ++ ";\n" ++
  "    if (!_read_array(" ++ arrayName name ++ ", _n)) return 2;\n"

def loop (statement : String) : String :=
  "    for (size_t _i = 0; _i < _n; ++_i) \x7b\n" ++
  "        " ++ statement ++ "\n" ++
  "    \x7d\n"

def writeArray (name : String) : String := "    _write_array(" ++ arrayName name ++ ");\n"

def closing : String := "    return 0;\n\x7d\n"

/-- A piece of function code on lines of its own, nothing for an empty one. -/
def codeLines (code : String) : String := if code.isEmpty then "" else Text.trimEnd code ++ "\n"

/-- The code of the functions used: all substitutions, then all definitions. -/
def functionCode (used : List Function) : String :=
  let fragments := used.filterMap (·.native)
  String.join (fragments.map fun f => codeLines f.defines) ++
    String.join (fragments.map fun f => codeLines f.supportCode)

/-- **The program of a set of equations.** -/
def generate (r : Resolved) : Kernel :=
  let used := functionsUsed r
  let statements := r.updates.map (statement r.scope)
  let inputs := r.scope.stateVariables.map (·.name)
  let outputs := r.targets
  { source := header ++ "\n" ++ functionCode used ++ "\n" ++ helpers ++ "\n" ++ opening ++
      String.join (inputs.map readArray) ++ String.join (statements.map loop) ++
      String.join (outputs.map writeArray) ++ closing
    statements
    inputs
    outputs
    missing := (used.filter fun f => !f.supports .native).map (·.name) }

end Kernel
end FixedStep
