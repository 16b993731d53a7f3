import FixedStep.Evaluation
import FixedStep.Text.Blank
import FixedStep.Text.Quoted
/-!
# Protocol — what goes to a generated program and comes back

A program is a process of its own, and numbers cross to it and back as the sixteen hexadecimal digits of their bits.  It
is given the number of elements, the clock and the columns by slot, and writes the columns of the targets.
-/
namespace FixedStep
namespace Protocol

/-! ## To the program -/

/-- **A number as the hexadecimal digits of its bits.** -/
def bitsText (x : Float) : String := String.ofList (Text.hexFixed 16 x.toBits.toNat)

def encodeColumn (c : Column) : String := String.join (c.map fun x => bitsText x ++ "\n")

def encodeColumns (columns : List Column) : String := String.join (columns.map encodeColumn)

/-- **The input of a program.** -/
def encodeInput (len : Nat) (t dt : Float) (slots : List Column) : String :=
  toString len ++ "\n" ++ bitsText t ++ " " ++ bitsText dt ++ "\n" ++ encodeColumns slots

/-! ## From the program -/

/-- The number of 64 bits that hexadecimal digits go on to from `n`. -/
def readDigits : Nat → List Char → Except String Nat
  | n, [] => .ok n
  | n, c :: cs =>
    match Text.hexValue? c with
    | none => .error "invalid digit found in string"
    | some digit =>
      if 16 * n + digit < UInt64.size then readDigits (16 * n + digit) cs
      else .error "number too large to fit in target type"

/-- The characters after a plus sign, if any follow it. -/
def unsigned : List Char → List Char
  | '+' :: c :: cs => c :: cs
  | cs => cs

/-- The number whose bits have these hexadecimal digits. -/
def readBits (word : String) : Except String Float :=
  (readDigits 0 (unsigned word.toList)).map fun n => .ofBits (.ofNat n)

def readValue (word : String) : Except ExecError Float :=
  (readBits word).mapError fun reason => .protocol ("bad value `" ++ word ++ "`: " ++ reason)

def readValues : List String → Except ExecError (List Float)
  | [] => .ok []
  | word :: words => do
    let first ← readValue word
    let rest ← readValues words
    return first :: rest

/-- So many columns of one length. -/
def columnsOf (len : Nat) : Nat → List Float → List Column
  | 0, _ => []
  | count + 1, values => values.take len :: columnsOf len count (values.drop len)

/-- **The columns in what a program wrote**: it must be as many numbers as asked for. -/
def decodeOutput (output : String) (len count : Nat) : Except ExecError (List Column) :=
  let words := Text.words output
  if words.length ≠ len * count then
    .error (.protocol ("expected " ++ toString (len * count) ++ " values, kernel wrote " ++ toString words.length))
  else (readValues words).map (columnsOf len count)

end Protocol

/-! ## The program -/

namespace Resolved

/-- The columns of the targets after all updates, in the order of the updates. -/
def written (r : Resolved) (v : View) : List Column := r.updates.map fun u => (v.updateAll r.updates).column u.target

/-- **What the generated program does with its input**: the main routine reads the number of elements, the clock and the
arrays, runs the updates and writes the arrays of the targets. -/
def program (r : Resolved) (input : String) : Except ExecError String :=
  match Text.words input with
  | len :: t :: dt :: words =>
    match len.toNat?, Protocol.readBits t, Protocol.readBits dt, Protocol.readValues words with
    | some len, .ok t, .ok dt, .ok values =>
      let columns := Protocol.columnsOf len r.scope.stateVariables.length values
      .ok (Protocol.encodeColumns (r.written ⟨len, columns, t, dt⟩))
    | _, _, _, _ => .error (.protocol "kernel exited with exit status: 2: ")
  | _ => .error (.protocol "kernel exited with exit status: 2: ")

end Resolved
end FixedStep
