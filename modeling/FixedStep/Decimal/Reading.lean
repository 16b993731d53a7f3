/-!
# Reading — a number read from its text

A decimal is a natural mantissa and a power of ten.  Its value is the nearest number, ties to an even significand.
Without a sign it is digits with an optional point and exponent; a signed text may also name NaN or an infinity.
-/
namespace FixedStep

/-- `mantissa * 10 ^ exponent` -/
structure Decimal where
  mantissa : Nat
  exponent : Int
deriving DecidableEq, Repr

namespace Decimal

/-- Beyond this power of ten every magnitude is infinite, and below its negative every one is zero. -/
def reach : Int := 400

/-- **The nearest number.**  A power of ten out of reach is settled first, so that no huge power is formed. -/
def toFloat (d : Decimal) : Float :=
  let top := (Nat.toDigits 10 d.mantissa).length + d.exponent
  if d.mantissa = 0 ∨ top < -reach then 0.0
  else if reach < top then 1.0 / 0.0
  else Float.ofScientific d.mantissa (d.exponent < 0) d.exponent.natAbs

def digitRun (cs : List Char) : Nat := (cs.takeWhile Char.isDigit).length

/-- The length of an exponent part in front: its letter, a sign or none, and one digit or more; zero if there is none. -/
def exponentRun : List Char → Nat
  | [] => 0
  | e :: cs =>
    if e = 'e' ∨ e = 'E' then
      match cs with
      | [] => 0
      | s :: rest =>
        if s = '+' ∨ s = '-' then (match digitRun rest with | 0 => 0 | n + 1 => n + 3)
        else match digitRun (s :: rest) with | 0 => 0 | n + 1 => n + 2
    else 0

/-- **The length of the longest unsigned decimal in front**, zero if there is none: digits, then a point with or without
digits, or a point with digits alone, then an exponent part. -/
def run (cs : List Char) : Nat :=
  let whole := digitRun cs
  match cs.drop whole with
  | '.' :: rest =>
    let fraction := digitRun rest
    if whole = 0 ∧ fraction = 0 then 0
    else whole + 1 + fraction + exponentRun (rest.drop fraction)
  | rest => if whole = 0 then 0 else whole + exponentRun rest

def digitsValue (cs : List Char) : Nat := cs.foldl (fun n c => 10 * n + (c.toNat - '0'.toNat)) 0

/-- The exponent written in an exponent part, zero for an empty one. -/
def exponentValue : List Char → Int
  | _ :: '-' :: cs => -(digitsValue cs : Int)
  | _ :: '+' :: cs => digitsValue cs
  | _ :: cs => digitsValue cs
  | [] => 0

/-- The decimal spelled by a text of the form `run` accepts. -/
def ofSpelling (cs : List Char) : Decimal :=
  let whole := cs.takeWhile Char.isDigit
  match cs.drop whole.length with
  | '.' :: rest =>
    let fraction := rest.takeWhile Char.isDigit
    ⟨digitsValue (whole ++ fraction), exponentValue (rest.drop fraction.length) - fraction.length⟩
  | rest => ⟨digitsValue whole, exponentValue rest⟩

end Decimal

inductive NumberError where
  | empty
  | invalid
deriving DecidableEq, Repr

namespace NumberError

def message : NumberError → String
  | .empty => "cannot parse float from empty string"
  | .invalid => "invalid float literal"

end NumberError

/-- The value of an unsigned text: a decimal from end to end, or a name in letters of either case. -/
def readUnsigned (cs : List Char) : Except NumberError Float :=
  if cs ≠ [] ∧ Decimal.run cs = cs.length then .ok (Decimal.ofSpelling cs).toFloat
  else
    let word := String.ofList (cs.map Char.toLower)
    if word = "nan" then .ok (0.0 / 0.0)
    else if word = "inf" ∨ word = "infinity" then .ok (1.0 / 0.0)
    else .error .invalid

/-- **The value of a number's text**, with at most one sign in front and no blanks. -/
def readNumber (s : String) : Except NumberError Float :=
  match s.toList with
  | [] => .error .empty
  | '-' :: cs => (readUnsigned cs).map Float.neg
  | '+' :: cs => readUnsigned cs
  | cs => readUnsigned cs

/-- The natural a text of digits spells, with at most a plus sign in front. -/
def readNatural (s : String) : Option Nat :=
  let cs := match s.toList with | '+' :: cs => cs | cs => cs
  if cs ≠ [] ∧ cs.all Char.isDigit then some (Decimal.digitsValue cs) else none

end FixedStep
