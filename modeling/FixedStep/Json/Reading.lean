import FixedStep.Json.Basic
import FixedStep.Text.Bytes
import FixedStep.Text.Quoted
/-!
# Reading — typed values read from a JSON text

The text is read once from the front, each value as the type that is wanted, so the first fault in reading order is the
one that is found.  A fault is the end of the text, a text that is no JSON, or a value of the wrong kind.  A decimal is
read to 64 bits of digits and then scaled by one power of ten, which is not always the nearest number.
-/
namespace FixedStep
namespace Json

inductive Fault where
  | syntactic
  | data
  | endOfText
deriving DecidableEq, Repr

/-- A value read from the front of a text, and the rest. -/
abbrev Reader (α : Type) : Type := List Char → Except Fault (α × List Char)

def skipBlanks (cs : List Char) : List Char := cs.dropWhile fun c => c == ' ' || c == '\n' || c == '\t' || c == '\r'

def word : List Char → Reader Unit
  | [], cs => .ok ((), cs)
  | _ :: _, [] => .error .endOfText
  | w :: ws, c :: cs => if c = w then word ws cs else .error .syntactic

/-! ## Strings -/

open Text (hexValue?)

/-- Four hexadecimal digits.  The text ends too early when fewer than four bytes are left. -/
def hexQuad : Reader Nat
  | a :: b :: c :: d :: rest =>
    match hexValue? a, hexValue? b, hexValue? c, hexValue? d with
    | some a, some b, some c, some d => .ok (((a * 16 + b) * 16 + c) * 16 + d, rest)
    | _, _, _, _ => .error .syntactic
  | cs => if 4 ≤ byteLength cs then .error .syntactic else .error .endOfText

/-- The character of a four-digit escape, whose second half follows if it is the first of a pair. -/
def unicodeEscape : Reader Char := fun cs => do
  let (n, cs) ← hexQuad cs
  if 0xdc00 ≤ n ∧ n ≤ 0xdfff then .error .syntactic
  else if n < 0xd800 ∨ 0xdbff < n then .ok (Char.ofNat n, cs)
  else match cs with
    | [] => .error .endOfText
    | ['\\'] => .error .endOfText
    | '\\' :: 'u' :: cs => do
      let (m, cs) ← hexQuad cs
      if m < 0xdc00 ∨ 0xdfff < m then .error .syntactic
      else .ok (Char.ofNat ((n - 0xd800) * 0x400 + (m - 0xdc00) + 0x10000), cs)
    | _ => .error .syntactic

def shortEscape? : Char → Option Char
  | '"' => some '"'
  | '\\' => some '\\'
  | '/' => some '/'
  | 'b' => some '\x08'
  | 'f' => some '\x0c'
  | 'n' => some '\n'
  | 'r' => some '\r'
  | 't' => some '\t'
  | _ => none

/-- The rest of a string whose characters so far are given, the last one first.  Each turn uses up a character. -/
def stringRest : Nat → List Char → Reader String
  | 0, _, _ => .error .endOfText
  | _ + 1, _, [] => .error .endOfText
  | _ + 1, done, '"' :: cs => .ok (String.ofList done.reverse, cs)
  | fuel + 1, done, '\\' :: cs =>
    match cs with
    | [] => .error .endOfText
    | 'u' :: cs => do
      let (c, cs) ← unicodeEscape cs
      stringRest fuel (c :: done) cs
    | e :: cs =>
      match shortEscape? e with
      | some c => stringRest fuel (c :: done) cs
      | none => .error .syntactic
  | fuel + 1, done, c :: cs => if c.toNat < 0x20 then .error .syntactic else stringRest fuel (c :: done) cs

/-- **A string**, after its opening quote. -/
def readString : Reader String := fun cs => stringRest (cs.length + 1) [] cs

/-- A string that is passed over, after its opening quote: halves of pairs may stand alone. -/
def passString : Nat → Reader Unit
  | 0, _ => .error .endOfText
  | _ + 1, [] => .error .endOfText
  | _ + 1, '"' :: cs => .ok ((), cs)
  | fuel + 1, '\\' :: cs =>
    match cs with
    | [] => .error .endOfText
    | 'u' :: cs => do
      let (_, cs) ← hexQuad cs
      passString fuel cs
    | e :: cs => if (shortEscape? e).isSome then passString fuel cs else .error .syntactic
  | fuel + 1, c :: cs => if c.toNat < 0x20 then .error .syntactic else passString fuel cs

/-! ## Numbers -/

/-- The greatest natural kept while digits are read. -/
def digitLimit : Nat := UInt64.size - 1

def digitOf (c : Char) : Nat := c.toNat - '0'.toNat

/-- Digits taken into a natural as long as it stays within the limit; the natural, the number of digits taken, and the
rest. -/
def takeDigits : Nat → List Char → Nat × Nat × List Char
  | n, [] => (n, 0, [])
  | n, c :: cs =>
    if c.isDigit ∧ n * 10 + digitOf c ≤ digitLimit then
      let (m, k, rest) := takeDigits (n * 10 + digitOf c) cs
      (m, k + 1, rest)
    else (n, 0, c :: cs)

def powerOfTen (e : Nat) : Float := Float.ofScientific 1 false e

/-- **A natural times a power of ten**, by one multiplication or division; far below one, by several divisions.  Nothing
if the result is infinite. -/
def scaled : Nat → Float → Int → Option Float
  | 0, _, _ => some 0.0
  | fuel + 1, f, e =>
    if e.natAbs ≤ 308 then
      if 0 ≤ e then
        let r := f * powerOfTen e.natAbs
        if Binary.isFinite r then some r else none
      else some (f / powerOfTen e.natAbs)
    else if f == 0.0 then some f
    else if 0 ≤ e then none
    else scaled fuel (f / powerOfTen 308) (e + 308)

/-- The number with a sign, from the natural of its digits and its power of ten. -/
def signedValue (negative : Bool) (n : Nat) (e : Int) (cs : List Char) : Except Fault (Float × List Char) :=
  match scaled 4 (Float.ofNat n) e with
  | some f => .ok (if negative then -f else f, cs)
  | none => .error .syntactic

/-- The bounds of a power of ten, 32 bits wide. -/
def exponentLimit : Nat := 0x7fffffff

/-- The exponent part, after its letter. -/
def numberExponent (negative : Bool) (n : Nat) (e : Int) (cs : List Char) : Except Fault (Float × List Char) :=
  let (down, cs) := match cs with | '+' :: cs => (false, cs) | '-' :: cs => (true, cs) | cs => (false, cs)
  match cs with
  | [] => .error .endOfText
  | c :: _ =>
    if !c.isDigit then .error .syntactic
    else
      let digits := cs.takeWhile Char.isDigit
      let k := digits.foldl (fun n c => n * 10 + digitOf c) 0
      let rest := cs.drop digits.length
      if exponentLimit < k then
        if n ≠ 0 ∧ !down then .error .syntactic else .ok (if negative then -0.0 else 0.0, rest)
      else
        let sum := if down then e - k else e + k
        signedValue negative n (max (-(exponentLimit : Int) - 1) (min exponentLimit sum)) rest

/-- What may follow the digits of a number: an exponent part or nothing. -/
def numberTail (negative : Bool) (n : Nat) (e : Int) : List Char → Except Fault (Float × List Char)
  | 'e' :: cs => numberExponent negative n e cs
  | 'E' :: cs => numberExponent negative n e cs
  | cs => signedValue negative n e cs

/-- The digits after the point.  Digits beyond the limit are passed over. -/
def numberFraction (negative : Bool) (n : Nat) (e : Int) (cs : List Char) : Except Fault (Float × List Char) :=
  let (m, k, rest) := takeDigits n cs
  match rest with
  | [] => if k = 0 then .error .endOfText else numberTail negative m (e - k) []
  | c :: _ =>
    if c.isDigit then numberTail negative m (e - k) (rest.dropWhile Char.isDigit)
    else if k = 0 then .error .syntactic
    else numberTail negative m (e - k) rest

/-- **A number**, after its minus sign if it is negative.  Whole digits beyond the limit count as powers of ten. -/
def readNumber (negative : Bool) : Reader Float
  | [] => .error .endOfText
  | '0' :: cs =>
    match cs with
    | '.' :: rest => numberFraction negative 0 0 rest
    | c :: rest => if c.isDigit then .error .syntactic else numberTail negative 0 0 (c :: rest)
    | [] => numberTail negative 0 0 []
  | c :: cs =>
    if !c.isDigit then .error .syntactic
    else
      let (n, _, rest) := takeDigits 0 (c :: cs)
      let beyond := (rest.takeWhile Char.isDigit).length
      match rest.drop beyond with
      | '.' :: rest => numberFraction negative n beyond rest
      | rest => numberTail negative n beyond rest

/-- The digits of an exponent part that is passed over. -/
def passExponent (cs : List Char) : Except Fault (Unit × List Char) :=
  let cs := match cs with | '+' :: cs => cs | '-' :: cs => cs | cs => cs
  match cs.takeWhile Char.isDigit with
  | [] => .error .syntactic
  | digits => .ok ((), cs.drop digits.length)

/-- A number that is passed over, after its minus sign.  It may not end too early at all. -/
def passNumber (cs : List Char) : Except Fault (Unit × List Char) :=
  let tail : List Char → Except Fault (Unit × List Char)
    | 'e' :: cs => passExponent cs
    | 'E' :: cs => passExponent cs
    | cs => .ok ((), cs)
  let after : List Char → Except Fault (Unit × List Char)
    | '.' :: cs =>
      match cs.takeWhile Char.isDigit with
      | [] => .error .syntactic
      | digits => tail (cs.drop digits.length)
    | cs => tail cs
  match cs with
  | '0' :: c :: rest => if c.isDigit then .error .syntactic else after (c :: rest)
  | cs =>
    match cs.takeWhile Char.isDigit with
    | [] => .error .syntactic
    | digits => after (cs.drop digits.length)

/-! ## Values of a wanted type -/

/-- The fault of a value that has the wrong kind, unless it is no value: it is read as far as its kind shows. -/
def wrongKind {α : Type} (cs : List Char) : Except Fault α :=
  let data {β : Type} (r : Except Fault β) : Except Fault α :=
    match r with | .ok _ => .error .data | .error f => .error f
  match cs with
  | 'n' :: cs => data (word ['u', 'l', 'l'] cs)
  | 't' :: cs => data (word ['r', 'u', 'e'] cs)
  | 'f' :: cs => data (word ['a', 'l', 's', 'e'] cs)
  | '-' :: cs => data (readNumber true cs)
  | '"' :: cs => data (readString cs)
  | '[' :: _ => .error .data
  | '\x7b' :: _ => .error .data
  | c :: cs => if c.isDigit then data (readNumber false (c :: cs)) else .error .syntactic
  | [] => .error .syntactic

def wantNumber : Reader Float := fun cs =>
  match skipBlanks cs with
  | [] => .error .endOfText
  | '-' :: cs => readNumber true cs
  | c :: cs => if c.isDigit then readNumber false (c :: cs) else wrongKind (c :: cs)

def wantString : Reader String := fun cs =>
  match skipBlanks cs with
  | [] => .error .endOfText
  | '"' :: cs => readString cs
  | cs => wrongKind cs

def wantNull : Reader Unit := fun cs =>
  match skipBlanks cs with
  | [] => .error .endOfText
  | 'n' :: cs => word ['u', 'l', 'l'] cs
  | cs => wrongKind cs

/-! ## Arrays -/

/-- Whether an array goes on, and the text from its next item or its closing bracket on. -/
def nextItem (first : Bool) : Reader Bool := fun cs =>
  match skipBlanks cs with
  | [] => .error .endOfText
  | ']' :: cs => .ok (false, ']' :: cs)
  | c :: cs =>
    if first then .ok (true, c :: cs)
    else if c = ',' then
      match skipBlanks cs with
      | [] => .error .endOfText
      | ']' :: _ => .error .syntactic
      | cs => .ok (true, cs)
    else .error .syntactic

def arrayEnd : Reader Unit := fun cs =>
  match skipBlanks cs with
  | [] => .error .endOfText
  | ']' :: cs => .ok ((), cs)
  | _ => .error .syntactic

/-- The items of an array of one type, after its opening bracket; each turn uses up a character. -/
def itemsRest {α : Type} (item : Reader α) : Nat → Bool → List α → Reader (List α)
  | 0, _, _, _ => .error .endOfText
  | fuel + 1, first, done, cs => do
    let (more, cs) ← nextItem first cs
    if more then
      let (x, cs) ← item cs
      itemsRest item fuel false (x :: done) cs
    else
      let (_, cs) ← arrayEnd cs
      return (done.reverse, cs)

/-- An array of strings is wanted. -/
def wantStrings : Reader (List String) := fun cs =>
  match skipBlanks cs with
  | [] => .error .endOfText
  | '[' :: cs => itemsRest wantString (cs.length + 1) true [] cs
  | cs => wrongKind cs

/-- The items of an array that stand for the fields of a record in order; it may end early. -/
def recordItems {σ : Type} : List (σ → Reader σ) → Bool → σ → Reader σ
  | [], _, s, cs => do
    let (_, cs) ← arrayEnd cs
    return (s, cs)
  | field :: fields, first, s, cs => do
    let (more, cs) ← nextItem first cs
    if more then
      let (s, cs) ← field s cs
      recordItems fields false s cs
    else
      let (_, cs) ← arrayEnd cs
      return (s, cs)

/-! ## Objects -/

/-- A field's name is wanted; nothing but a string is one. -/
def wantName : Reader String := fun cs =>
  match skipBlanks cs with
  | [] => .error .endOfText
  | '"' :: cs => readString cs
  | _ => .error .syntactic

def colon : Reader Unit := fun cs =>
  match skipBlanks cs with
  | [] => .error .endOfText
  | ':' :: cs => .ok ((), cs)
  | _ => .error .syntactic

/-- Whether an object goes on: the text after the quote of its next field's name, or after its closing brace. -/
def nextField (first : Bool) : Reader Bool := fun cs =>
  match skipBlanks cs with
  | [] => .error .endOfText
  | '\x7d' :: cs => .ok (false, cs)
  | c :: cs =>
    if first then (if c = '"' then .ok (true, cs) else .error .syntactic)
    else if c = ',' then
      match skipBlanks cs with
      | [] => .error .endOfText
      | '"' :: cs => .ok (true, cs)
      | _ => .error .syntactic
    else .error .syntactic

/-- The fields of a record by name, after its opening brace; each turn uses up a character.  A name may be refused
before anything after it is read. -/
def recordFields {σ : Type} (field : String → σ → Except Fault (Reader σ)) : Nat → Bool → σ → Reader σ
  | 0, _, _, _ => .error .endOfText
  | fuel + 1, first, s, cs => do
    let (more, cs) ← nextField first cs
    if more then
      let (name, cs) ← readString cs
      let value ← field name s
      let (_, cs) ← colon cs
      let (s, cs) ← value cs
      recordFields field fuel false s cs
    else return (s, cs)

/-- **A record is wanted**: an object of its fields, or an array of them in order. -/
def wantRecord {σ : Type} (field : String → σ → Except Fault (Reader σ)) (fields : List (σ → Reader σ)) (s : σ) :
    Reader σ := fun cs =>
  match skipBlanks cs with
  | [] => .error .endOfText
  | '[' :: cs => recordItems fields true s cs
  | '\x7b' :: cs => recordFields field (cs.length + 1) true s cs
  | cs => wrongKind cs

/-- **One of some words is wanted**: the word, or an object with the word as its only field and null under it. -/
def wantWord {α : Type} (ofWord? : String → Option α) : Reader α := fun cs =>
  let known (s : String) : Except Fault α := match ofWord? s with | some a => .ok a | none => .error .data
  match skipBlanks cs with
  | [] => .error .endOfText
  | '"' :: cs => do
    let (s, cs) ← readString cs
    return (← known s, cs)
  | '\x7b' :: cs => do
    let (s, cs) ← wantName cs
    let a ← known s
    let (_, cs) ← colon cs
    let (_, cs) ← wantNull cs
    match skipBlanks cs with
    | [] => .error .endOfText
    | '\x7d' :: cs => return (a, cs)
    | _ => .error .syntactic
  | _ => .error .syntactic

/-! ## Values passed over -/

mutual

/-- **Any value, passed over.**  Each turn uses up a character. -/
def passValue : Nat → Reader Unit
  | 0, _ => .error .endOfText
  | fuel + 1, cs =>
    match skipBlanks cs with
    | [] => .error .endOfText
    | 'n' :: cs => word ['u', 'l', 'l'] cs
    | 't' :: cs => word ['r', 'u', 'e'] cs
    | 'f' :: cs => word ['a', 'l', 's', 'e'] cs
    | '-' :: cs => passNumber cs
    | '"' :: cs => passString (cs.length + 1) cs
    | '[' :: cs =>
      match skipBlanks cs with
      | ']' :: cs => .ok ((), cs)
      | cs => passItems fuel cs
    | '\x7b' :: cs =>
      match skipBlanks cs with
      | '\x7d' :: cs => .ok ((), cs)
      | cs => passFields fuel cs
    | c :: cs => if c.isDigit then passNumber (c :: cs) else .error .syntactic

def passItems : Nat → Reader Unit
  | 0, _ => .error .endOfText
  | fuel + 1, cs => do
    let (_, cs) ← passValue fuel cs
    match skipBlanks cs with
    | [] => .error .endOfText
    | ',' :: cs => passItems fuel cs
    | ']' :: cs => .ok ((), cs)
    | _ => .error .syntactic

def passFields : Nat → Reader Unit
  | 0, _ => .error .endOfText
  | fuel + 1, cs =>
    match skipBlanks cs with
    | [] => .error .endOfText
    | '"' :: cs => do
      let (_, cs) ← passString (cs.length + 1) cs
      let (_, cs) ← colon cs
      let (_, cs) ← passValue fuel cs
      match skipBlanks cs with
      | [] => .error .endOfText
      | ',' :: cs => passFields fuel cs
      | '\x7d' :: cs => .ok ((), cs)
      | _ => .error .syntactic
    | _ => .error .syntactic

end

def ignore : Reader Unit := fun cs => passValue (2 * cs.length + 2) cs

/-- **A whole text as one value**, with nothing but blanks after it. -/
def readText {α : Type} (value : Reader α) (text : String) : Except Fault α := do
  let (a, cs) ← value text.toList
  match skipBlanks cs with
  | [] => .ok a
  | _ => .error .syntactic

end Json
end FixedStep
