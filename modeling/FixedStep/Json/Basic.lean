import FixedStep.Decimal.Layout
import FixedStep.Text.Quoted
/-!
# Json — JSON values and their two texts

Objects keep the order of their fields.  The compact text has no blanks; the indented text puts every item and field on
a line of its own, two blanks deeper than its container.
-/
namespace FixedStep

inductive Json where
  | null
  /-- NaN and the infinities have no JSON text and are written as null. -/
  | number (value : Float)
  | string (text : String)
  | array (items : List Json)
  | object (fields : List (String × Json))
deriving Repr

namespace Json

/-- Numbers have a point or an exponent with its sign; the exponent is written outside `1e-5 … 1e16`. -/
def numberLayout : Layout where
  plainFrom := -5
  plainBelow := 16
  pointZero := true
  plusSign := true
  tie := .toEven
  nan := "null"
  infinity := "null"

def numberText (x : Float) : String := if Binary.isFinite x then numberLayout.render x else "null"

/-- One character inside quotes: only quotes, backslashes and controls are escaped. -/
def quotedChar (c : Char) : List Char :=
  if c = '"' then ['\\', '"']
  else if c = '\\' then ['\\', '\\']
  else if c = '\x08' then ['\\', 'b']
  else if c = '\x0c' then ['\\', 'f']
  else if c = '\n' then ['\\', 'n']
  else if c = '\r' then ['\\', 'r']
  else if c = '\t' then ['\\', 't']
  else if c.toNat < 0x20 then '\\' :: 'u' :: Text.hexFixed 4 c.toNat
  else [c]

def quote (s : String) : String := String.ofList ('"' :: s.toList.flatMap quotedChar ++ ['"'])

mutual

/-- **The compact text of a value.** -/
def compact : Json → String
  | null => "null"
  | number x => numberText x
  | string s => quote s
  | array items => "[" ++ ",".intercalate (compactItems items) ++ "]"
  | object fields => "\x7b" ++ ",".intercalate (compactFields fields) ++ "\x7d"

def compactItems : List Json → List String
  | [] => []
  | v :: vs => v.compact :: compactItems vs

def compactFields : List (String × Json) → List String
  | [] => []
  | (name, v) :: vs => (quote name ++ ":" ++ v.compact) :: compactFields vs

end

def indent (depth : Nat) : String := "\n" ++ String.ofList (List.replicate (2 * depth) ' ')

/-- Items on lines of their own between two brackets, nothing between them if there are none. -/
def bracketed (left right : String) (depth : Nat) (items : List String) : String :=
  if items.isEmpty then left ++ right
  else left ++ indent (depth + 1) ++ ("," ++ indent (depth + 1)).intercalate items ++ indent depth ++ right

mutual

/-- **The indented text of a value** at a depth. -/
def indented (depth : Nat) : Json → String
  | null => "null"
  | number x => numberText x
  | string s => quote s
  | array items => bracketed "[" "]" depth (indentedItems (depth + 1) items)
  | object fields => bracketed "\x7b" "\x7d" depth (indentedFields (depth + 1) fields)

def indentedItems (depth : Nat) : List Json → List String
  | [] => []
  | v :: vs => v.indented depth :: indentedItems depth vs

def indentedFields (depth : Nat) : List (String × Json) → List String
  | [] => []
  | (name, v) :: vs => (quote name ++ ": " ++ v.indented depth) :: indentedFields depth vs

end

end Json
end FixedStep
