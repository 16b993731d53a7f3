import FixedStep.Decimal.Layout
/-!
# Diagnostic — what a run has to say

A diagnostic is an error or a warning with a message, facts that locate it, and perhaps a code and a hint.  Values that
are no numbers are reported this way and never as errors.  A run gives its diagnostics in the order they arise; whether
they are collected, logged or dropped is for whoever runs it.
-/
namespace FixedStep

inductive Severity where
  | error
  | warning
deriving DecidableEq, Repr

inductive DiagnosticCode where
  /-- A value that is no number came from values that all were. -/
  | invalidValue
deriving DecidableEq, Repr

def DiagnosticCode.text : DiagnosticCode → String
  | invalidValue => "W0100"

structure Diagnostic where
  severity : Severity
  message : String
  code : Option DiagnosticCode
  hint : Option String
  /-- Labelled facts, in the order they were attached. -/
  context : List (String × String)
deriving DecidableEq, Repr

namespace Diagnostic

def contextValue (d : Diagnostic) (label : String) : Option String :=
  (d.context.find? fun c => c.1 == label).map (·.2)

def levelText : Severity → String
  | .error => "error"
  | .warning => "warning"

/-- **The text of a diagnostic**: level, code, message, facts, and the hint on a line of its own. -/
def text (d : Diagnostic) : String :=
  levelText d.severity ++ (match d.code with | some c => "[" ++ c.text ++ "]" | none => "") ++ ": " ++ d.message ++
    String.join (d.context.map fun c => " (" ++ c.1 ++ " = " ++ c.2 ++ ")") ++
    match d.hint with | some h => "\n  hint: " ++ h | none => ""

/-- **The warning about values that are no numbers**: how many a variable of a group got at a time. -/
def invalidValues (group variableName : String) (t : Float) (count : Nat) : Diagnostic where
  severity := .warning
  message := "invalid value encountered"
  code := some .invalidValue
  hint := none
  context := [("group", group), ("variable", variableName), ("t", showNumber t), ("count", toString count)]

end Diagnostic
end FixedStep
