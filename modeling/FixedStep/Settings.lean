import FixedStep.Backend
import FixedStep.Clock
import FixedStep.Json.Reading
import FixedStep.Text.Blank
/-!
# Settings — what a session is told beforehand

The length of a step, the backend and the compiler.  Every setting has a default, so an empty object is enough.  The
folder for built programs has a default that depends on the host, and is left open here.
-/
namespace FixedStep

/-- The compiler and the folder for what it builds. -/
structure CompilerSettings where
  command : String
  flags : List String
  folder : Option String
deriving DecidableEq, Repr

/-- The compiler to use when nothing is said. -/
def CompilerSettings.standard : CompilerSettings :=
  ⟨"c++", ["-O2", "-ffp-contract=off", "-std=c++17"], none⟩

structure Settings where
  dt : Float
  backend : Backend
  compiler : CompilerSettings
deriving DecidableEq, Repr

/-- Why settings are refused. -/
inductive SettingsError where
  | json (fault : Json.Fault)
  | invalidStep (dt : Float)
deriving DecidableEq, Repr

namespace Settings

/-- The settings when nothing is said. -/
def standard : Settings := ⟨1e-4, .interpreted, .standard⟩

/-- Settings read so far, and the names of the fields that were read. -/
structure Filling (σ : Type) where
  value : σ
  read : List String

/-- The value of a field put into the settings read so far. -/
def fill {σ : Type} (name : String) (read : σ → Json.Reader σ) (p : Filling σ) : Json.Reader (Filling σ) := fun cs => do
  let (value, cs) ← read p.value cs
  return (⟨value, name :: p.read⟩, cs)

/-- A field with another name is passed over. -/
def other {σ : Type} (p : Filling σ) : Json.Reader (Filling σ) := fun cs => do
  let (_, cs) ← Json.ignore cs
  return (p, cs)

/-- The fields of a record by their names, each of which may come once. -/
def byName {σ : Type} (fields : List (String × (σ → Json.Reader σ))) (name : String) (p : Filling σ) :
    Except Json.Fault (Json.Reader (Filling σ)) :=
  match fields.find? fun f => f.1 == name with
  | some (name, read) => if name ∈ p.read then .error .data else .ok (fill name read p)
  | none => .ok (other p)

/-- A record with the given fields, from its default. -/
def record {σ : Type} (fields : List (String × (σ → Json.Reader σ))) (standard : σ) : Json.Reader σ := fun cs => do
  let (p, cs) ← Json.wantRecord (byName fields) (fields.map fun f => fill f.1 f.2) ⟨standard, []⟩ cs
  return (p.value, cs)

/-- A field that takes the place of its default. -/
def field {σ α : Type} (put : σ → α → σ) (read : Json.Reader α) (s : σ) : Json.Reader σ := fun cs => do
  let (a, cs) ← read cs
  return (put s a, cs)

/-- The fields of the compiler's settings, in their order. -/
def compilerFields : List (String × (CompilerSettings → Json.Reader CompilerSettings)) := [
  ("cc", field (fun s a => ⟨a, s.flags, s.folder⟩) Json.wantString),
  ("cflags", field (fun s a => ⟨s.command, a, s.folder⟩) Json.wantStrings),
  ("cache_dir", field (fun s a => ⟨s.command, s.flags, some a⟩) Json.wantString)]

/-- The fields of the settings, in their order. -/
def fields : List (String × (Settings → Json.Reader Settings)) := [
  ("dt", field (fun s a => ⟨a, s.backend, s.compiler⟩) Json.wantNumber),
  ("backend", field (fun s a => ⟨s.dt, a, s.compiler⟩) (Json.wantWord Backend.ofTag?)),
  ("toolchain", field (fun s a => ⟨s.dt, s.backend, a⟩) (record compilerFields .standard))]

/-- **Settings read from a JSON text.**  The step is judged last. -/
def read (text : String) : Except SettingsError Settings := do
  let s ← (Json.readText (record fields standard) text).mapError .json
  if isStepLength s.dt then .ok s else .error (.invalidStep s.dt)

/-- The variable of the environment that names the compiler. -/
def compilerVariable : String := "EQSIM_CC"

/-- The settings with the compiler the environment names, unless that is blank. -/
def override (s : Settings) (lookup : String → Option String) : Settings :=
  match lookup compilerVariable with
  | some command =>
    if Text.isAllBlank command then s else ⟨s.dt, s.backend, ⟨command, s.compiler.flags, s.compiler.folder⟩⟩
  | none => s

/-- The settings as a JSON value, once the folder is known. -/
def toJson (s : Settings) (folder : String) : Json :=
  .object [
    ("dt", .number s.dt),
    ("backend", .string s.backend.tag),
    ("toolchain", .object [
      ("cc", .string s.compiler.command),
      ("cflags", .array (s.compiler.flags.map .string)),
      ("cache_dir", .string folder)])]

end Settings

namespace SettingsError

/-- The kind of a fault in a JSON text. -/
def faultText : Json.Fault → String
  | .syntactic => "Syntax"
  | .data => "Data"
  | .endOfText => "Eof"

def message : SettingsError → String
  | json fault => "invalid config: " ++ faultText fault
  | invalidStep dt => invalidStepMessage dt

end SettingsError
end FixedStep
