import FixedStep.CommandLine.Session
/-!
# Main — the program

Reads the files the request names, hands them to a session, and prints what it leaves behind.  No compiler is looked
for, so native code is not available.
-/
namespace FixedStep
namespace CommandLine

/-- Why a file could not be read.  A reason's number may come with its sign turned. -/
def fileError : IO.Error → FileError
  | .permissionDenied .. => .denied
  | .inappropriateType _ code _ => if code = 21 ∨ code = -21 then .isFolder else .notFolder
  | .invalidArgument _ code _ => if code = 36 ∨ code = -36 then .nameTooLong else .notFound
  | _ => .notFound

/-- The text of a file, or why there is none. -/
def loadFile (path : String) : IO (Except FileError String) := do
  try
    let bytes ← IO.FS.readBinFile path
    match String.fromUTF8? bytes with
    | some text => return .ok text
    | none => return .error .notText
  catch e =>
    return .error (fileError e)

/-- The paths a request names. -/
def paths (args : List String) : List String :=
  match Request.ofArguments args with
  | .run o => o.config.toList ++ o.source.toList
  | _ => []

end CommandLine
end FixedStep

open FixedStep CommandLine in
def main (args : List String) : IO UInt32 := do
  let files ← (paths args).mapM fun path => return (path, ← loadFile path)
  let compilerCommand ← IO.getEnv Settings.compilerVariable
  let host : Host := {
    fileText := fun path => ((files.find? fun f => f.1 == path).map (·.2)).getD (.error .notFound)
    environment := fun name => if name == Settings.compilerVariable then compilerCommand else none
    toolchain := fun _ => none }
  let outcome := run host args
  IO.print outcome.output
  IO.eprint outcome.errorOutput
  return UInt32.ofNat outcome.code
