import FixedStep.Digest.Sha256
import FixedStep.Snapshot
import FixedStep.Text.Quoted
/-!
# Toolchain — the compiler that builds generated programs

A built program is kept under a key: the digest of everything that determines it, which is the command, its flags and
the source, joined by NUL characters.  What a compiler makes of a source is not known here: a program is whatever stands
in its place, and gives an answer of its own to an input.

The folder of built programs, the files that building leaves there for a while, and the processes of the compiler and the
program are the host's.  Building stands for all of it, a program found in its place included.
-/
namespace FixedStep

/-- A compiler command with its flags.  It builds every program, or none for a reason it gives. -/
structure Toolchain where
  command : String
  flags : List String
  failure : Option String
  /-- What the program in a place writes when it is given an input, or why it fails. -/
  run : String → String → Except ExecError String

namespace Toolchain

/-- **What determines a built program**, as one text. -/
def keyText (t : Toolchain) (source : String) : String :=
  t.command ++ "\x00" ++ "\x00".intercalate t.flags ++ "\x00" ++ source

/-- **The key of a built program**: 64 hexadecimal digits. -/
def key (t : Toolchain) (source : String) : String :=
  String.ofList ((Sha256.digest (t.keyText source).toUTF8.toList).flatMap fun w => Text.hexFixed 8 w.toNat)

/-- The place of the program of a source, which tells it from others by its key. -/
def place (t : Toolchain) (source : String) : String := "eqsim_" ++ t.key source

/-- **Building a program**, unless it is in its place already: the place. -/
def build (t : Toolchain) (source : String) : Except ExecError String :=
  match t.failure with
  | none => .ok (t.place source)
  | some reason => .error (.toolchain reason)

/-- The reason a command that does not exist gives. -/
def commandNotFound (command : String) : String :=
  "failed to run `" ++ command ++ "`: No such file or directory (os error 2)"

end Toolchain
end FixedStep
