/-!
# Files — why a file cannot be read

Reading files is the operating system's; a session sees the text, or the reason there is none.
-/
namespace FixedStep
namespace CommandLine

inductive FileError where
  | notFound
  | denied
  | notFolder
  | isFolder
  | nameTooLong
  | notText
deriving DecidableEq, Repr

def FileError.message : FileError → String
  | notFound => "No such file or directory (os error 2)"
  | denied => "Permission denied (os error 13)"
  | notFolder => "Not a directory (os error 20)"
  | isFolder => "Is a directory (os error 21)"
  | nameTooLong => "File name too long (os error 36)"
  | notText => "stream did not contain valid UTF-8"

end CommandLine
end FixedStep
