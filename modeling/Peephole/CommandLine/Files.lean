/-!
# Files

What a command needs of the place it runs in: texts are read and written under
paths, and either can fail.
-/

namespace Peephole.CommandLine

/-- Why a file cannot be read or written. -/
inductive FileError where
  | missing
  | notFolder
  | isFolder
  | noSpace
  | nameTooLong
  | notText
  | other (reason : String)
  deriving DecidableEq, Repr

def FileError.message : FileError → String
  | .missing => "No such file or directory (os error 2)"
  | .notFolder => "Not a directory (os error 20)"
  | .isFolder => "Is a directory (os error 21)"
  | .noSpace => "No space left on device (os error 28)"
  | .nameTooLong => "File name too long (os error 36)"
  | .notText => "stream did not contain valid UTF-8"
  | .other reason => reason

/-- Reading and writing texts. -/
structure Files (m : Type → Type) where
  read : String → m (Except FileError String)
  write : String → String → m (Except FileError Unit)

end Peephole.CommandLine
