import Peephole.CommandLine.Session

/-!
# The command-line program

Runs a command line on the files of the disk.
-/

namespace Peephole.CommandLine

/-- The library's name for a failure of the system. -/
def FileError.ofSystem : IO.Error → FileError
  | .noFileOrDirectory _ _ _ => .missing
  | .inappropriateType _ 20 _ => .notFolder
  | .inappropriateType _ _ _ => .isFolder
  | .resourceExhausted _ 28 _ => .noSpace
  | .invalidArgument _ 36 _ => .nameTooLong
  | error => .other (toString error)

/-- The files of the disk.  A write is flushed, so that a full device is noticed. -/
def disk : Files IO where
  read path := do
    try
      let handle ← IO.FS.Handle.mk path .read
      match String.fromUTF8? (← handle.readBinToEnd) with
      | some text => return .ok text
      | none => return .error .notText
    catch error => return .error (.ofSystem error)
  write path text := do
    try
      let handle ← IO.FS.Handle.mk path .write
      handle.putStr text
      handle.flush
      return .ok ()
    catch error => return .error (.ofSystem error)

end Peephole.CommandLine

def main (arguments : List String) : IO UInt32 := do
  let ending ← Peephole.CommandLine.session Peephole.CommandLine.disk arguments
  (← IO.getStdout).putStr ending.output
  (← IO.getStderr).putStr ending.errors
  return ending.exit.toUInt32
