import Peephole.CommandLine.Arguments
import Peephole.CommandLine.FileSystem
import Peephole.Document.Program
import Peephole.Document.Settings

/-!
# Sessions

Running a command line: what is read and written, in which order, what is printed,
and how a failure is reported.
-/

namespace Peephole.CommandLine

/-- Why a command was given up. -/
inductive Failure where
  | readingSettings (path : String) (error : FileError)
  | parsingSettings (path : String)
  | readingProgram (path : String) (error : FileError)
  | parsingProgram (path : String)
  | optimizing (path : String) (fault : Fault)
  | writing (path : String) (error : FileError)
  | listing (fault : Fault)
  deriving DecidableEq, Repr

namespace Failure

/-- Whether the trouble is a text that is no JSON document of its kind. -/
def isDocument : Failure → Bool
  | .parsingSettings _ | .parsingProgram _ => true
  | _ => false

/-- What failed, and why, and why that, outermost first. -/
def chain : Failure → List String
  | .readingSettings path error => ["reading config '" ++ path ++ "'", error.message]
  | .parsingSettings path => ["parsing config '" ++ path ++ "'", "not a configuration"]
  | .readingProgram path error =>
      ["loading program '" ++ path ++ "'", "IOError: " ++ error.message, error.message]
  | .parsingProgram path => ["loading program '" ++ path ++ "'", "JsonError: not a program"]
  | .optimizing path fault => ["optimizing '" ++ path ++ "'", fault.message]
  | .writing path error =>
      ["writing '" ++ path ++ "'", "IOError: " ++ error.message, error.message]
  | .listing fault => [fault.message]

/-- A text with something put after each of its line ends. -/
def hang (indent text : String) : String :=
  ("\n" ++ indent).intercalate (text.splitOn "\n")

/-- Causes under each other; they are numbered if there are several. -/
def causes : List String → String
  | [cause] => "\n    " ++ hang "    " cause
  | several =>
      String.join <| several.zipIdx.map fun (cause, index) =>
        "\n    " ++ toString index ++ ": " ++ hang "       " cause

/-- The report of a failure. -/
def report (failure : Failure) : String :=
  match failure.chain with
  | [] => ""
  | [failed] => "Error: " ++ failed ++ "\n"
  | failed :: reasons => "Error: " ++ failed ++ "\n\nCaused by:" ++ causes reasons ++ "\n"

end Failure

/-- What a session leaves behind besides files. -/
structure Ending where
  exit : UInt8
  output : String
  errors : String
  failure? : Option Failure
  deriving DecidableEq, Repr

namespace Ending

def success (output errors : String) : Ending :=
  ⟨0, output, errors, none⟩

def failure (failure : Failure) : Ending :=
  ⟨1, "", failure.report, some failure⟩

end Ending

def versionText : String :=
  "joosopt 0.1.0\n"

def usage : String :=
  "Usage: joosopt [OPTIONS] <COMMAND>\n" ++
  "\n" ++
  "Commands:\n" ++
  "  optimize  Optimize every body of a program\n" ++
  "  disasm    Print the assembler listing of every body\n" ++
  "  help      Print this message or the help of the given subcommand(s)\n" ++
  "\n" ++
  "Options:\n" ++
  "  -v, --verbose...  Verbose output (-v for info, -vv for debug, -vvv for trace)\n" ++
  "  -h, --help        Print help\n" ++
  "  -V, --version     Print version\n"

def helpText : String :=
  "A peephole optimizer for JOOS bytecode\n\n" ++ usage

section

variable {m : Type → Type} [Monad m]

/-- The settings in a file, or the default ones. -/
def loadSettings (files : Files m) : Option String → ExceptT Failure m Settings
  | none => return {}
  | some path => do
      match ← files.read path with
      | .error error => throw (.readingSettings path error)
      | .ok text =>
          match Settings.ofText? text with
          | some settings => return settings
          | none => throw (.parsingSettings path)

def loadProgram (files : Files m) (path : String) : ExceptT Failure m Program := do
  match ← files.read path with
  | .error error => throw (.readingProgram path error)
  | .ok text =>
      match Program.ofText? text with
      | some program => return program
      | none => throw (.parsingProgram path)

/-- Optimizes the program of a file. -/
def optimizeProgram (path : String) (settings : Settings) (program : Program) :
    Except Failure (Program × List MethodReport) :=
  (Program.optimize (.ofSettings settings) program).mapError (.optimizing path)

/-- Runs a command: the settings are read before the program, and the program is
written before the report. -/
def runCommand (files : Files m) : Command → ExceptT Failure m Ending
  | .optimize file output? settings? stats => do
      let settings ← loadSettings files settings?
      let program ← loadProgram files file
      let (program, reports) ← ExceptT.mk (pure (optimizeProgram file settings program))
      let report := (Program.total reports).toJson.pretty ++ "\n"
      let errors := if stats then report else ""
      match output? with
      | none => return .success (program.toText ++ "\n") errors
      | some path =>
          match ← files.write path program.toText with
          | .ok () => return .success "" errors
          | .error error => throw (.writing path error)
  | .listing file optimized => do
      let program ← loadProgram files file
      let program ←
        if optimized then do
          let (program, _) ← ExceptT.mk (pure (optimizeProgram file {} program))
          pure program
        else
          pure program
      match program.listing with
      | .ok text => return .success text ""
      | .error fault => throw (.listing fault)

/-- Runs a command line. -/
def session (files : Files m) (arguments : List String) : m Ending :=
  match request arguments with
  | .help => pure (.success helpText "")
  | .version => pure (.success versionText "")
  | .misuse => pure ⟨2, "", usage, none⟩
  | .command command => do
      match ← (runCommand files command).run with
      | .ok ending => return ending
      | .error failure => return .failure failure

end

/-- Runs a command line in a file system in memory.  What was written to the standard
outputs under a path comes before what is printed there. -/
def sessionIn (system : FileSystem) (arguments : List String) : Ending × FileSystem :=
  let (ending, system) := (session FileSystem.access arguments).run system
  ({ ending with
      output := system.output ++ ending.output
      errors := system.errors ++ ending.errors },
    system)

end Peephole.CommandLine
