/-!
# Command-line arguments

A command line names a subcommand, its file and its options.  Options are long
(`--output FILE`, `--output=FILE`) or short (`-o FILE`, `-oFILE`, `-o=FILE`), short
ones may be run together, and a double dash ends them.  The verbosity flag may
stand before or after the subcommand and any number of times; every other option
may be given once.
-/

namespace Peephole.CommandLine

/-- What is to be done. -/
inductive Command where
  | optimize (file : String) (output? settings? : Option String) (stats : Bool)
  | listing (file : String) (optimized : Bool)
  deriving DecidableEq, Repr

/-- What a command line asks for. -/
inductive Request where
  | command (command : Command)
  | help
  | version
  | misuse
  deriving DecidableEq, Repr

inductive Subcommand where
  | optimize
  | disasm
  deriving DecidableEq, Repr

def Subcommand.ofName? (name : String) : Option Subcommand :=
  if name = "optimize" then some .optimize
  else if name = "disasm" then some .disasm
  else none

/-- An argument by its form. -/
inductive Word where
  | endOfOptions
  | long (name : String) (value? : Option String)
  | short (flags : List Char)
  | plain (text : String)
  deriving DecidableEq, Repr

/-- A dash alone is a plain word. -/
def Word.ofArgument (argument : String) : Word :=
  match argument.toList with
  | ['-', '-'] => .endOfOptions
  | '-' :: '-' :: rest =>
      .long (String.ofList (rest.takeWhile (· != '=')))
        (match rest.dropWhile (· != '=') with
          | [] => none
          | _ :: value => some (String.ofList value))
  | '-' :: flag :: rest => .short (flag :: rest)
  | _ => .plain argument

def Word.isPlain : Word → Bool
  | .plain _ => true
  | _ => false

/-- Options that take a value. -/
inductive Setting where
  | output
  | settings
  deriving DecidableEq, Repr

/-- Options that take none. -/
inductive Switch where
  | verbose
  | help
  | stats
  | optimized
  deriving DecidableEq, Repr

inductive Flag where
  | setting (setting : Setting)
  | switch (switch : Switch)
  deriving DecidableEq, Repr

/-- The long options of a subcommand. -/
def Subcommand.long? (subcommand : Subcommand) (name : String) : Option Flag :=
  if name = "verbose" then some (.switch .verbose)
  else if name = "help" then some (.switch .help)
  else
    match subcommand with
    | .optimize =>
        if name = "output" then some (.setting .output)
        else if name = "config" then some (.setting .settings)
        else if name = "stats" then some (.switch .stats)
        else none
    | .disasm => if name = "optimize" then some (.switch .optimized) else none

/-- The short options of a subcommand. -/
def Subcommand.short? : Subcommand → Char → Option Flag
  | _, 'v' => some (.switch .verbose)
  | _, 'h' => some (.switch .help)
  | .optimize, 'o' => some (.setting .output)
  | _, _ => none

/-- What the arguments of a subcommand have said so far. -/
structure Given where
  file? : Option String := none
  output? : Option String := none
  settings? : Option String := none
  stats : Bool := false
  optimized : Bool := false
  deriving DecidableEq, Repr

/-- Why the arguments of a subcommand are not gone through to the end. -/
inductive Halt where
  | help
  | misuse
  deriving DecidableEq, Repr

namespace Given

/-- Fills a place that must be empty with a path that must not be. -/
def fill (place : Option String) (path : String) : Except Halt (Option String) :=
  if place.isSome ∨ path.isEmpty then .error .misuse else .ok (some path)

def addFile (given : Given) (path : String) : Except Halt Given := do
  return { given with file? := ← fill given.file? path }

def addSetting (given : Given) (path : String) : Setting → Except Halt Given
  | .output => do return { given with output? := ← fill given.output? path }
  | .settings => do return { given with settings? := ← fill given.settings? path }

def addSwitch (given : Given) : Switch → Except Halt Given
  | .verbose => .ok given
  | .help => .error .help
  | .stats => if given.stats then .error .misuse else .ok { given with stats := true }
  | .optimized => if given.optimized then .error .misuse else .ok { given with optimized := true }

end Given

/-- Goes through short options that are run together.  One that takes a value takes
the characters after it, if there are any; it is left to its caller. -/
def addShorts (subcommand : Subcommand) :
    Given → List Char → Except Halt (Given × Option (Setting × List Char))
  | given, [] => .ok (given, none)
  | given, flag :: rest =>
      match subcommand.short? flag with
      | none => .error .misuse
      | some (.switch switch) => do addShorts subcommand (← given.addSwitch switch) rest
      | some (.setting setting) => .ok (given, some (setting, rest))

/-- The value attached to a short option, with an equals sign or without. -/
def attached : List Char → List Char
  | '=' :: rest => rest
  | value => value

/-- Goes through the arguments of a subcommand.  The value of an option may be the
next argument if that is a plain word. -/
def collect (subcommand : Subcommand) (given : Given) : List String → Except Halt Given
  | [] => .ok given
  | argument :: rest =>
      match Word.ofArgument argument with
      | .endOfOptions => rest.foldlM Given.addFile given
      | .plain text => do collect subcommand (← given.addFile text) rest
      | .long name value? =>
          match subcommand.long? name, value? with
          | none, _ => .error .misuse
          | some (.switch _), some _ => .error .misuse
          | some (.switch switch), none => do
              collect subcommand (← given.addSwitch switch) rest
          | some (.setting setting), some value => do
              collect subcommand (← given.addSetting value setting) rest
          | some (.setting setting), none => collectValue given setting rest
      | .short flags =>
          match addShorts subcommand given flags with
          | .error halt => .error halt
          | .ok (given, none) => collect subcommand given rest
          | .ok (given, some (setting, [])) => collectValue given setting rest
          | .ok (given, some (setting, value)) => do
              collect subcommand
                (← given.addSetting (String.ofList (attached value)) setting) rest
where
  /-- Takes the next argument as the value of an option. -/
  collectValue (given : Given) (setting : Setting) : List String → Except Halt Given
    | [] => .error .misuse
    | value :: rest =>
        if (Word.ofArgument value).isPlain then do
          collect subcommand (← given.addSetting value setting) rest
        else
          .error .misuse

/-- The command that the arguments of a subcommand give. -/
def Subcommand.request (subcommand : Subcommand) (arguments : List String) : Request :=
  match collect subcommand {} arguments with
  | .error .help => .help
  | .error .misuse => .misuse
  | .ok given =>
      match given.file?, subcommand with
      | none, _ => .misuse
      | some file, .optimize =>
          .command (.optimize file given.output? given.settings? given.stats)
      | some file, .disasm => .command (.listing file given.optimized)

/-- Goes through short options before the subcommand.  Gives nothing if only the
verbosity was raised. -/
def leadingShorts : List Char → Option Request
  | [] => none
  | 'v' :: rest => leadingShorts rest
  | 'V' :: _ => some .version
  | 'h' :: _ => some .help
  | _ => some .misuse

/-- Whether a help topic is a subcommand, or there is none. -/
def isTopic : List String → Bool
  | [] => true
  | [name] => name = "help" ∨ (Subcommand.ofName? name).isSome
  | _ => false

/-- What a command line asks for. -/
def request : List String → Request
  | [] => .misuse
  | argument :: rest =>
      match Word.ofArgument argument with
      | .plain name =>
          match Subcommand.ofName? name with
          | some subcommand => subcommand.request rest
          | none => if name = "help" ∧ isTopic rest then .help else .misuse
      | .long "verbose" none => request rest
      | .long "version" none => .version
      | .long "help" none => .help
      | .short flags =>
          match leadingShorts flags with
          | some answer => answer
          | none => request rest
      | _ => .misuse

end Peephole.CommandLine
