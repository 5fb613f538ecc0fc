import Peephole.CommandLine.Files

/-!
# A file system in memory

Files and folders under one root, with a working folder and the usual devices.
Paths are followed part by part, as POSIX has it: every part but the last must lead
to a folder, empty parts and single dots stay in place, double dots lead to the
folder above, and a slash at the end asks for a folder.  A name has at most 255
bytes and a path at most 4095.
-/

namespace Peephole.CommandLine

/-- Files that keep nothing. -/
inductive Device where
  /-- Reads as empty, and forgets what is written. -/
  | null
  /-- Has no room for anything. -/
  | full
  /-- The standard output. -/
  | output
  /-- The standard error output. -/
  | errors
  deriving DecidableEq, Repr

inductive Node where
  | folder
  | file (text : String)
  | device (device : Device)
  deriving DecidableEq, Repr

/-- The names that lead from the root to a node. -/
abbrev Location := List String

structure FileSystem where
  nodes : List (Location × Node)
  /-- The working folder, where paths without a leading slash start. -/
  here : Location
  /-- What was written to the standard output under a path. -/
  output : String := ""
  /-- What was written to the standard error output under a path. -/
  errors : String := ""
  deriving DecidableEq, Repr

namespace FileSystem

/-- The folders below the root. -/
def topFolders : List String :=
  ["bin", "boot", "dev", "etc", "home", "lib", "media", "mnt", "opt", "proc", "root", "run",
    "sbin", "srv", "sys", "tmp", "usr", "var"]

def devices : List (String × Device) :=
  [("null", .null), ("full", .full), ("stdin", .null), ("stdout", .output),
    ("stderr", .errors)]

/-- A file system with the given files in an otherwise empty working folder. -/
def ofFiles (files : List (String × String)) : FileSystem :=
  let here := ["tmp", "work"]
  { nodes :=
      (here, .folder) ::
      topFolders.map (fun name => ([name], .folder)) ++
      devices.map (fun device => (["dev", device.1], .device device.2)) ++
      files.map (fun file => (here ++ [file.1], .file file.2))
    here := here }

/-- What stands at a location.  The root is a folder. -/
def get? (system : FileSystem) : Location → Option Node
  | [] => some .folder
  | location => system.nodes.lookup location

/-- Puts a node at a location, instead of the one there if there is one. -/
def put (system : FileSystem) (location : Location) (node : Node) : FileSystem :=
  { system with nodes := (location, node) :: system.nodes.filter (·.1 != location) }

/-- The text of a file in the working folder. -/
def text? (system : FileSystem) (name : String) : Option String :=
  match system.get? (system.here ++ [name]) with
  | some (.file text) => some text
  | _ => none

/-- The parts of a path that name something. -/
def parts (path : String) : List String :=
  (path.splitOn "/").filter (· != "")

/-- Where a path starts. -/
def start (system : FileSystem) (path : String) : Location :=
  if (path.splitOn "/").head? = some "" then [] else system.here

/-- Whether a path asks for a folder. -/
def hasTrailingSlash (path : String) : Bool :=
  (path.splitOn "/").getLast? == some ""

def isDots (part : String) : Bool :=
  part == "." || part == ".."

/-- Checks the length of a name in bytes. -/
def checkName (name : String) : Except FileError Unit :=
  if name.utf8ByteSize ≤ 255 then .ok () else .error .nameTooLong

/-- Checks the length of a path in bytes. -/
def checkPath (path : String) : Except FileError Unit :=
  if path.utf8ByteSize ≤ 4095 then .ok () else .error .nameTooLong

/-- Checks that there is a folder at a location. -/
def checkFolder (system : FileSystem) (location : Location) : Except FileError Unit :=
  match system.get? location with
  | some .folder => .ok ()
  | some _ => .error .notFolder
  | none => .error .missing

/-- Follows one part of a path.  What it leads to must exist.  The folder above the
root is the root. -/
def enter (system : FileSystem) (location : Location) (part : String) :
    Except FileError Location := do
  system.checkFolder location
  if part = "." then
    return location
  else if part = ".." then
    return location.dropLast
  else
    checkName part
    match system.get? (location ++ [part]) with
    | some _ => return location ++ [part]
    | none => throw .missing

def read (system : FileSystem) (path : String) : Except FileError String := do
  checkPath path
  let location ← (parts path).foldlM system.enter (system.start path)
  match system.get? location with
  | none => throw .missing
  | some .folder => throw .isFolder
  | some (.file text) => if hasTrailingSlash path then throw .notFolder else return text
  | some (.device _) => if hasTrailingSlash path then throw .notFolder else return ""

/-- Writes a text to a device. -/
def writeDevice (system : FileSystem) (text : String) : Device → Except FileError FileSystem
  | .null => .ok system
  | .full => .error .noSpace
  | .output => .ok { system with output := system.output ++ text }
  | .errors => .ok { system with errors := system.errors ++ text }

/-- Writes a text under a path.  The last part of the path need not exist; that it asks
for a folder is noticed before it is looked up. -/
def write (system : FileSystem) (path text : String) : Except FileError FileSystem := do
  checkPath path
  match (parts path).getLast? with
  | none => throw .isFolder
  | some name =>
      let parent ← (parts path).dropLast.foldlM system.enter (system.start path)
      system.checkFolder parent
      if isDots name || hasTrailingSlash path then
        throw .isFolder
      else
        checkName name
        match system.get? (parent ++ [name]) with
        | some .folder => throw .isFolder
        | some (.device device) => system.writeDevice text device
        | some (.file _) | none => return system.put (parent ++ [name]) (.file text)

/-- A file system as a place to run in. -/
def access : Files (StateM FileSystem) where
  read path := do return (← get).read path
  write path text := do
    match (← get).write path text with
    | .ok system =>
        set system
        return .ok ()
    | .error error => return .error error

end FileSystem

end Peephole.CommandLine
