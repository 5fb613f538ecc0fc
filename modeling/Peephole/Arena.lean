import Peephole.Body.Assemble

/-!
# Bodies as linked nodes

The lines of a body can be kept in an arena of nodes that are linked in both
directions.  A node stays where it is: splicing takes nodes out of the chain and puts
new ones behind the last that was ever used, so that the index of a node is its
position.  A position whose node was taken out is stale.
-/

namespace Peephole

/-- An instruction with the positions before and after it.  A node that is not live was
taken out of the chain. -/
structure Node where
  instruction : Instruction
  previous : Option Nat
  next : Option Nat
  live : Bool
  deriving DecidableEq, Repr

structure Arena where
  nodes : Array Node
  head : Option Nat
  length : Nat
  labels : LabelTable

namespace Arena

def empty : Arena where
  nodes := #[]
  head := none
  length := 0
  labels := .empty

/-- The node at a position, if it is live. -/
def node? (arena : Arena) (position : Nat) : Option Node :=
  arena.nodes[position]?.filter Node.live

def first? (arena : Arena) : Option Nat :=
  arena.head

def get? (arena : Arena) (position : Nat) : Option Instruction :=
  (arena.node? position).map Node.instruction

def next? (arena : Arena) (position : Nat) : Option Nat :=
  (arena.node? position).bind Node.next

def previous? (arena : Arena) (position : Nat) : Option Nat :=
  (arena.node? position).bind Node.previous

def adjust (arena : Arena) (position : Nat) (change : Node → Node) : Arena :=
  { arena with nodes := arena.nodes.modify position change }

/-- Leads on from a position to another one.  The head leads to the first position. -/
def setNext (arena : Arena) (next : Option Nat) : Option Nat → Arena
  | some position => arena.adjust position fun node => { node with next := next }
  | none => { arena with head := next }

/-- Leads back from a position to another one. -/
def setPrevious (arena : Arena) (previous : Option Nat) : Option Nat → Arena
  | some position => arena.adjust position fun node => { node with previous := previous }
  | none => arena

/-- What comes after a position.  After none comes the head. -/
def follower (arena : Arena) : Option Nat → Option Nat
  | some position => arena.nodes[position]?.bind Node.next
  | none => arena.head

/-- Puts a node behind all others, without linking them to it. -/
def allocate (arena : Arena) (node : Node) : Arena :=
  { arena with
    nodes := arena.nodes.push node
    length := arena.length + 1 }

/-- Links a new node behind a position, or at the head. -/
def link (arena : Arena) (previous : Option Nat) (instruction : Instruction) : Arena :=
  let next := arena.follower previous
  ((arena.allocate ⟨instruction, previous, next, true⟩).setNext
    (some arena.nodes.size) previous).setPrevious (some arena.nodes.size) next

/-- Links a new node, and moves the label that it defines there in the table. -/
def insert (arena : Arena) (previous : Option Nat) (instruction : Instruction) : Arena :=
  let linked := arena.link previous instruction
  match instruction.label? with
  | some id => { linked with labels := linked.labels.move id arena.nodes.size }
  | none => linked

/-- Links new nodes one behind the other. -/
def insertAll (arena : Arena) (previous : Option Nat) : List Instruction → Arena
  | [] => arena
  | instruction :: rest =>
      (arena.insert previous instruction).insertAll (some arena.nodes.size) rest

/-- The positions of up to `width` nodes from a position on, and what comes after them. -/
def gather (arena : Arena) : Nat → Option Nat → List Nat × Option Nat
  | 0, cursor => ([], cursor)
  | _ + 1, none => ([], none)
  | width + 1, some position =>
      let (positions, after) := arena.gather width (arena.follower (some position))
      (position :: positions, after)

/-- Marks a node as taken out. -/
def retire (arena : Arena) (position : Nat) : Arena :=
  { arena.adjust position (fun node => { node with live := false }) with
    length := arena.length - 1 }

/-- Takes nodes that follow each other out of the chain. -/
def cut (arena : Arena) (positions : List Nat) (previous next : Option Nat) : Arena :=
  ((positions.foldl retire arena).setNext next previous).setPrevious previous next

/-- A change of an arena in place.  One that fails leaves behind whatever was changed up to
that point. -/
abbrev Change := EStateM Fault Arena

/-- Replaces the `width` nodes from a position on.  Gives the position of the first new
node. -/
def replace (position width : Nat) (code : List Instruction) : Change (Option Nat) := do
  match (← get).node? position with
  | none => throw (.stalePosition position)
  | some node =>
      let (positions, next) := (← get).gather width (some position)
      if positions.length < width then
        throw (.windowOverrun width positions.length)
      else
        modify (·.cut positions node.previous next)
        let first := (← get).nodes.size
        modify (·.insertAll node.previous code)
        return if code.isEmpty then none else some first

/-- Takes out the node at a position. -/
def erase (position : Nat) : Change Unit := do
  let _ ← replace position 1 []

/-- Puts an instruction after a position and gives its own. -/
def insertAfter (position : Nat) (instruction : Instruction) : Change Nat := do
  match (← get).node? position with
  | none => throw (.stalePosition position)
  | some _ =>
      let place := (← get).nodes.size
      modify (·.insert (some position) instruction)
      return place

/-- The arena of an instruction list with names for some of its labels. -/
def assemble (names : List (LabelId × String)) (code : List Instruction) :
    Except Fault Arena :=
  (Body.assemble names code).map fun body =>
    { empty.insertAll none code with labels := body.labels }

end Arena

/-! ## Splicing -/

/-- A change of the lines of a body. -/
inductive Splicing where
  | replace (position width : Nat) (code : List Instruction)
  | erase (position : Nat)
  | insertAfter (position : Nat) (instruction : Instruction)
  deriving DecidableEq, Repr

namespace Body

/-- Makes a change, and gives the position of the first new line. -/
def change (body : Body) : Splicing → Except Fault (Option Nat × Body)
  | .replace position width code => body.splice position width code
  | .erase position => (body.erase position).map (none, ·)
  | .insertAfter position instruction =>
      (body.insertAfter position instruction).map fun result => (some result.1, result.2)

end Body

namespace Arena

/-- Makes a change, and gives the position of the first new node. -/
def change : Splicing → Change (Option Nat)
  | .replace position width code => replace position width code
  | .erase position => do
      erase position
      return none
  | .insertAfter position instruction => do return some (← insertAfter position instruction)

end Arena

end Peephole
