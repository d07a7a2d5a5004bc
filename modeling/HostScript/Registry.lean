import HostScript.Diagnostic
import HostScript.Workspace

set_option autoImplicit false

namespace HostScript

/-- A block as it is stored. A header without a number has the number -1. -/
structure Entry where
  kind : BlockKind
  number : Int
  name : Bytes
  uri : String
  startLine : Int
  endLine : Int
  terminated : Bool
  deriving DecidableEq, Repr

structure BlockRow where
  key : Nat
  entry : Entry
  deriving DecidableEq, Repr

structure IncludeRow where
  block : Nat
  target : Nat
  line : Int
  deriving DecidableEq, Repr

structure HookRow where
  block : Nat
  name : Bytes
  number : Nat
  line : Int
  deriving DecidableEq, Repr

/-- Keys grow from row to row and are never used again. -/
structure Registry where
  blocks : List BlockRow := []
  includes : List IncludeRow := []
  hooks : List HookRow := []
  nextKey : Nat := 1
  deriving DecidableEq, Repr

structure IncludeRef where
  entry : Entry
  line : Int
  deriving DecidableEq, Repr

namespace Entry

def ofBlock (b : Block) : Entry :=
  ⟨b.kind, b.id, b.name, b.uri, b.range.start.line, b.range.stop.line, b.terminated⟩

end Entry

namespace Registry

/-- Adds a block with its includes and hooks. Includes without a number and malformed hooks are
not stored. -/
def add (r : Registry) (b : Block) : Registry where
  blocks := r.blocks ++ [⟨r.nextKey, .ofBlock b⟩]
  includes := r.includes ++ b.includes.filterMap fun i =>
    i.target.map fun target => ⟨r.nextKey, target, i.range.start.line⟩
  hooks := r.hooks ++ b.hooks.filterMap fun h =>
    h.marker.map fun (number, name) => ⟨r.nextKey, name, number, h.range.start.line⟩
  nextKey := r.nextKey + 1

def store (r : Registry) (ix : Index) : Registry :=
  ix.blocks.foldl add { nextKey := r.nextKey }

def lookup (r : Registry) (number : Int) : List Entry :=
  ((r.blocks.filter (·.entry.number == number)).mergeSort fun a b => decide (a.key ≤ b.key)).map (·.entry)

def includers (r : Registry) (number : Int) : List IncludeRef :=
  let joined := (r.includes.filter fun row => (row.target : Int) == number).flatMap fun row =>
    (r.blocks.filter (·.key == row.block)).map fun b => (b, row.line)
  (joined.mergeSort fun x y => decide (x.1.key < y.1.key ∨ (x.1.key = y.1.key ∧ x.2 ≤ y.2))).map
    fun (b, line) => ⟨b.entry, line⟩

def hooksOf (r : Registry) (number : Int) : List Bytes :=
  let declared := r.hooks.flatMap fun row =>
    (r.blocks.filter fun b => b.key == row.block && b.entry.number == number && b.entry.kind == .script).map
      fun _ => row.name
  dropRepeats (declared.mergeSort fun a b => !b.less a)

def count (r : Registry) : Nat := r.blocks.length

end Registry

inductive DatabaseAction where
  | store
  | lookup (number : Int)
  | includers (number : Int)
  | hooks (number : Int)
  | count
  deriving DecidableEq, Repr

inductive DatabaseFault where
  | cancelled | closed
  deriving DecidableEq, Repr

def DatabaseAction.context : DatabaseAction → String
  | .store => "begin tx: "
  | .lookup n => "lookup " ++ toString n ++ ": "
  | .includers n => "includers of " ++ toString n ++ ": "
  | .hooks n => "hooks of " ++ toString n ++ ": "
  | .count => ""

def DatabaseFault.message : DatabaseFault → String
  | .cancelled => "context canceled"
  | .closed => "sql: database is closed"

structure DatabaseError where
  action : DatabaseAction
  fault : DatabaseFault
  deriving DecidableEq, Repr

def DatabaseError.message (e : DatabaseError) : String := e.action.context ++ e.fault.message

structure Database where
  path : String
  registry : Registry
  isOpen : Bool := true

namespace Database

def inMemory : Database := ⟨":memory:", {}, true⟩

/-- A closed database answers nothing; neither does any for a request that was cancelled. -/
def ask {α : Type} (db : Database) (cancelled : Bool) (action : DatabaseAction)
    (answer : Registry → α) : Except DatabaseError α :=
  if !db.isOpen then .error ⟨action, .closed⟩
  else if cancelled then .error ⟨action, .cancelled⟩
  else .ok (answer db.registry)

def store (db : Database) (cancelled : Bool) (ix : Index) : Except DatabaseError Database :=
  db.ask cancelled .store fun r => { db with registry := r.store ix }

def close (db : Database) : Database := { db with isOpen := false }

end Database

end HostScript
