import HostScript.Catalog
import HostScript.Reading

set_option autoImplicit false

namespace HostScript

structure IncludeSite where
  block : Block
  statement : Include

def dropRepeats {α : Type} [DecidableEq α] : List α → List α
  | [] => []
  | [a] => [a]
  | a :: b :: rest => if a = b then dropRepeats (b :: rest) else a :: dropRepeats (b :: rest)

namespace Index

def definitions (ix : Index) (n : Nat) : List Block := ix.blocks.filter (·.defines n)

def lookup (ix : Index) (n : Nat) : Option Block := (ix.definitions n).head?

def insertions (ix : Index) (n : Nat) : List Block :=
  ix.blocks.filter fun b => b.kind == .insertion && b.number == some n

def numbers (ix : Index) : List Nat :=
  let defined := ix.blocks.filterMap fun b => if b.kind = .script then b.number else none
  dropRepeats (defined.mergeSort fun a b => decide (a ≤ b))

def includeSites (ix : Index) (n : Nat) : List IncludeSite :=
  ix.blocks.flatMap fun block =>
    (block.includes.filter (·.target == some n)).map fun statement => ⟨block, statement⟩

end Index

structure Workspace where
  uris : List String
  catalog : Option Catalog

namespace Workspace

def document (_ : Workspace) (uri : String) : ReadM Document := .ask (.document uri)

def blocks (_ : Workspace) (uri : String) : ReadM (List Block) := .ask (.blocks uri)

/-- The index needs every document; it fails with the first one that cannot be had. -/
def index (ws : Workspace) : ReadM Index := .ask (.index ws.uris)

def space? (ws : Workspace) (name : String) : Option Namespace := ws.catalog.bind (·.space? name)

def function? (ws : Workspace) (space name : String) : Option ParserFunction :=
  ws.catalog.bind (·.function? space name)

end Workspace

end HostScript
