import HostScript.Server.State

set_option autoImplicit false

namespace HostScript

namespace Index

def definitionSites (ix : Index) (n : Nat) : List Location := (ix.definitions n).map (·.location)

def uses (ix : Index) (n : Nat) : List Location :=
  (ix.includeSites n).map (fun site => ⟨site.block.uri, site.statement.range⟩)
    ++ (ix.insertions n).map (·.location)

end Index

namespace Server

def scriptNumberAt? (s : Server) (place : Place) : Option Nat := do
  (← s.buffers.doc? place.uri).scriptNumberAt? place.position

def definitions (s : Server) (d : Disk) (place : Place) : Except ServerError (List Location) :=
  match s.scriptNumberAt? place with
  | none => .ok []
  | some n => do return (← s.index d).definitionSites n

def references (s : Server) (d : Disk) (place : Place) (withDefinitions : Bool) :
    Except ServerError (List Location) :=
  match s.scriptNumberAt? place with
  | none => .ok []
  | some n => do
    let ix ← s.index d
    return (if withDefinitions then ix.definitionSites n else []) ++ ix.uses n

end Server

def Location.listToJson : List Location → Json
  | [] => .null
  | [l] => l.toJson
  | ls => Json.list Location.toJson ls

variable [Similar.Matcher]

inductive SymbolKind where
  | module | event
  deriving DecidableEq, Repr

def SymbolKind.number : SymbolKind → Nat
  | .module => 2
  | .event => 24

namespace Block

def symbolKind (b : Block) : SymbolKind :=
  match b.kind with
  | .script => .module
  | .insertion => .event

def symbolName (b : Block) : Bytes :=
  match b.kind with
  | .insertion => b.numberText ++ utf8 " hook " ++ b.name
  | .script => if b.name.isEmpty then b.numberText else b.numberText ++ utf8 " " ++ b.name

end Block

structure HookSymbol where
  name : Bytes
  range : Range
  deriving DecidableEq, Repr

structure BlockSymbol where
  name : Bytes
  detail : Bytes
  kind : SymbolKind
  range : Range
  selection : Range
  hooks : List HookSymbol
  deriving DecidableEq, Repr

def BlockSymbol.ofBlock (b : Block) : BlockSymbol where
  name := b.symbolName
  detail := b.describe
  kind := b.symbolKind
  range := b.range
  selection := b.headerRange
  hooks := b.hooks.filterMap fun h => h.marker.map fun (_, name) => ⟨name, h.range⟩

def HookSymbol.toJson (h : HookSymbol) : Json :=
  .object [("name", .string h.name), ("kind", .nat SymbolKind.event.number),
    ("range", h.range.toJson), ("selectionRange", h.range.toJson)]

def BlockSymbol.toJson (b : BlockSymbol) : Json :=
  .object ([("name", .string b.name), ("detail", .string b.detail), ("kind", .nat b.kind.number),
      ("range", b.range.toJson), ("selectionRange", b.selection.toJson)]
    ++ Json.listField "children" HookSymbol.toJson b.hooks)

def Block.searchResult (b : Block) : Json :=
  .object [("name", .string b.symbolName), ("kind", .nat b.symbolKind.number),
    ("location", b.location.toJson), ("containerName", Json.str (pathOfUri b.uri))]

/-- The blocks whose symbol matches a query, the best match first; all of them for an empty query.
Equally good matches keep their order. -/
def Index.search (ix : Index) (query : String) : List Block :=
  if query.isEmpty then ix.blocks
  else
    let ranked := ix.blocks.filterMap fun b =>
      (Similar.Matcher.rank? query b.symbolName.toText).map fun rank => (rank, b)
    (ranked.mergeSort fun a b => decide (a.1 ≤ b.1)).map (·.2)

namespace Server

def documentSymbols (s : Server) (uri : String) : List BlockSymbol :=
  match s.buffers.doc? uri with
  | some doc => (Block.scan doc).map .ofBlock
  | none => []

def workspaceSymbols (s : Server) (d : Disk) (query : String) : Except ServerError (List Block) := do
  return (← s.index d).search query

end Server

end HostScript
