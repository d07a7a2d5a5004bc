import HostScript.GraphCheck
import HostScript.Snapshot

/-!
A workspace that answers requests over a snapshot whose files may change. It keeps what it has
read, the blocks it has found and the index, so what was answered once is answered the same way
again.
-/

set_option autoImplicit false

namespace HostScript

variable [Similar.Matcher]

structure Session where
  loaded : Snapshot.Loaded := []
  scans : List (String × List Block) := []
  /-- The index, or why it could not be built. It is built once. -/
  index : Option (Except Failure Index) := none

namespace Session

section

variable {σ : Type} (s : Snapshot) (read : String → StateM σ (Except FileError Bytes))

def document (uri : String) : StateT Session (StateM σ) (Except Failure Document) := do
  let kept ← get
  let (file, loaded) ← (s.document read uri).run kept.loaded
  set { kept with loaded }
  return file.map (·.doc)

def blocks (uri : String) : StateT Session (StateM σ) (Except Failure (List Block)) := do
  match (← get).scans.lookup uri with
  | some known => return .ok known
  | none =>
    match ← document s read uri with
    | .error failure => return .error failure
    | .ok doc =>
      let found := Block.scan doc
      modify fun kept => { kept with scans := (uri, found) :: kept.scans }
      return .ok found

def gather : List String → StateT Session (StateM σ) (Except Failure (List Block))
  | [] => return .ok []
  | uri :: rest => do
    match ← blocks s read uri with
    | .error failure => return .error failure
    | .ok first => return (← gather rest).map (first ++ ·)

def indexOf (uris : List String) : StateT Session (StateM σ) (Except Failure Index) := do
  match (← get).index with
  | some known => return known
  | none =>
    let built := (← gather s read uris).map Index.mk
    modify fun kept => { kept with index := some built }
    return built

def answer : (request : Reading.Request) → StateT Session (StateM σ) (Except Failure request.Answer)
  | .document uri => document s read uri
  | .blocks uri => blocks s read uri
  | .index uris => indexOf s read uris

def run {α : Type} (x : Reading α) : StateT Session (StateM σ) α := x.runM (answer s read)

end

inductive Query where
  | document (uri : String)
  | blocks (uri : String)
  | index
  | resolve (uri : String)
  | parse (origin : Origin) (block : Block) (strict : Bool)
  | check (uri : String) (stop : Option Stop)

inductive Reply where
  | document (doc : Except Failure Document)
  | blocks (found : Except Failure (List Block))
  | index (built : Except Failure Index)
  | resolve (found : Except Failure Resolution)
  | parse (result : Except Failure ParseResult)
  | check (result : GraphCheck)

def Query.reading (ws : Workspace) : Query → Reading Reply
  | .document uri => .document <$> ExceptT.run (ws.document uri)
  | .blocks uri => .blocks <$> ExceptT.run (ws.blocks uri)
  | .index => .index <$> ExceptT.run ws.index
  | .resolve uri => .resolve <$> ExceptT.run (Resolution.ofDocument ws uri)
  | .parse origin block strict => .parse <$> ExceptT.run (Parse.run ws origin block strict)
  | .check uri stop => .check <$> GraphCheck.run ws uri stop

def replies {σ : Type} (s : Snapshot) (read : String → StateM σ (Except FileError Bytes))
    (ws : Workspace) : List Query → StateT Session (StateM σ) (List Reply)
  | [] => return []
  | query :: rest => do
    let reply ← run s read (query.reading ws)
    return reply :: (← replies s read ws rest)

end Session

end HostScript
