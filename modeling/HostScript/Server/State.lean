import HostScript.Catalog.Reader
import HostScript.Cursor
import HostScript.Document
import HostScript.Server.Cache
import HostScript.Server.Notification
import HostScript.Snapshot
import HostScript.Text.Split

set_option autoImplicit false

namespace HostScript

structure Buffer where
  doc : Document
  version : Int

structure Buffers where
  entries : List Buffer := []
  distinct : (entries.map (·.doc.uri)).Nodup := by simp

namespace Buffers

def get? (bs : Buffers) (uri : String) : Option Buffer := bs.entries.find? (·.doc.uri == uri)

def doc? (bs : Buffers) (uri : String) : Option Document := (bs.get? uri).map (·.doc)

def erase (bs : Buffers) (uri : String) : Buffers :=
  ⟨bs.entries.filter (·.doc.uri != uri), bs.distinct.sublist (List.filter_sublist.map _)⟩

theorem uri_notMem_erase (bs : Buffers) (uri : String) :
    uri ∉ (bs.erase uri).entries.map (·.doc.uri) := by
  simp [erase]

def put (bs : Buffers) (uri : String) (version : Int) (text : Bytes) : Buffers :=
  ⟨⟨.ofText uri text, version⟩ :: (bs.erase uri).entries,
    List.nodup_cons.mpr ⟨bs.uri_notMem_erase uri, (bs.erase uri).distinct⟩⟩

def documents (bs : Buffers) : List Document :=
  (bs.entries.map (·.doc)).mergeSort fun a b => !decide (b.uri < a.uri)

end Buffers

variable [Similar.Matcher]

structure Server where
  buffers : Buffers := {}
  /-- The directory whose host files belong to the workspace. Without one only open documents do. -/
  root : String := ""
  extensions : List String := []
  fixedCatalog : Option Catalog := none
  /-- The catalog found when the editor last greeted the server. -/
  foundCatalog : Option Catalog := none
  cache : ParseCache := {}
  isReady : Bool := false
  /-- After the first farewell every check of all reachable blocks is cancelled. -/
  isStopped : Bool := false
  isExpired : Bool := false
  publishesEdits : Bool := false

inductive ServerError where
  | notReady
  | listing (cause : FileError)
  | documents (cause : Failure)
  | hookDocument (cause : Failure)
  deriving DecidableEq, Repr

def ServerError.message : ServerError → Bytes
  | .notReady => utf8 "server not initialized"
  | .listing cause => utf8 cause.message
  | .documents cause => cause.message
  | .hookDocument cause => utf8 "getHookStart: " ++ cause.message

structure Place where
  uri : String
  position : Position
  deriving DecidableEq, Repr

structure View where
  workspace : Workspace
  source : String → Except Failure HostFile

def View.run {α : Type} (v : View) (x : ReadM α) : Except ServerError α :=
  (ReadM.run v.source x).mapError .documents

namespace Server

def catalog (s : Server) : Catalog :=
  (s.fixedCatalog.or s.foundCatalog).getD .builtIn

def openWorkspace (s : Server) : Workspace :=
  (Snapshot.ofBuffers s.buffers.documents []).workspace (some s.catalog)

def hostFiles (s : Server) (d : Disk) : Except FileError (List String) :=
  if s.root.isEmpty then .ok [] else HostFiles.find d s.root s.extensions

/-- All documents of the workspace. An open document is seen as the editor shows it. -/
def view (s : Server) (d : Disk) : Except ServerError View := do
  let paths ← (s.hostFiles d).mapError .listing
  let snapshot := Snapshot.ofBuffers s.buffers.documents paths
  return ⟨snapshot.workspace (some s.catalog), Snapshot.source (snapshot.freeze d.read)⟩

def read {α : Type} (s : Server) (d : Disk) (x : Workspace → ReadM α) : Except ServerError α := do
  let v ← s.view d
  v.run (x v.workspace)

def index (s : Server) (d : Disk) : Except ServerError Index := s.read d (·.index)

end Server

def Document.blockAt? (doc : Document) (p : Position) : Option Block :=
  (doc.offsetAt p).bind fun offset => Block.at? (Block.scan doc) offset

namespace Server

def blockAt? (s : Server) (place : Place) : Option (Document × Block) := do
  let doc ← s.buffers.doc? place.uri
  let block ← doc.blockAt? place.position
  return (doc, block)

def liveFindings (ws : Workspace) (doc : Document) : StateM ParseCache (List Diagnostic) := do
  let results ← (Block.scan doc).mapM (ParseCache.parse ws doc)
  return results.flatMap (·.diagnostics)

end Server

/-- The script number under a position: that of an include, or that of the block whose header is
there. -/
def Document.scriptNumberAt? (doc : Document) (p : Position) : Option Nat :=
  let cursor := Cursor.atPosition doc p
  if cursor.kind = .includeScript then cursor.text.number?
  else do
    let block ← doc.blockAt? p
    if block.headerRange.contains p then block.number else none

structure Location where
  uri : String
  range : Range
  deriving DecidableEq, Repr

def Block.location (b : Block) : Location := ⟨b.uri, b.headerRange⟩

def Location.toJson (l : Location) : Json :=
  .object [("uri", Json.str l.uri), ("range", l.range.toJson)]

def Json.markup (text : Bytes) : Json :=
  .object [("kind", Json.str "markdown"), ("value", .string text)]

end HostScript
