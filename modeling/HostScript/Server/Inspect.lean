import HostScript.InsertPoint
import HostScript.Server.State

set_option autoImplicit false

namespace HostScript

variable [Similar.Matcher]

def Block.info (b : Block) : Json :=
  .object [("id", .int b.id), ("name", .string b.name), ("uri", Json.str b.uri),
    ("range", b.range.toJson),
    ("hooks", Json.list .string (b.hooks.filterMap fun h => h.marker.map (·.2))),
    ("kind", Json.str b.kind.name)]

def Cursor.info (c : Cursor) : Json :=
  let shown (c : Option Char) : Json :=
    Json.str (match c with
      | some c => if c.toNat = 0 then "" else String.singleton c
      | none => "")
  .object [("text", .string c.text), ("first", shown c.first), ("atCursor", shown c.atCursor),
    ("kind", Json.str c.kind.name)]

def Call.info (c : Call) : Json :=
  .object [("namespace", .string c.space), ("name", .string c.name), ("range", c.nameRange.toJson),
    ("args", .nat c.args)]

def Include.info (i : Include) : Json :=
  .object [("ID", .nat (i.target.getD 0)), ("Valid", .bool i.target.isSome), ("Arg", .string i.arg),
    ("Range", i.range.toJson), ("KeywordRange", i.keywordRange.toJson), ("Offset", .int i.offset)]

def Hook.info (h : Hook) : Json :=
  .object [("Name", .string h.name), ("Number", .nat h.number), ("Malformed", .bool h.marker.isNone),
    ("Text", .string h.text), ("Range", h.range.toJson)]

def Stats.toJson (s : Stats) : Json :=
  .object [("lines", .nat s.lines), ("tokens", .nat s.tokens), ("comments", .nat s.comments),
    ("calls", .nat s.calls), ("includes", .nat s.includes), ("hooks", .nat s.hooks)]

structure BlockReading where
  block : Block
  result : ParseResult
  version : Int

def BlockReading.toJson (r : BlockReading) : Json :=
  .object [("script", r.block.info),
    ("diagnostics", Json.listOrNull Diagnostic.toJson r.result.diagnostics),
    ("calls", Json.listOrNull Call.info r.result.calls),
    ("includes", Json.listOrNull Include.info r.result.block.includes),
    ("hooks", Json.listOrNull Hook.info r.result.block.hooks),
    ("stats", r.result.stats.toJson), ("version", .int r.version)]

def Resolution.toJson (r : Resolution) : Json :=
  .object [("scripts", Json.list Block.info r.blocks),
    ("diagnostics", Json.list Diagnostic.toJson r.diagnostics)]

structure ScriptNumber where
  number : Nat
  name : Bytes
  deriving DecidableEq, Repr

def ScriptNumber.undefined : ScriptNumber := ⟨0, utf8 "NOT DEFINED"⟩

def ScriptNumber.toJson (n : ScriptNumber) : Json :=
  .object [("number", .nat n.number), ("name", .string n.name)]

/-- A request for the place of a new block. The old document is looked at for a block that exists
already, unless that is not wanted. -/
structure HookQuery where
  uri : String
  name : Bytes
  number : Int
  old : String
  ignoreOld : Bool
  deriving DecidableEq, Repr

/-- Where a new block belongs; the line is -1 if the block exists already. -/
def InsertPoint.toJson (p : InsertPoint) : Json :=
  let script := if p.present then ⟨-1, 0⟩ else p.script
  .object ([("posScript", Position.toJson script), ("posToc", p.contents.toJson)]
    ++ if p.present then [("existing", p.script.toJson)] else [])

namespace Server

def cursorAt (s : Server) (place : Place) : Cursor :=
  match s.buffers.doc? place.uri with
  | some doc => Cursor.atPosition doc place.position
  | none => { kind := .error }

/-- Reads the block at a place with all checks. The block was found in the open document, apart
from the workspace. -/
def strictReading (s : Server) (d : Disk) (block : Block) : Except ServerError ParseResult :=
  s.read d fun ws => Parse.run ws .apart block true

def blockReading (s : Server) (d : Disk) (place : Place) (strict : Bool) :
    StateM ParseCache (Except ServerError (Option BlockReading)) := do
  match s.blockAt? place with
  | none => return .ok none
  | some (doc, block) =>
    let version := ((s.buffers.get? place.uri).map (·.version)).getD 0
    if strict then
      return (s.strictReading d block).map fun result => some ⟨block, result, version⟩
    else
      let result ← ParseCache.parse s.openWorkspace doc block
      return .ok (some ⟨block, result, version⟩)

def reachable (s : Server) (d : Disk) (uri : String) : Except ServerError Resolution :=
  s.read d fun ws => Resolution.ofDocument ws uri

def scriptNumber (s : Server) (place : Place) : ScriptNumber :=
  match s.blockAt? place with
  | some (_, block) =>
    match block.number with
    | some n => ⟨n, block.name⟩
    | none => .undefined
  | none => .undefined

def blockStart? (s : Server) (place : Place) : Option Position :=
  (s.blockAt? place).map fun (_, block) => block.headerRange.start

def statistics? (s : Server) (place : Place) : StateM ParseCache (Option Stats) := do
  match s.blockAt? place with
  | none => return none
  | some (doc, block) => return some (← ParseCache.parse s.openWorkspace doc block).stats

/-- The documents besides the one asked about in which a block may exist already. An old document
that is not part of the workspace is passed over. -/
def otherDocuments (v : View) (q : HookQuery) : Except Failure (List Document) :=
  if q.old.isEmpty || q.old == q.uri || q.ignoreOld then .ok []
  else match v.source q.old with
    | .ok file => .ok [file.doc]
    | .error (.notFound _) => .ok []
    | .error e => .error e

def hookStart (s : Server) (d : Disk) (q : HookQuery) : Except ServerError InsertPoint := do
  let v ← s.view d
  let file ← (v.source q.uri).mapError .hookDocument
  let others ← (otherDocuments v q).mapError .hookDocument
  return InsertPoint.find file.doc q.number q.name others

end Server

end HostScript
