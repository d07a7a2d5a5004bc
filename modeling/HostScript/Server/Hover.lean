import HostScript.Catalog.Manual
import HostScript.Server.State

set_option autoImplicit false

namespace HostScript

structure Hover where
  content : Bytes
  range : Range
  deriving DecidableEq, Repr

def Hover.toJson (h : Hover) : Json :=
  .object [("contents", Json.markup h.content), ("range", h.range.toJson)]

namespace Hover

def code (text : Bytes) : Bytes := utf8 "`" ++ text ++ utf8 "`"

def commaList (items : List Bytes) : Bytes := List.intercalate (utf8 ", ") items

def ofScript (number : Nat) (block : Block) (definitions insertions : Nat) : Bytes :=
  let hooks := block.hooks.filterMap fun h => h.marker.map fun (_, name) => code name
  utf8 ("**script** " ++ toString number ++ " ") ++ code block.name
    ++ (if block.fields.isEmpty then [] else utf8 "\n\n" ++ commaList block.fields)
    ++ (if hooks.isEmpty then [] else utf8 "\n\nHooks: " ++ commaList hooks)
    ++ utf8 (if insertions = 0 then "" else "\n\n" ++ toString insertions ++ " insertion block(s)")
    ++ utf8 (if definitions < 2 then "" else "\n\n**defined " ++ toString definitions ++ " times**")
    ++ utf8 ("\n\n*Defined in " ++ pathOfUri block.uri ++ ":"
      ++ toString (block.headerRange.start.line + 1) ++ "*")

def ofInclude (ix : Index) (number : Nat) : Bytes :=
  match ix.definitions number with
  | [] => utf8 ("**script** " ++ toString number ++ "\n\n*not defined in the workspace*")
  | block :: others => ofScript number block (others.length + 1) (ix.insertions number).length

end Hover

/-- The text shown for a token. It is empty when nothing is known. -/
def Server.hoverText (s : Server) (d : Disk) (doc : Document) (cursor : Cursor) : Bytes :=
  match cursor.kind with
  | .parserFunction =>
    match s.catalog.function? cursor.space.toText cursor.text.toText with
    | some function => utf8 (Manual.functionMarkdown cursor.space.toText function)
    | none => []
  | .variable =>
    match s.catalog.space? cursor.text.toText with
    | some space =>
      if doc.text[cursor.stop]? == some Cursor.dot then utf8 (Manual.namespaceMarkdown space) else []
    | none => []
  | .includeScript =>
    match cursor.text.number?, s.index d with
    | some number, .ok ix => Hover.ofInclude ix number
    | _, _ => []
  | _ => []

def Server.hover? (s : Server) (d : Disk) (place : Place) : Option Hover := do
  let doc ← s.buffers.doc? place.uri
  let cursor := Cursor.atPosition doc place.position
  let content := s.hoverText d doc cursor
  if content.isEmpty then none else some ⟨content, doc.range cursor.start cursor.stop⟩

end HostScript
