import HostScript.Json.Shape
import HostScript.Server.Client
import HostScript.Server.Inspect
import HostScript.Server.QuickFix

set_option autoImplicit false

namespace HostScript.Params

export Field (field object text name flag int32 int64 unsigned optional items shaped)

def position : FieldReader Position := Field.position unsigned

def range : FieldReader Range := Field.range unsigned

def documentUri : FieldReader String := fun j => do
  name (field (← object j) "uri")

end HostScript.Params

namespace HostScript

inductive Request where
  | greet (root : Option String)
  | farewell
  | exit
  | setTrace
  | opened (uri : String) (version : Int) (text : Bytes)
  | changed (uri : String) (version : Int) (texts : List Bytes)
  | saved (uri : String)
  | closed (uri : String)
  | completion (place : Place)
  | hover (place : Place)
  | signatureHelp (place : Place)
  | definition (place : Place)
  | references (place : Place) (withDefinitions : Bool)
  | documentSymbols (uri : String)
  | foldingRanges (uri : String)
  | quickFixes (uri : String) (only : List String) (findings : List GivenFinding)
  | workspaceSymbols (query : String)
  | cursorContext (place : Place)
  | parseScript (place : Place) (strict : Bool)
  | reachable (uri : String)
  | checkNow (uri : String)
  | checkLater (uri : String)
  | cancelCheck (uri : String)
  | scriptNumber (place : Place)
  | blockStart (place : Place)
  | hookStart (query : HookQuery)
  | statistics (place : Place)

inductive RequestFault where
  | unknownMethod | invalidParams
  deriving DecidableEq, Repr

namespace Request

open Params

def place (j : Json) : Option Place := do
  return ⟨← documentUri (field j "textDocument"), ← position (field j "position")⟩

def shortPlace (key : String) (j : Json) : Option Place := do
  return ⟨← name (field j key), ← position (field j "pos")⟩

def document (j : Json) : Option String := documentUri (field j "textDocument")

def progress (j : Json) : Option Unit := shaped Client.token (field j "workDoneToken")

def tokens (j : Json) : Option Unit := do
  progress j
  shaped Client.token (field j "partialResultToken")

/-- A root URI counts before a root path. -/
def greeting (j : Json) : Option Request := do
  progress j
  let _ ← int32 (field j "processId")
  shaped Client.info (field j "clientInfo")
  let _ ← name (field j "locale")
  let _ ← name (field j "trace")
  shaped (.list Client.folder) (field j "workspaceFolders")
  shaped Client.abilities (field j "capabilities")
  let path ← optional name (field j "rootPath")
  let uri ← optional name (field j "rootUri")
  return .greet ((uri.map pathOfUri).or path)

def opening (j : Json) : Option Request := do
  let j ← object (field j "textDocument")
  let _ ← name (field j "languageId")
  return .opened (← name (field j "uri")) (← int32 (field j "version")) (← text (field j "text"))

/-- The text of a change. Its range plays no part, since every change is a whole text. -/
def change : FieldReader Bytes := fun j => do
  let j ← object j
  let _ ← range (field j "range")
  let _ ← unsigned (field j "rangeLength")
  text (field j "text")

def changes (j : Json) : Option Request := do
  let texts ← items change (field j "contentChanges")
  let j ← object (field j "textDocument")
  return .changed (← name (field j "uri")) (← int32 (field j "version")) texts

def saving (j : Json) : Option Request := do
  let _ ← text (field j "text")
  return .saved (← document j)

def trigger (j : Json) : Option Json := do
  let j ← object (field j "context")
  let _ ← int32 (field j "triggerKind")
  let _ ← name (field j "triggerCharacter")
  return j

def helpTrigger (j : Json) : Option Unit := do
  let j ← trigger j
  let _ ← flag (field j "isRetrigger")
  shaped Client.shownHelp (field j "activeSignatureHelp")

/-- A code is a name or a number, which counts by its text. -/
def code : FieldReader (Option String) := fun js =>
  js.foldlM (fun _ (j : Json) =>
    match j with
    | .null => some none
    | .string text => some (some text.toText)
    | j => (int32 [j]).map fun n => some (toString n)) none

def relatedFinding : FieldReader RelatedFinding := fun js => do
  let j ← object js
  let location ← object (field j "location")
  return ⟨← name (field location "uri"), ← range (field location "range"), ← text (field j "message")⟩

def link : FieldReader String := fun js => do
  name (field (← object js) "href")

def finding : FieldReader GivenFinding := fun js => do
  let j ← object js
  return { range := ← range (field j "range")
           severity := ← optional int32 (field j "severity")
           code := ← code (field j "code")
           source := ← optional name (field j "source")
           message := ← text (field j "message")
           description := ← optional link (field j "codeDescription")
           tags := ← items int32 (field j "tags")
           related := ← items relatedFinding (field j "relatedInformation")
           data := (field j "data").getLastD .null }

def codedFixes (j : Json) : Option (String × List String × List GivenFinding) := do
  tokens j
  let _ ← range (field j "range")
  let context ← object (field j "context")
  return (← document j, ← items name (field context "only"),
    ← items finding (field context "diagnostics"))

/-- A request for edits as it arrives. The codes of the findings are lost on the way. -/
def fixes (j : Json) : Option Request := do
  let (uri, only, findings) ← codedFixes j
  return .quickFixes uri only (findings.map fun f => { f with code := none })

def hookQuery (j : Json) : Option Request := do
  let _ ← position (field j "pos")
  return .hookStart ⟨← name (field j "uri"), ← text (field j "name"), ← int64 (field j "number"),
    ← name (field j "oldDoc"), ← flag (field j "dontCheckOldDoc")⟩

/-- Requests of the protocol, by method. Their parameters may not be left out. -/
def standard : List (String × (Json → Option Request)) := [
  ("initialize", greeting),
  ("$/setTrace", fun j => do let _ ← name (field j "value"); return .setTrace),
  ("textDocument/didOpen", opening),
  ("textDocument/didChange", changes),
  ("textDocument/didSave", saving),
  ("textDocument/didClose", fun j => do return .closed (← document j)),
  ("textDocument/completion", fun j => do
    tokens j
    let _ ← trigger j
    return .completion (← place j)),
  ("textDocument/hover", fun j => do progress j; return .hover (← place j)),
  ("textDocument/signatureHelp", fun j => do
    progress j
    helpTrigger j
    return .signatureHelp (← place j)),
  ("textDocument/definition", fun j => do tokens j; return .definition (← place j)),
  ("textDocument/references", fun j => do
    tokens j
    let context ← object (field j "context")
    return .references (← place j) (← flag (field context "includeDeclaration"))),
  ("textDocument/documentSymbol", fun j => do tokens j; return .documentSymbols (← document j)),
  ("textDocument/foldingRange", fun j => do tokens j; return .foldingRanges (← document j)),
  ("textDocument/codeAction", fixes),
  ("workspace/symbol", fun j => do tokens j; return .workspaceSymbols (← name (field j "query")))]

/-- Requests of the editor's extension, by method. Parameters that are left out count as empty. -/
def custom : List (String × (Json → Option Request)) := [
  ("custom/GetCursorContext", fun j => do return .cursorContext (← place j)),
  ("custom/ParseScript", fun j => do return .parseScript (← place j) (← flag (field j "strict"))),
  ("custom/GetReachableScripts", fun j => do return .reachable (← document j)),
  ("custom/GetDiagnosticsForAllScripts", fun j => do return .checkNow (← shortPlace "uri" j).uri),
  ("custom/checkAllScripts", fun j => do return .checkLater (← shortPlace "uri" j).uri),
  ("custom/cancelCheckAllScripts", fun j => do return .cancelCheck (← name (field j "uri"))),
  ("custom/GetScriptNumber", fun j => do return .scriptNumber (← shortPlace "doc" j)),
  ("custom/jump.to.start.of.script", fun j => do return .blockStart (← place j)),
  ("custom/getHookStart", hookQuery),
  ("custom/CollectStatisticsForCurrentScript", fun j => do return .statistics (← shortPlace "doc" j))]

def decode (method : String) (params : Option Json) : Except RequestFault Request :=
  let told : Option Request → Except RequestFault Request
    | some request => .ok request
    | none => .error .invalidParams
  if method == "shutdown" then .ok .farewell
  else if method == "exit" then .ok .exit
  else match standard.lookup method, custom.lookup method with
    | some read, _ => told (params.bind fun j => (object [j]).bind read)
    | none, some read => told ((object params.toList).bind read)
    | none, none => .error .unknownMethod

end Request

end HostScript
