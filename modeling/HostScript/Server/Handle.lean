import HostScript.Server.Completion
import HostScript.Server.Folding
import HostScript.Server.Hover
import HostScript.Server.Navigation
import HostScript.Server.Request
import HostScript.Server.Signature
import HostScript.Server.WholeCheck

set_option autoImplicit false

namespace HostScript

variable [Similar.Matcher] [Catalog.Decoder]

inductive Refusal where
  | fault (cause : RequestFault)
  | error (cause : ServerError)
  deriving DecidableEq, Repr

structure Reply where
  outcome : Except Refusal Json := .ok .null
  notifications : List Notification := []
  exit : Option Nat := none

namespace Reply

def result (j : Json) : Reply := { outcome := .ok j }

def ofExcept {α : Type} (x : Except ServerError α) (f : α → Json) : Reply :=
  match x with
  | .ok a => result (f a)
  | .error e => { outcome := .error (.error e) }

end Reply

namespace Server

def abilities : Json :=
  .object [
    ("capabilities", .object [
      ("textDocumentSync", .object [("openClose", .bool true), ("change", .nat 1),
        ("save", .object [("includeText", .bool false)])]),
      ("completionProvider", .object [("triggerCharacters", Json.list Json.str [".", " "])]),
      ("hoverProvider", .bool true),
      ("signatureHelpProvider", .object [("triggerCharacters", Json.list Json.str ["(", ","]),
        ("retriggerCharacters", Json.list Json.str [","])]),
      ("definitionProvider", .bool true), ("referencesProvider", .bool true),
      ("documentSymbolProvider", .bool true), ("codeActionProvider", .bool true),
      ("foldingRangeProvider", .bool true), ("workspaceSymbolProvider", .bool true)]),
    ("serverInfo", .object [("name", Json.str "futurec-lsp"), ("version", Json.str "0.1.0")])]

/-- Takes the root of the workspace and its catalog. A catalog file that cannot be used is passed
over for the catalog that is built in. What was read under another catalog is dropped. -/
def greet (s : Server) (d : Disk) (root : Option String) : Server :=
  let root := root.getD s.root
  let ready := { s with root, isReady := true }
  if s.fixedCatalog.isSome then ready
  else { ready with foundCatalog := (Catalog.locate d root).toOption, cache := {} }

/-- The answer to a greeting. A catalog that ends the program leaves no answer. -/
def welcome (s : Server) (d : Disk) (root : Option String) : Reply :=
  match s.fixedCatalog, Catalog.locate d (root.getD s.root) with
  | none, .error e => if e.endsProgram then { exit := some 2 } else .result abilities
  | _, _ => .result abilities

def withCache {α : Type} (s : Server) (x : StateM ParseCache α) : α × Server :=
  let (a, cache) := x.run s.cache
  (a, { s with cache })

def publishLive (s : Server) (uri : String) : List Notification × Server :=
  match s.buffers.doc? uri with
  | none => ([], s)
  | some doc =>
    let (findings, s) := s.withCache (liveFindings s.openWorkspace doc)
    ([.publish uri findings], s)

def announce (x : List Notification × Server) : Reply × Server := ({ notifications := x.1 }, x.2)

def textAfter (texts : List Bytes) : Bytes := texts.getLastD []

/-- Handles a request. `after` is the number of blocks after which the editor stops a check in the
background. -/
def perform (s : Server) (d : Disk) (after : Option Nat) : Request → Reply × Server
  | .greet root => (s.welcome d root, s.greet d root)
  | .farewell => ({}, { s with isReady := false, isStopped := true })
  | .exit => ({ exit := some 0 }, s)
  | .setTrace => ({}, s)
  | .opened uri version text =>
    announce ({ s with buffers := s.buffers.put uri version text }.publishLive uri)
  | .changed uri version texts =>
    let s := { s with buffers := s.buffers.put uri version (textAfter texts) }
    if s.publishesEdits then announce (s.publishLive uri) else ({}, s)
  | .saved uri => announce (s.publishLive uri)
  | .closed uri =>
    ({ notifications := [.publish uri []] }, { s with buffers := s.buffers.erase uri })
  | .completion place => (.result (Json.listOrNull CompletionItem.toJson (s.completions d place)), s)
  | .hover place => (.result (Json.option Hover.toJson (s.hover? d place)), s)
  | .signatureHelp place =>
    let (help, s) := s.withCache (s.signatureHelp? place)
    (.result (Json.option SignatureHelp.toJson help), s)
  | .definition place => (.ofExcept (s.definitions d place) Location.listToJson, s)
  | .references place withDefinitions =>
    (.ofExcept (s.references d place withDefinitions) (Json.listOrNull Location.toJson), s)
  | .documentSymbols uri => (.result (Json.listOrNull BlockSymbol.toJson (s.documentSymbols uri)), s)
  | .foldingRanges uri => (.result (Json.listOrNull FoldingRange.toJson (s.foldingRanges uri)), s)
  | .quickFixes uri only findings =>
    (.result (Json.listOrNull QuickFix.toJson (s.quickFixes uri only findings)), s)
  | .workspaceSymbols query => (.ofExcept (s.workspaceSymbols d query) (Json.list Block.searchResult), s)
  | .cursorContext place => (.result (s.cursorAt place).info, s)
  | .parseScript place strict =>
    let (reading, s) := s.withCache (s.blockReading d place strict)
    (.ofExcept reading (Json.option BlockReading.toJson), s)
  | .reachable uri => (.ofExcept (s.reachable d uri) Resolution.toJson, s)
  | .checkNow uri =>
    let (check, s) := s.withCache (WholeCheck.run s d uri none)
    ({ Reply.ofExcept check.outcome (Json.list Diagnostic.toJson) with
        notifications := check.published }, s)
  | .checkLater uri =>
    let (check, s) := s.withCache (WholeCheck.run s d uri after)
    ({ notifications := check.notifications uri }, s)
  | .cancelCheck _ => ({}, s)
  | .scriptNumber place => (.result (s.scriptNumber place).toJson, s)
  | .blockStart place => (.result (Json.option Position.toJson (s.blockStart? place)), s)
  | .hookStart query => (.ofExcept (s.hookStart d query) InsertPoint.toJson, s)
  | .statistics place =>
    let (stats, s) := s.withCache (s.statistics? place)
    (.result (Json.option Stats.toJson stats), s)

/-- Handles a message. Before the greeting, and after the farewell, nothing but a greeting is
understood. -/
def handle (s : Server) (d : Disk) (after : Option Nat) (method : String) (params : Option Json) :
    Reply × Server :=
  if !s.isReady && method != "initialize" then ({ outcome := .error (.error .notReady) }, s)
  else match Request.decode method params with
    | .error fault => ({ outcome := .error (.fault fault) }, s)
    | .ok request => s.perform d after request

end Server

end HostScript
