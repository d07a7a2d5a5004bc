import HostScript.Diagnostic
import HostScript.Parse
import HostScript.Quicksort
import HostScript.Resolution

set_option autoImplicit false

namespace HostScript

namespace Similar

structure Match where
  name : String
  distance : Nat
  deriving DecidableEq, Repr

/-- What tells which names are like another one. The program chooses it. -/
class Matcher where
  find : (typed : String) → (names : List String) → List Match
  rank? : (query name : String) → Option Nat

variable [Matcher]

def ranked (typed : String) (names : List String) : List String :=
  (quicksort (fun a b => decide (a.distance < b.distance)) (Matcher.find typed names)).map (·.name)

def closest? (typed : String) (names : List String) : Option String := (ranked typed names).head?

end Similar

variable [Similar.Matcher]

inductive Check where
  | missingEndScript | scriptHeader | scriptName | unknownFunction | argCount | includeArg
  | hookMarker | danglingInclude | duplicateScript | unknownHookTarget | unknownHook
  deriving DecidableEq, Repr

/-- Whether a block under check is one of the blocks of the workspace, or was read apart from it.
A block that was read apart is not the same as any block of the workspace. -/
inductive Origin where
  | workspace | apart
  deriving DecidableEq, Repr

namespace Check

def all : List Check :=
  [.missingEndScript, .scriptHeader, .scriptName, .unknownFunction, .argCount, .includeArg,
    .hookMarker, .danglingInclude, .duplicateScript, .unknownHookTarget, .unknownHook]

def name : Check → String
  | .missingEndScript => "missing-endscript"
  | .scriptHeader => "script-header"
  | .scriptName => "script-name"
  | .unknownFunction => "unknown-function"
  | .argCount => "arg-count"
  | .includeArg => "include-arg"
  | .hookMarker => "hook-marker"
  | .danglingInclude => HostScript.danglingInclude
  | .duplicateScript => "duplicate-script"
  | .unknownHookTarget => "unknown-hook-target"
  | .unknownHook => "unknown-hook"

def doc : Check → String
  | .missingEndScript => "Report script headers without a matching ENDSCRIPT line."
  | .scriptHeader => "Report headers whose script number is not a number."
  | .scriptName => "Warn about headers without a script or hook name."
  | .unknownFunction => "Report calls of functions missing from a closed catalog namespace."
  | .argCount =>
    "Warn about parser function calls whose argument count does not match the catalog signature."
  | .includeArg => "Report includescript statements without a numeric script id."
  | .hookMarker => "Warn about malformed, misnumbered or duplicate //ADDHOOK markers."
  | .danglingInclude => "Report includescript statements naming a script that no block defines."
  | .duplicateScript => "Report script numbers defined by more than one block in the workspace."
  | .unknownHookTarget => "Report insertion blocks targeting a script that does not exist."
  | .unknownHook => "Warn about insertion blocks naming a hook the target script does not declare."

def severity : Check → Severity
  | .scriptName | .argCount | .hookMarker | .unknownHook => .warning
  | _ => .error

def isStrict : Check → Bool
  | .danglingInclude | .duplicateScript | .unknownHookTarget | .unknownHook => true
  | _ => false

def finding (c : Check) (block : Block) (range : Range) (message : Bytes)
    (notes : List String := []) : Diagnostic :=
  { uri := block.uri, range, severity := some c.severity, message, code := c.name, notes }

def onMissingEndScript (block : Block) : List Diagnostic :=
  if block.terminated then []
  else [finding .missingEndScript block block.headerRange
    (block.describe ++ utf8 (" has no matching " ++ terminatorKeyword))]

def onScriptHeader (block : Block) : List Diagnostic :=
  if block.numberText.isEmpty then
    [finding .scriptHeader block block.headerRange (utf8 "missing script number")]
  else if block.number.isNone then
    [finding .scriptHeader block block.headerRange
      (utf8 ("invalid script number " ++ Quoted.text block.numberText))]
  else []

def onScriptName (block : Block) : List Diagnostic :=
  if block.name.isEmpty then
    [finding .scriptName block block.headerRange (utf8 (match block.kind with
      | .insertion => "insertion block has no hook name"
      | .script => "script header has no name"))]
  else []

def calledName (call : Call) : String := call.space.toText ++ "." ++ call.name.toText

def unknownFunctionAt (ws : Workspace) (block : Block) (call : Call) : Option Diagnostic := do
  let space ← ws.space? call.space.toText
  let precedence := (ws.catalog.map (·.precedence)).getD .last
  if space.closed && (space.function? precedence call.name.toText).isNone then
    let suggestion := Similar.closest? call.name.toText space.names
    return finding .unknownFunction block call.nameRange
      (utf8 ("unknown function " ++ calledName call))
      ((suggestion.filter (!·.isEmpty)).toList.map fun best =>
        "did you mean " ++ call.space.toText ++ "." ++ best ++ "?")
  else none

def arityText (f : ParserFunction) : String :=
  match f.arity with
  | (least, none) => "at least " ++ counted least "argument"
  | (least, some most) =>
    if least = most then counted least "argument"
    else toString least ++ " to " ++ toString most ++ " arguments"

def argCountAt (ws : Workspace) (block : Block) (call : Call) : Option Diagnostic := do
  let f ← ws.function? call.space.toText call.name.toText
  if call.isClosed && !f.acceptsArgs call.args then
    return finding .argCount block call.nameRange
      (utf8 (calledName call ++ " expects " ++ arityText f ++ ", got " ++ toString call.args))
      [f.signature call.space.toText]
  else none

def includeArgAt (block : Block) (statement : Include) : Option Diagnostic :=
  if statement.target.isSome then none
  else some (finding .includeArg block statement.range (utf8 (includeKeyword
    ++ " expects a script number"
    ++ if statement.arg.isEmpty then "" else ", found " ++ Quoted.text statement.arg)))

/-- Goes through the hooks of a block with the names seen before. A malformed marker counts as
the empty name. -/
def onHookMarkers (block : Block) (seen : List Bytes) : List Hook → List Diagnostic
  | [] => []
  | hook :: rest =>
    let complaint : Option String :=
      match hook.marker with
      | none => some ("malformed hook marker " ++ Quoted.text hook.text
          ++ ": expected //ADDHOOK-<number>-<name>")
      | some (number, name) =>
        match block.kind, block.number with
        | .script, some own =>
          if number ≠ own then
            some ("hook " ++ name.toText ++ " is numbered " ++ toString number
              ++ " but declared in script " ++ toString own)
          else if seen.contains name then some ("duplicate hook " ++ name.toText) else none
        | _, _ => if seen.contains name then some ("duplicate hook " ++ name.toText) else none
    (complaint.map fun text => finding .hookMarker block hook.range (utf8 text)).toList
      ++ onHookMarkers block (hook.name :: seen) rest

def localFindings (ws : Workspace) (block : Block) (calls : List Call) : List Diagnostic :=
  onMissingEndScript block ++ onScriptHeader block ++ onScriptName block
    ++ calls.filterMap (unknownFunctionAt ws block)
    ++ calls.filterMap (argCountAt ws block)
    ++ block.includes.filterMap (includeArgAt block)
    ++ onHookMarkers block [] block.hooks

def onDanglingIncludes (ix : Index) (block : Block) : List Diagnostic :=
  ((Resolution.steps block).filter fun step => (ix.lookup step.target).isNone).map fun step =>
    Resolution.dangling step.block step.statement step.target

def isSelf (origin : Origin) (block other : Block) : Bool :=
  origin == .workspace && block.samePlace other

def onDuplicateScript (ix : Index) (origin : Origin) (block : Block) : List Diagnostic :=
  match block.kind, block.number with
  | .script, some n =>
    let definitions := ix.definitions n
    if definitions.length < 2 then []
    else [finding .duplicateScript block block.headerRange
      (utf8 ("script " ++ toString n ++ " is defined " ++ toString definitions.length ++ " times"))
      ((definitions.filter fun other => !isSelf origin block other).map fun other =>
        "also defined at " ++ pathOfUri other.uri ++ ":" ++ other.headerRange.start.describe)]
  | _, _ => []

def onUnknownHookTarget (ix : Index) (block : Block) : List Diagnostic :=
  match block.kind, block.number with
  | .insertion, some n =>
    if (ix.lookup n).isSome then []
    else [finding .unknownHookTarget block block.headerRange
      (utf8 (BlockKind.insertion.keyword ++ toString n ++ ": no script with this number exists"))]
  | _, _ => []

def onUnknownHook (ix : Index) (block : Block) : List Diagnostic :=
  match block.kind, block.number with
  | .insertion, some n =>
    match ix.lookup n with
    | some target =>
      if block.name.isEmpty || target.hooks.any fun h => h.marker.isSome && h.name == block.name then []
      else [finding .unknownHook block block.headerRange
        (utf8 ("script " ++ toString n ++ " declares no hook ") ++ block.name)]
    | none => []
  | _, _ => []

def strictFindings (ix : Index) (origin : Origin) (block : Block) : List Diagnostic :=
  onDanglingIncludes ix block ++ onDuplicateScript ix origin block ++ onUnknownHookTarget ix block
    ++ onUnknownHook ix block

def firstStrict? (block : Block) : Option Check :=
  if !(Resolution.steps block).isEmpty then some .danglingInclude
  else match block.kind, block.number with
    | .script, some _ => some .duplicateScript
    | .insertion, some _ => some .unknownHookTarget
    | _, none => none

end Check

namespace Parse

def ofDocument (ws : Workspace) (doc : Document) (block : Block) : ParseResult :=
  let result := structureOf doc block
  { result with
    diagnostics := Diagnostic.sort
      (result.diagnostics ++ Check.localFindings ws block result.calls) }

def strictly (ws : Workspace) (ix : Index) (origin : Origin) (doc : Document) (block : Block) :
    ParseResult :=
  let result := structureOf doc block
  { result with
    diagnostics := Diagnostic.sort
      (result.diagnostics ++ (Check.localFindings ws block result.calls
        ++ Check.strictFindings ix origin block)) }

/-- Reads a block of the workspace. The index is asked for only by strict checks, and only if the
block gives them something to look up. -/
def run (ws : Workspace) (origin : Origin) (block : Block) (strict : Bool) : ReadM ParseResult := do
  let doc ← ws.document block.uri
  if strict then
    match Check.firstStrict? block with
    | some check =>
      let ix ← ReadM.within (.duringCheck block.describe check.name) ws.index
      return strictly ws ix origin doc block
    | none => return strictly ws ⟨[]⟩ origin doc block
  else return ofDocument ws doc block

end Parse

end HostScript
