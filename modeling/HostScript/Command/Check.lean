import HostScript.Command
import HostScript.Disk.Glob
import HostScript.GraphCheck

set_option autoImplicit false

namespace HostScript.Command

variable [Similar.Matcher] [Catalog.Decoder]

/-- The files that arguments stand for. An argument that ends in `/...` stands for all host files
below a directory. Files that match an excluded pattern are left out. -/
def expandArgs (d : Disk) (extensions exclude args : List String) : Except CommandError (List String) := do
  let expanded ← args.mapM fun arg => do
    let tail := "/...".toList
    if tail.isSuffixOf arg.toList then
      let dir := String.ofList (arg.toList.take (arg.length - tail.length))
      (HostFiles.find d (if dir.isEmpty then "." else dir) extensions).mapError (.expanding arg)
    else .ok [arg]
  return expanded.flatten.filter fun path => !Glob.matchesAny path exclude

def strictFindings (ws : Workspace) (uri : String) : ReadM (List Diagnostic) := do
  let found ← Resolution.ofDocument ws uri
  let results ← found.blocks.mapM fun block => Parse.run ws .workspace block true
  return Diagnostic.atLeast Severity.warning.level (results.flatMap (·.diagnostics))

def addUnseen (all : List Diagnostic) : List Diagnostic → List Diagnostic
  | [] => all
  | d :: ds =>
    addUnseen (if all.any (·.describe == d.describe) then all else all ++ [d]) ds

def findingsOf (ws : Workspace) (expired strict : Bool) (uri : String) :
    ReadM (List Diagnostic) :=
  if strict then strictFindings ws uri
  else ExceptT.mk do
    let stop : Option Stop := if expired then some ⟨0, .deadline⟩ else none
    return (← GraphCheck.run ws uri stop).outcome

def findingsOfAll (d : Disk) (ws : Workspace) (source : String → Except Failure HostFile)
    (expired strict : Bool) (all : List Diagnostic) : List String → Except CommandError (List Diagnostic)
  | [] => .ok all
  | path :: paths =>
    match ReadM.run source (findingsOf ws expired strict (uriFor d path)) with
    | .error e => .error (.checking path e)
    | .ok ds => findingsOfAll d ws source expired strict (addUnseen all ds) paths

structure CheckOptions where
  json : Bool := false
  strict : Bool := false
  exclude : List String := []

def checkFindings (d : Disk) (s : Settings) (given : Option Catalog) (o : CheckOptions)
    (args : List String) : Except CommandError (List Diagnostic) := do
  let files ← expandArgs d s.extensions o.exclude args
  if files.isEmpty then throw .noFiles
  let catalog ← catalogFor d s given
  let snapshot ← snapshotFor d s files
  findingsOfAll d (snapshot.workspace (some catalog)) (sourceOf d snapshot) s.expired o.strict [] files

/-- Checks files and what they reach. Failures are written, not returned. -/
def check (d : Disk) (s : Settings) (given : Option Catalog) (o : CheckOptions)
    (args : List String) : Outcome :=
  match checkFindings d s given o args with
  | .error e => { code := exitUsage, stderr := e.message ++ utf8 "\n" }
  | .ok ds =>
    let code := if ds.isEmpty then 0 else exitProblems
    if o.json then { code, stdout := utf8 (Report.text ds) }
    else if ds.isEmpty then { code }
    else { code, stderr := showFindings d s ds ++ utf8 ("\n" ++ Report.summary ds ++ "\n") }

end HostScript.Command
