import HostScript.Command
import HostScript.Registry.File

set_option autoImplicit false

namespace HostScript.Command

variable [Catalog.Decoder]

/-- The registry in the file at a path; an empty one if there is no file. -/
def registryAt (d : Disk) (path : String) : Except CommandError Registry :=
  match d.read path with
  | .error (.missing ..) => .ok {}
  | .error _ => .error .cannotOpen
  | .ok text => match Registry.decode? text with
    | some r => .ok r
    | none => .error .notDatabase

def isKept (path : String) : Bool := !path.isEmpty && path != Database.inMemory.path

def registryFor (d : Disk) (path : String) : Except CommandError Registry := do
  if !isKept path then return {}
  let registry ← registryAt d path
  if !(d.look "stat" (Path.join path "..")).toOption.any Tree.isDirectory then throw .cannotOpen
  return registry

def index (d : Disk) (s : Settings) (given : Option Catalog) (path : String) : Outcome :=
  let stored : Except CommandError Registry := do
    let catalog ← catalogFor d s given
    let snapshot ← snapshotFor d s []
    let ix ← readFrom d snapshot (snapshot.workspace (some catalog)).index
    return (← registryFor d path).store ix
  orFail stored fun r =>
    { stderr := utf8 ("indexed " ++ toString r.count ++ " blocks from " ++ s.root ++ " into " ++ path ++ "\n")
      files := if isKept path then [(path, r.encode)] else [] }

def entryPlace (e : Entry) (line : Int) : Bytes :=
  e.name ++ utf8 ("\t" ++ pathOfUri e.uri ++ ":" ++ toString (line + 1) ++ "\n")

def lookup (d : Disk) (path : String) (number : Int) : Outcome :=
  let found : Except CommandError Registry := do
    let _ ← (d.look "stat" path).mapError (.noIndex path)
    let registry ← registryAt d path
    if (registry.lookup number).isEmpty then throw (.notDefined number)
    return registry
  orFail found fun r =>
    { stdout :=
        (r.lookup number).flatMap (fun e =>
          utf8 (e.kind.name ++ "\t" ++ toString e.number ++ "\t") ++ entryPlace e e.startLine)
        ++ (r.hooksOf number).flatMap (fun name => utf8 "hook\t" ++ name ++ utf8 "\n")
        ++ (r.includers number).flatMap fun ref =>
          utf8 ("included by\t" ++ toString ref.entry.number ++ "\t") ++ entryPlace ref.entry ref.line }

end HostScript.Command
