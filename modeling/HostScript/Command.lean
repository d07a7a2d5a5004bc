import HostScript.Catalog.Manual
import HostScript.Catalog.Reader
import HostScript.Render
import HostScript.Session

set_option autoImplicit false

namespace HostScript

structure Settings where
  root : String := "."
  catalog : String := ""
  extensions : List String := HostFiles.defaultExtensions
  expired : Bool := false
  color : ColorMode := .auto
  onTerminal : Bool := false

inductive PositionError where
  | shape (text : String)
  | line (text : String)
  | column (text : String)
  deriving DecidableEq, Repr

def PositionError.message : PositionError → String
  | .shape text => "invalid position " ++ Quoted.string text ++ ": want LINE:COL"
  | .line text => "invalid line in " ++ Quoted.string text
  | .column text => "invalid column in " ++ Quoted.string text

inductive CommandError where
  | file (cause : FileError)
  | scanning (root : String) (cause : FileError)
  | expanding (arg : String) (cause : FileError)
  | noFiles
  | catalog (cause : CatalogFailure)
  | documents (cause : Failure)
  | checking (path : String) (cause : Failure)
  | position (cause : PositionError)
  | manual (cause : Manual.ManualError)
  | noIndex (path : String) (cause : FileError)
  | notDefined (number : Int)
  | cannotOpen
  | notDatabase
  deriving Repr

def CommandError.message : CommandError → Bytes
  | .file cause => utf8 cause.message
  | .scanning root cause => utf8 ("scanning " ++ root ++ ": " ++ cause.message)
  | .expanding arg cause => utf8 ("expanding " ++ arg ++ ": " ++ cause.message)
  | .noFiles => utf8 "futurec check: no files to check"
  | .catalog cause => utf8 cause.message
  | .documents cause => cause.message
  | .checking path cause => utf8 (path ++ ": ") ++ cause.message
  | .position cause => utf8 cause.message
  | .manual cause => utf8 cause.message
  | .noIndex path cause => utf8 ("no index at " ++ path ++ ": " ++ cause.message)
  | .notDefined number => utf8 ("script " ++ toString number ++ " is not defined")
  | .cannotOpen => utf8 "init schema: unable to open database file: out of memory (14)"
  | .notDatabase => utf8 "init schema: file is not a database (26)"

structure Outcome where
  stdout : Bytes := []
  stderr : Bytes := []
  code : Nat := 0
  error : Option CommandError := none
  files : List (String × Bytes) := []

def Disk.write (d : Disk) (files : List (String × Bytes)) : Disk :=
  files.foldl (fun d (path, text) => d.insert path (.file text)) d

namespace Command

variable [Catalog.Decoder]

def exitProblems : Nat := 1
def exitUsage : Nat := 2

def fail (error : CommandError) : Outcome := { code := exitUsage, error := some error }

def orFail {α : Type} (x : Except CommandError α) (f : α → Outcome) : Outcome :=
  match x with
  | .ok a => f a
  | .error e => fail e

def catalogFor (d : Disk) (s : Settings) (given : Option Catalog) : Except CommandError Catalog :=
  match given with
  | some c => .ok c
  | none =>
    (if s.catalog.isEmpty then Catalog.locate d s.root else Catalog.load d s.catalog).mapError .catalog

def snapshotFor (d : Disk) (s : Settings) (extra : List String) : Except CommandError Snapshot := do
  let found ← (HostFiles.find d s.root s.extensions).mapError (.scanning s.root)
  return Snapshot.ofBuffers [] ((found ++ extra).map d.absolute)

def sourceOf (d : Disk) (s : Snapshot) : String → Except Failure HostFile :=
  Snapshot.source (s.freeze d.read)

def readFrom {α : Type} (d : Disk) (s : Snapshot) (x : ReadM α) : Except CommandError α :=
  let read (path : String) : StateM Unit (Except FileError Bytes) := fun disk => (d.read path, disk)
  (Session.run s read (ExceptT.run x) {} ()).1.1.mapError .documents

def uriFor (d : Disk) (path : String) : String := uriOfPath (d.absolute path)

def showFindings (d : Disk) (s : Settings) (ds : List Diagnostic) : Bytes :=
  Render.all (Palette.choose s.color s.onTerminal) (fun path => (d.read path).toOption) ds

end Command

end HostScript
