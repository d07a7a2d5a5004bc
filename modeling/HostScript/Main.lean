import HostScript.CommandLine

/-!
The program on a real disk: the places a run may look at are read first, and the files it writes are
written afterwards.
-/

set_option autoImplicit false

namespace HostScript.Program

def isUnread (name : String) : Bool :=
  HostFiles.isSkipped name && !Catalog.usualFiles.any fun file => file.startsWith (name ++ "/")

partial def readTree (path : String) : IO Tree := do
  let place := (← IO.currentDir) / path
  if ← place.isDir then
    let entries ← (← place.readDir).toList.mapM fun entry => do
      if (← entry.path.isDir) && isUnread entry.fileName then return none
      else return some (entry.fileName, ← readTree entry.path.toString)
    return .directory (entries.filterMap fun entry => entry)
  else if ← place.pathExists then return .file (← IO.FS.readBinFile place).toList
  else return .broken

def addPlace (d : Disk) (path : String) : IO Disk := do
  if path.isEmpty || !(← ((← IO.currentDir) / path).pathExists) then return d
  else return d.insert path (← readTree path)

def addPlaces (d : Disk) (paths : List String) : IO Disk := paths.foldlM addPlace d

def readEnvironment : IO Environment := do
  let outer := Sources.keys.filterMap fun key => (cutString? '.' key).map (·.1)
  let found ← (Sources.keys ++ outer).mapM fun key => do
    let name := Sources.variableName key
    return (← IO.getEnv name).map fun value => (name, value)
  return found.filterMap fun entry => entry

def readDisk (home : String) (environment : Environment) (args : List String) : IO Disk := do
  let none : Disk := ⟨(← IO.currentDir).toString, .directory []⟩
  let settings ← addPlaces none (CommandLine.places none home environment args)
  addPlaces settings (CommandLine.places settings home environment args)

end HostScript.Program

open HostScript in
def main (args : List String) : IO UInt32 := do
  let home := (← IO.getEnv "HOME").getD ""
  let environment ← Program.readEnvironment
  let disk ← Program.readDisk home environment args
  let result := CommandLine.run disk home environment args
  for (path, text) in result.files do
    IO.FS.writeBinFile path ⟨text.toArray⟩
  (← IO.getStdout).write ⟨result.stdout.toArray⟩
  (← IO.getStderr).write ⟨result.stderr.toArray⟩
  return result.code.toUInt32
