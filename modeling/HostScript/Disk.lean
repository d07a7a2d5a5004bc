import HostScript.Disk.Path
import HostScript.Failure
import HostScript.Text.Lower
import HostScript.Text.Rune

set_option autoImplicit false

namespace HostScript

/-- A broken entry is listed in its directory but leads nowhere. -/
inductive Tree where
  | file (text : Bytes)
  | broken
  | directory (entries : List (String × Tree))
  deriving Inhabited

namespace Tree

def entries : Tree → List (String × Tree)
  | .directory entries => entries
  | _ => []

def child? (name : String) (t : Tree) : Option Tree :=
  (t.entries.find? (·.1 == name)).map (·.2)

def isDirectory : Tree → Bool
  | .directory _ => true
  | _ => false

def put (t : Tree) (name : String) (entry : Tree) : Tree :=
  .directory (t.entries.filter (·.1 != name) ++ [(name, entry)])

def insert (entry : Tree) : List String → Tree → Tree
  | [], _ => entry
  | name :: rest, t => t.put name (insert entry rest ((t.child? name).getD (.directory [])))

def erase : List String → Tree → Tree
  | [], t => t
  | [name], t => .directory (t.entries.filter (·.1 != name))
  | name :: rest, t => match t.child? name with
    | some next => t.put name (erase rest next)
    | none => t

end Tree

inductive LookupFault where
  | missing | notDirectory
  deriving DecidableEq, Repr

structure Disk where
  workingDirectory : String
  root : Tree

namespace Disk

/-- Follows components from a tree. `above` holds the directories passed, the nearest first. Every
component leads on from a directory, also one that stays where it is. -/
def follow (above : List Tree) (t : Tree) : List String → Except LookupFault Tree
  | [] => .ok t
  | name :: rest =>
    match t with
    | .file _ => .error .notDirectory
    | .broken => .error .missing
    | .directory _ =>
      if name.isEmpty || name == "." then follow above t rest
      else if name == ".." then
        match above with
        | parent :: above => follow above parent rest
        | [] => follow [] t rest
      else match t.child? name with
        | some next => follow (t :: above) next rest
        | none => .error .missing

def place (d : Disk) (path : String) : List String :=
  if Path.isAbsolute path then splitString '/' path
  else Path.components d.workingDirectory ++ splitString '/' path

def fault (action path : String) : LookupFault → FileError
  | .missing => .missing action path
  | .notDirectory => .notDirectory action path

def entry (d : Disk) (action path : String) : Except FileError Tree :=
  if path.isEmpty then .error (.missing action path)
  else (follow [] d.root (d.place path)).mapError (fault action path)

def look (d : Disk) (action path : String) : Except FileError Tree := do
  match ← d.entry action path with
  | .broken => .error (.missing action path)
  | t => .ok t

def read (d : Disk) (path : String) : Except FileError Bytes := do
  match ← d.look "open" path with
  | .file text => .ok text
  | _ => .error (.isDirectory path)

def isPresent (d : Disk) (path : String) : Bool := (d.look "stat" path).isOk

def absolute (d : Disk) (path : String) : String := Path.absolute d.workingDirectory path

def insert (d : Disk) (path : String) (entry : Tree) : Disk :=
  { d with root := Tree.insert entry (Path.components (d.absolute path)) d.root }

def erase? (d : Disk) (path : String) : Option Disk :=
  let path := d.absolute path
  match d.entry "remove" path with
  | .ok t =>
    if t.entries.isEmpty then some { d with root := Tree.erase (Path.components path) d.root }
    else none
  | .error _ => none

/-- Puts an entry at a path where it can be: below directories, a text where no directory is, a
directory where no file is, and a broken entry where nothing is. A directory keeps its entries. -/
def write? (d : Disk) (path : String) (entry : Tree) : Option Disk :=
  let path := d.absolute path
  match entry, follow [] d.root (Path.components path) with
  | .directory _, .ok (.directory _) => some d
  | .file _, .ok (.directory _) => none
  | .file _, .ok _ => some (d.insert path entry)
  | _, .ok _ => none
  | _, .error _ =>
    if leadsOn d (Path.components path) then some (d.insert path entry) else none
where
  leadsOn (d : Disk) (parts : List String) : Bool :=
    (List.range parts.length).all fun n =>
      match follow [] d.root (parts.take n) with
      | .ok t => t.isDirectory
      | .error .missing => true
      | .error .notDirectory => false

end Disk

namespace HostFiles

def defaultExtensions : List String := [".cpp"]

def wanted (extensions : List String) : List String :=
  (if extensions.isEmpty then defaultExtensions else extensions).map fun e =>
    lower (if e.toList.head? = some '.' then e else "." ++ e)

def isSkipped (name : String) : Bool :=
  if name == "." || name == ".." then false
  else name.toList.head? == some '.' || name == "node_modules"

def isHost (wanted : List String) (path : String) : Bool := wanted.contains (lower (Path.extension path))

mutual

def below (wanted : List String) (path : String) : Tree → List String
  | .directory entries => amongst wanted path entries
  | _ => if isHost wanted path then [path] else []

def amongst (wanted : List String) (path : String) : List (String × Tree) → List String
  | [] => []
  | (name, t) :: rest =>
    (if t.isDirectory && isSkipped name then [] else below wanted (Path.join path name) t)
      ++ amongst wanted path rest

end

/-- The paths of all host files below a directory in ascending order. The directory itself may be
a hidden one. -/
def find (d : Disk) (root : String) (extensions : List String) : Except FileError (List String) := do
  return sortStrings (below (wanted extensions) root (← d.entry "lstat" root))

end HostFiles

end HostScript
