import HostScript.Workspace

/-!
The documents of one request: open buffers and files on disk. A buffer shadows the file of the
same URI. Files are read on first use and at most once, so a request never sees two versions of
a document.
-/

set_option autoImplicit false

namespace HostScript

structure Snapshot where
  buffers : List Document
  /-- Files by URI. None of them has the URI of a buffer. -/
  files : List (String × String)

namespace Snapshot

/-- Of several buffers, or several files, with one URI the last counts. -/
def keepLast {α : Type} (key : α → String) : List α → List α
  | [] => []
  | a :: rest => if rest.any (key · == key a) then keepLast key rest else a :: keepLast key rest

def ofBuffers (buffers : List Document) (paths : List String) : Snapshot :=
  let buffers := keepLast (·.uri) buffers
  let files := keepLast (·.1) (paths.map fun path => (uriOfPath path, path))
  ⟨buffers, files.filter fun file => !buffers.any (·.uri == file.1)⟩

def uris (s : Snapshot) : List String :=
  sortStrings (s.buffers.map (·.uri) ++ s.files.map (·.1))

def buffer? (s : Snapshot) (uri : String) : Option Document := s.buffers.find? (·.uri == uri)

def path? (s : Snapshot) (uri : String) : Option String :=
  (s.files.find? (·.1 == uri)).map (·.2)

def answer (uri path : String) : Except FileError Bytes → Except Failure HostFile
  | .ok text => .ok (.ofDocument (.ofText uri text))
  | .error cause => .error (.unreadable path cause)

abbrev Loaded := List (String × Except Failure HostFile)

/-- The document of a URI. A file is read unless it has been read before. The disk may give
another answer each time it is read. -/
def document {σ : Type} (s : Snapshot) (read : String → StateM σ (Except FileError Bytes))
    (uri : String) : StateT Loaded (StateM σ) (Except Failure HostFile) := do
  match s.buffer? uri with
  | some doc => return .ok (.ofDocument doc)
  | none =>
    match s.path? uri with
    | none => return .error (.notFound uri)
    | some path =>
      match (← get).lookup uri with
      | some known => return known
      | none =>
        let result := answer uri path (← read path)
        modify ((uri, result) :: ·)
        return result

def freeze (s : Snapshot) (read : String → Except FileError Bytes) : Loaded :=
  s.buffers.map (fun doc => (doc.uri, .ok (.ofDocument doc)))
    ++ s.files.map fun (uri, path) => (uri, answer uri path (read path))

def source (frozen : Loaded) (uri : String) : Except Failure HostFile :=
  (frozen.lookup uri).getD (.error (.notFound uri))

def workspace (s : Snapshot) (catalog : Option Catalog) : Workspace := ⟨s.uris, catalog⟩

end Snapshot

end HostScript
