import HostScript.Catalog.BuiltIn
import HostScript.Disk

set_option autoImplicit false

namespace HostScript

inductive CatalogError where
  | malformed (message : String)
  | nameless
  /-- An item of a list is left empty. Nothing is prepared for that, so the program ends. -/
  | emptyItem
  deriving DecidableEq, Repr

def CatalogError.message : CatalogError → String
  | .malformed message => "parsing catalog: " ++ message
  | .nameless => "parsing catalog: namespace without a name"
  | .emptyItem => "panic: runtime error: invalid memory address or nil pointer dereference"

namespace Catalog

structure ListedNamespace where
  name : String := ""
  doc : String := ""
  closed : Bool := false
  functions : Option (List (Option ParserFunction)) := none
  deriving DecidableEq, Repr

abbrev Listing := Option (List (Option ListedNamespace))

/-- What decodes the text of a catalog. The program chooses it. -/
class Decoder where
  decode : Bytes → Except String Listing

/-- A list that may be missing, if none of its items is empty. -/
def filled? {α β : Type} (item? : α → Option β) : Option (List (Option α)) → Option (Option (List β))
  | none => some none
  | some items => (items.mapM fun (item : Option α) => item.bind item?).map some

def ListedNamespace.filled? (s : ListedNamespace) : Option Namespace :=
  (Catalog.filled? some s.functions).map fun listed =>
    { name := s.name, doc := s.doc, closed := s.closed, listed }

def ofListing? (listing : Listing) (precedence : Precedence) : Option Catalog :=
  (filled? ListedNamespace.filled? listing).map fun listed => ⟨listed, precedence⟩

def complaint? : List (Option ListedNamespace) → Option CatalogError
  | [] => none
  | none :: _ => some .emptyItem
  | some s :: rest => if s.name.isEmpty then some .nameless else complaint? rest

/-- The catalog of a text. Where a name is listed more than once the last entry counts. -/
def parse [Decoder] (text : Bytes) : Except CatalogError Catalog :=
  match Decoder.decode text with
  | .error message => .error (.malformed message)
  | .ok listing =>
    match complaint? (listing.getD []) with
    | some e => .error e
    | none => (ofListing? listing .last).elim (.error .emptyItem) .ok

end Catalog

inductive CatalogFailure where
  | file (cause : FileError)
  | content (path : String) (cause : CatalogError)
  deriving DecidableEq, Repr

def CatalogFailure.message : CatalogFailure → String
  | .file cause => cause.message
  | .content _ .emptyItem => CatalogError.emptyItem.message
  | .content path cause => path ++ ": " ++ cause.message

def CatalogFailure.endsProgram : CatalogFailure → Bool
  | .content _ .emptyItem => true
  | _ => false

namespace Catalog

variable [Decoder]

def usualFiles : List String :=
  [".futurec/scriptautocompletedefs.json", ".futurec/scriptautocompletedefs.yaml",
    ".futurec/scriptautocompletedefs.yml"]

def load (d : Disk) (path : String) : Except CatalogFailure Catalog :=
  match d.read path with
  | .error cause => .error (.file cause)
  | .ok text => (parse text).mapError (.content path)

def usualFile? (d : Disk) (root : String) : Option String :=
  (usualFiles.map (Path.join root)).find? d.isPresent

/-- The catalog of a workspace. A file that is present but cannot be used is a failure. -/
def locate (d : Disk) (root : String) : Except CatalogFailure Catalog :=
  match usualFile? d root with
  | some path => load d path
  | none => .ok builtIn

end Catalog

end HostScript
