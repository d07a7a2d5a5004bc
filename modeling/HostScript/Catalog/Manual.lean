import HostScript.Catalog
import HostScript.Quicksort
import HostScript.Text.Rune
import HostScript.Text.Wrap

set_option autoImplicit false

namespace HostScript.Manual

def width : Nat := 72

inductive ManualError where
  | noNamespace (name : String)
  | noFunction (name : String)
  deriving DecidableEq, Repr

def ManualError.message : ManualError → String
  | .noNamespace name => "no namespace: " ++ Quoted.string name
  | .noFunction name => "no function: " ++ Quoted.string name

inductive Undocumented where
  | ofNamespace (name : String)
  | ofFunction (name : String)
  deriving DecidableEq, Repr

def Undocumented.kind : Undocumented → String
  | .ofNamespace _ => "namespace"
  | .ofFunction _ => "function"

def Undocumented.name : Undocumented → String
  | .ofNamespace name | .ofFunction name => name

def sortedSpaces (c : Catalog) : List Namespace :=
  quicksort (fun a b => decide (a.name < b.name)) c.spaces

def isUndocumented (doc : String) : Bool := (trimString doc).isEmpty

/-- The functions of a namespace by name. A name that is listed twice occurs twice, each time with
the entry that counts. -/
def functionsOf (c : Catalog) (s : Namespace) : List ParserFunction :=
  s.names.filterMap (s.function? c.precedence)

def undocumented (c : Catalog) : List Undocumented :=
  (sortedSpaces c).flatMap fun s =>
    (if isUndocumented s.doc then [.ofNamespace s.name] else [])
      ++ ((functionsOf c s).filter (isUndocumented ·.doc)).map fun f => .ofFunction (s.name ++ "." ++ f.name)

def firstLine (doc : String) : String :=
  String.ofList (trimChars ((trimChars doc.toList).takeWhile (· != '\n')))

def padRight (width : Nat) (s : String) : String :=
  s ++ String.ofList (List.replicate (width - s.length) ' ')

def list (c : Catalog) : String :=
  String.join ((sortedSpaces c).map fun s =>
    let first := firstLine s.doc
    "  " ++ padRight 12 s.name ++ (if first.isEmpty then "" else "  " ++ first)
      ++ (if s.functions.isEmpty then "" else " (" ++ toString s.functions.length ++ " functions)")
      ++ "\n")

def clean (doc : String) : String :=
  let doc := trimString doc
  if doc.isEmpty then ""
  else
    let text := (indentLines 2 (wrap width (dedent doc))).toList
    String.ofList (if text.getLast? = some '\n' then text.dropLast else text)

def lineOf (text : String) : String := if text.isEmpty then "" else text ++ "\n"

def functionPage (space : String) (f : ParserFunction) : String :=
  f.signature space ++ "\n" ++ lineOf (clean f.doc)
    ++ String.join ((f.params.filter (!·.doc.isEmpty)).map fun p =>
      indentLines 4 (wrap (width - 4) (p.name ++ ": " ++ trimString p.doc)) ++ "\n")

def namespacePage (c : Option Catalog) (name : String) : Except ManualError String :=
  match c.bind fun c => (c.space? name).map fun s => (c, s) with
  | none => .error (.noNamespace name)
  | some (c, s) =>
    .ok ("namespace " ++ s.name ++ "\n" ++ lineOf (clean s.doc)
      ++ String.join ((functionsOf c s).map fun f => "\n" ++ functionPage s.name f))

def page (c : Option Catalog) (name : String) : Except ManualError String :=
  match cutString? '.' name with
  | none => namespacePage c name
  | some (space, function) =>
    match c.bind (·.function? space function) with
    | none => .error (.noFunction name)
    | some f => .ok (functionPage space f)

def paragraph (doc : String) : String :=
  let doc := trimString doc
  if doc.isEmpty then "" else "\n\n" ++ wrap width (dedent doc)

def functionMarkdown (space : String) (f : ParserFunction) : String :=
  let params := (f.params.filter (!·.doc.isEmpty)).map fun p =>
    "- `" ++ p.name ++ "`: " ++ trimString p.doc
  "```futurec\n" ++ f.signature space ++ "\n```" ++ paragraph f.doc
    ++ if params.isEmpty then "" else "\n\n" ++ String.intercalate "\n" params

def namespaceMarkdown (s : Namespace) : String :=
  "**namespace** `" ++ s.name ++ "` (" ++ toString s.functions.length ++ " functions)"
    ++ paragraph s.doc

end HostScript.Manual
