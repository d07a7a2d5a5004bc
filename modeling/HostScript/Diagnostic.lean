import HostScript.Json.Field

set_option autoImplicit false

namespace HostScript

inductive Severity where
  | error | warning | information | hint
  deriving DecidableEq, Repr, Inhabited

namespace Severity

def level : Severity → Nat
  | .error => 1
  | .warning => 2
  | .information => 3
  | .hint => 4

def name : Severity → String
  | .error => "error"
  | .warning => "warning"
  | .information => "info"
  | .hint => "hint"

def all : List Severity := [.error, .warning, .information, .hint]

def ofName? (name : String) : Option Severity := all.find? (·.name == name)

def unknownName (name : String) : String := "unknown severity: " ++ Quoted.string name

def nameOf (severity : Option Severity) : String := (severity.map name).getD "unknown"

end Severity

structure Diagnostic where
  uri : String
  range : Range
  severity : Option Severity
  message : Bytes
  code : String := ""
  notes : List String := []
  deriving DecidableEq, Repr, Inhabited

def Position.toJson (p : Position) : Json :=
  .object [("line", .int p.line), ("character", .int p.character)]

def Range.toJson (r : Range) : Json :=
  .object [("start", r.start.toJson), ("end", r.stop.toJson)]

namespace Diagnostic

def describe (d : Diagnostic) : Bytes :=
  utf8 (pathOfUri d.uri ++ ":" ++ d.range.start.describe ++ ": " ++ Severity.nameOf d.severity ++ ": ")
    ++ d.message ++ utf8 (if d.code.isEmpty then "" else " (" ++ d.code ++ ")")

/-- Orders findings by where they start; those that start together keep their order. -/
def sort (ds : List Diagnostic) : List Diagnostic :=
  ds.mergeSort fun a b => !b.range.start.less a.range.start

def count (ds : List Diagnostic) (severity : Option Severity) : Nat :=
  (ds.filter (·.severity == severity)).length

def atLeast (level : Int) (ds : List Diagnostic) : List Diagnostic :=
  ds.filter fun d => d.severity.any fun s => (s.level : Int) ≤ level

def errors (ds : List Diagnostic) : List Diagnostic := atLeast Severity.error.level ds

def toJson (d : Diagnostic) : Json :=
  .object ([("uri", Json.str d.uri), ("range", d.range.toJson),
      ("severity", Json.str (Severity.nameOf d.severity)), ("message", .string d.message)]
    ++ Json.textField "code" d.code ++ Json.listField "notes" Json.str d.notes)

end Diagnostic

def Severity.read : FieldReader (Option Severity) := fun js =>
  js.foldlM (fun _ (j : Json) =>
    match j with
    | .string name => (Severity.ofName? name.toText).map some
    | _ => none) none

def Diagnostic.ofJson? (j : Json) : Option Diagnostic := do
  let j ← Field.object [j]
  return { uri := ← Field.name (Field.field j "uri")
           range := ← Field.range Field.int64 (Field.field j "range")
           severity := ← Severity.read (Field.field j "severity")
           message := ← Field.text (Field.field j "message")
           code := ← Field.name (Field.field j "code")
           notes := ← Field.items Field.name (Field.field j "notes") }

def counted (n : Nat) (noun : String) : String :=
  toString n ++ " " ++ noun ++ if n = 1 then "" else "s"

namespace Report

def tally (ds : List Diagnostic) : List (String × Json) :=
  let names := ds.map fun d => Severity.nameOf d.severity
  (["error", "hint", "info"].filter names.contains).map (fun n => (n, Json.nat (names.count n)))
    ++ [("total", Json.nat ds.length)]
    ++ (["unknown", "warning"].filter names.contains).map fun n => (n, Json.nat (names.count n))

def json (ds : List Diagnostic) : Json :=
  .object [("diagnostics", Json.list Diagnostic.toJson ds), ("summary", .object (tally ds))]

def text (ds : List Diagnostic) : String := (json ds).render

def summary (ds : List Diagnostic) : String :=
  counted (Diagnostic.count ds (some .error)) "error" ++ ", "
    ++ counted (Diagnostic.count ds (some .warning)) "warning"

end Report

end HostScript
