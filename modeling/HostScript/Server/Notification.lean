import HostScript.Diagnostic

set_option autoImplicit false

namespace HostScript

structure CheckProgress where
  uri : String
  done : Nat := 0
  total : Nat := 0
  script : Bytes := []
  finished : Bool := false
  errors : Nat := 0
  cancelled : Bool := false

inductive Notification where
  | publish (uri : String) (findings : List Diagnostic)
  | progress (state : CheckProgress)

def findingSource : String := "futurec"

namespace Diagnostic

def shownSeverity (d : Diagnostic) : Severity := d.severity.getD .warning

/-- The message as an editor shows it: the notes follow it, one to a line. -/
def shownMessage (d : Diagnostic) : Bytes :=
  d.message ++ d.notes.flatMap fun note => utf8 ("\n" ++ note)

def toEditor (d : Diagnostic) : Json :=
  .object ([("range", d.range.toJson), ("severity", .nat d.shownSeverity.level)]
    ++ Json.textField "code" d.code
    ++ [("source", Json.str findingSource), ("message", .string d.shownMessage)])

end Diagnostic

def CheckProgress.toJson (p : CheckProgress) : Json :=
  .object ([("uri", Json.str p.uri), ("done", .nat p.done), ("total", .nat p.total)]
    ++ (if p.script.isEmpty then [] else [("script", .string p.script)])
    ++ Json.flagField "finished" p.finished
    ++ (if p.errors = 0 then [] else [("errors", .nat p.errors)])
    ++ Json.flagField "cancelled" p.cancelled)

namespace Notification

def method : Notification → String
  | .publish .. => "textDocument/publishDiagnostics"
  | .progress _ => "custom/checkProgress"

def params : Notification → Json
  | .publish uri findings =>
    .object [("uri", Json.str uri), ("diagnostics", Json.list Diagnostic.toEditor findings)]
  | .progress state => state.toJson

end Notification

end HostScript
