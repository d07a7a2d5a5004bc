import HostScript.InsertPoint
import HostScript.Server.State
import HostScript.Text.Rune

set_option autoImplicit false

namespace HostScript

structure RelatedFinding where
  uri : String
  range : Range
  message : Bytes
  deriving DecidableEq, Repr

structure GivenFinding where
  range : Range
  severity : Option Int := none
  code : Option String := none
  source : Option String := none
  message : Bytes := []
  description : Option String := none
  tags : List Int := []
  related : List RelatedFinding := []
  data : Json := .null

structure TextEdit where
  range : Range
  text : Bytes
  deriving DecidableEq, Repr

structure QuickFix where
  title : Bytes
  uri : String
  finding : GivenFinding
  edit : TextEdit

def RelatedFinding.toJson (f : RelatedFinding) : Json :=
  .object [("location", .object [("uri", Json.str f.uri), ("range", f.range.toJson)]),
    ("message", .string f.message)]

def GivenFinding.toJson (f : GivenFinding) : Json :=
  .object ([("range", f.range.toJson), ("message", .string f.message)]
    ++ (f.severity.map fun n => ("severity", Json.int n)).toList
    ++ (f.code.map fun text => ("code", Json.str text)).toList
    ++ (f.source.map fun text => ("source", Json.str text)).toList
    ++ (f.description.map fun link => ("codeDescription", Json.object [("href", Json.str link)])).toList
    ++ Json.listField "tags" Json.int f.tags
    ++ Json.listField "relatedInformation" RelatedFinding.toJson f.related
    ++ if f.data.isNull then [] else [("data", f.data)])

def TextEdit.toJson (e : TextEdit) : Json :=
  .object [("range", e.range.toJson), ("newText", .string e.text)]

def QuickFix.kind : String := "quickfix"

def QuickFix.toJson (f : QuickFix) : Json :=
  .object [("title", .string f.title), ("kind", Json.str QuickFix.kind),
    ("diagnostics", .array [f.finding.toJson]),
    ("edit", .object [("changes", .object [(f.uri, .array [f.edit.toJson])])])]

namespace QuickFix

def isGap (c : Char) : Bool := c == ' ' || c == '\t' || c == '\n' || c == '\r' || c == '\x0c'

def suggestionAt? (cs : List Char) : Option (String × String) :=
  let space := cs.takeWhile fun c => c != '.' && !isGap c
  match cs.drop space.length with
  | '.' :: rest =>
    let name := rest.takeWhile fun c => c != '?' && !isGap c
    if space.isEmpty || name.isEmpty || (rest.drop name.length).head? != some '?' then none
    else some (String.ofList space, String.ofList name)
  | _ => none

def suggestionLead : String := "did you mean "

def suggestion? : List Char → Option (String × String)
  | [] => none
  | c :: cs =>
    let here := if suggestionLead.toList.isPrefixOf (c :: cs)
      then suggestionAt? ((c :: cs).drop suggestionLead.length) else none
    here.or (suggestion? cs)

def renaming? (doc : Document) (finding : GivenFinding) : Option QuickFix := do
  let (space, name) ← suggestion? finding.message.toText.toList
  return ⟨utf8 ("Change to " ++ space ++ "." ++ name), doc.uri, finding, finding.range, utf8 name⟩

/-- An edit that puts whole lines at a position. It starts a new line if the position is not at
the start of one. -/
def lines (p : Position) (atLineStart : Bool) (text : String) : TextEdit :=
  ⟨⟨p, p⟩, utf8 (if atLineStart then text else "\n" ++ text)⟩

def startsLine (doc : Document) (offset : Nat) : Bool :=
  offset = 0 || doc.text[offset - 1]? == some Bytes.newline

def termination? (doc : Document) (finding : GivenFinding) : Option QuickFix := do
  let block ← doc.blockAt? finding.range.start
  if block.terminated then none
  else some ⟨utf8 ("Add " ++ terminatorKeyword), doc.uri, finding,
    lines (doc.positionAt block.stop) (startsLine doc block.stop) (terminatorKeyword ++ "\n")⟩

/-- Defines the script whose number is in the range of the finding, where its number belongs. -/
def definition? (doc : Document) (finding : GivenFinding) : Option QuickFix := do
  let start ← doc.offsetAt finding.range.start
  let stop ← doc.offsetAt finding.range.stop
  let number ← Bytes.number? (Bytes.trim (doc.sliceAt start stop))
  let point := InsertPoint.find doc number [] []
  if point.present then none
  else
    let text := BlockKind.script.keyword ++ toString number ++ ",\n" ++ terminatorKeyword ++ "\n"
    some ⟨utf8 ("Create script " ++ toString number), doc.uri, finding,
      lines point.script ((doc.offsetAt point.script).all (startsLine doc)) text⟩

def ofFinding? (doc : Document) (finding : GivenFinding) : Option QuickFix :=
  if finding.source != some findingSource then none
  else if finding.code == some Check.unknownFunction.name then renaming? doc finding
  else if finding.code == some Check.missingEndScript.name then termination? doc finding
  else if finding.code == some Check.danglingInclude.name then definition? doc finding
  else none

end QuickFix

/-- The edits for findings of an open document. `only` names the kinds of edits that are wanted; an
empty list asks for all. -/
def Server.quickFixes (s : Server) (uri : String) (only : List String)
    (findings : List GivenFinding) : List QuickFix :=
  match s.buffers.doc? uri with
  | none => []
  | some doc =>
    if !only.isEmpty && !only.contains QuickFix.kind then []
    else findings.filterMap (QuickFix.ofFinding? doc)

end HostScript
