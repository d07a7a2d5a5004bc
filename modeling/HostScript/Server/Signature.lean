import HostScript.Server.State

set_option autoImplicit false

namespace HostScript

variable [Similar.Matcher]

structure SignatureParam where
  start : Nat
  stop : Nat
  doc : String
  deriving DecidableEq, Repr

structure SignatureHelp where
  label : String
  doc : String
  params : List SignatureParam
  active : Nat
  deriving DecidableEq, Repr

def SignatureParam.toJson (p : SignatureParam) : Json :=
  .object ([("label", .array [.nat p.start, .nat p.stop])] ++ Json.textField "documentation" p.doc)

def SignatureHelp.toJson (h : SignatureHelp) : Json :=
  .object [
    ("signatures", .array [.object ([("label", Json.str h.label)]
      ++ (if h.doc.isEmpty then [] else [("documentation", Json.markup (utf8 h.doc))])
      ++ Json.listField "parameters" SignatureParam.toJson h.params)]),
    ("activeSignature", .nat 0), ("activeParameter", .nat h.active)]

namespace SignatureHelp

/-- The innermost call whose parentheses hold an offset. Calls are in the order of the text, so it
is the last one. -/
def enclosing? (calls : List Call) (offset : Int) : Option Call :=
  (calls.filter (·.contains offset)).getLast?

/-- Places the labels of parameters one after another, from an offset on. Offsets count bytes. -/
def place (offset : Nat) : (labels docs : List String) → List SignatureParam
  | [], _ => []
  | label :: labels, docs =>
    let stop := offset + label.utf8ByteSize
    ⟨offset, stop, docs.headD ""⟩ :: place (stop + ", ".utf8ByteSize) labels docs.tail

/-- The signature of a function with an argument being written. Arguments beyond the last parameter
count as the last one. -/
def ofFunction (space : String) (f : ParserFunction) (arg : Nat) : SignatureHelp :=
  let opening := space ++ "." ++ f.name ++ "("
  let labels := f.paramLabels
  { label := opening ++ String.intercalate ", " labels ++ ")"
      ++ if f.returns.isEmpty then "" else " " ++ f.returns
    doc := f.doc
    params := place opening.utf8ByteSize labels (f.params.map (·.doc))
    active := if labels.isEmpty then arg else min arg (labels.length - 1) }

end SignatureHelp

def Server.signatureHelp? (s : Server) (spot : Place) : StateM ParseCache (Option SignatureHelp) := do
  match s.blockAt? spot with
  | none => return none
  | some (doc, block) =>
    let result ← ParseCache.parse s.openWorkspace doc block
    return do
      let offset ← doc.offsetAt spot.position
      let call ← SignatureHelp.enclosing? result.calls offset
      let f ← s.catalog.function? call.space.toText call.name.toText
      return .ofFunction call.space.toText f (call.activeArg offset)

end HostScript
