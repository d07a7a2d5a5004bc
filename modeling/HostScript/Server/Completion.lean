import HostScript.Catalog.Manual
import HostScript.Server.State

set_option autoImplicit false

namespace HostScript

variable [Similar.Matcher]

inductive CompletionKind where
  | function | module | keyword | reference
  deriving DecidableEq, Repr

def CompletionKind.number : CompletionKind → Nat
  | .function => 3
  | .module => 9
  | .keyword => 14
  | .reference => 18

structure CompletionItem where
  label : String
  kind : CompletionKind
  detail : Option Bytes := none
  sortText : Option String := none
  documentation : Option String := none
  deriving DecidableEq, Repr

def CompletionItem.toJson (i : CompletionItem) : Json :=
  .object ([("label", Json.str i.label), ("kind", .nat i.kind.number)]
    ++ (i.detail.map fun text => ("detail", Json.string text)).toList
    ++ (i.sortText.map fun text => ("sortText", Json.str text)).toList
    ++ (i.documentation.map fun text => ("documentation", Json.markup (utf8 text))).toList)

namespace Completion

inductive Target where
  | space (typed : Bytes)
  | function (space typed : Bytes)
  | script (typed : Bytes)
  deriving DecidableEq, Repr

def wordStart (text : Bytes) : Nat → (offset : Nat) → Nat
  | 0, offset => offset
  | fuel + 1, offset =>
    match Bytes.last? (text.take offset) with
    | some r => if isWord r.char then wordStart text fuel (offset - r.size) else offset
    | none => offset

def wordEndingAt (text : Bytes) (offset : Nat) : Bytes :=
  text.slice (wordStart text offset offset) offset

def afterIncludeKeyword (text : Bytes) (offset : Nat) : Bool :=
  let before := Bytes.dropRightWhile (fun b => b == Bytes.blank || b == Bytes.tab) (text.take offset)
  before.length != offset && before.endsWith (utf8 includeKeyword)
    && wordEndingAt before before.length == utf8 includeKeyword

def target (text : Bytes) (offset : Nat) : Target :=
  let start := wordStart text offset offset
  let typed := text.slice start offset
  if 0 < start && text[start - 1]? == some Cursor.dot then
    .function (wordEndingAt text (start - 1)) typed
  else if afterIncludeKeyword text start then .script typed
  else .space typed

/-- Five digits at least, so that the order of the items is also that of these texts. -/
def sortKey (n : Nat) : String :=
  let digits := toString n
  String.ofList (List.replicate (5 - digits.length) '0') ++ digits

/-- The names that match what is typed, the closest first; all of them when nothing is typed. -/
def rankNames (typed : String) (names : List String) : List String :=
  if typed.isEmpty then sortStrings names else Similar.ranked typed names

def functionItem (catalog : Catalog) (space : Namespace) (name : String) (place : Nat) :
    CompletionItem :=
  let function := (space.function? catalog.precedence name).getD { name }
  { label := name, kind := .function
    detail := some (utf8 (function.signature space.name))
    sortText := some (sortKey place)
    documentation := some (Manual.functionMarkdown space.name function) }

def functionItems (catalog : Catalog) (space typed : Bytes) : List CompletionItem :=
  match catalog.space? space.toText with
  | none => []
  | some space =>
    (rankNames typed.toText space.names).mapIdx fun place name => functionItem catalog space name place

def spaceItem (space : Namespace) : CompletionItem :=
  let doc := trimString space.doc
  { label := space.name, kind := .module, detail := if doc.isEmpty then none else some (utf8 doc) }

def spaceItems (catalog : Catalog) (typed : Bytes) : List CompletionItem :=
  (catalog.spaces.filter fun space => (utf8 space.name).startsWith typed).map spaceItem
    ++ if (utf8 includeKeyword).startsWith typed then [{ label := includeKeyword, kind := .keyword }]
      else []

def scriptItems (ix : Index) (typed : Bytes) : List CompletionItem :=
  (ix.numbers.mapIdx fun place n =>
    { label := toString n, kind := .reference
      detail := some ((ix.lookup n).map (·.name) |>.getD [])
      sortText := some (sortKey place) : CompletionItem }).filter
    fun item => (utf8 item.label).startsWith typed

end Completion

/-- What may stand at a place. If the documents of the workspace cannot be had, no script numbers
are known. -/
def Server.completions (s : Server) (d : Disk) (place : Place) : List CompletionItem :=
  match s.buffers.doc? place.uri with
  | none => []
  | some doc =>
    match doc.offsetAt place.position with
    | none => []
    | some offset =>
      match Completion.target doc.text offset with
      | .function space typed => Completion.functionItems s.catalog space typed
      | .space typed => Completion.spaceItems s.catalog typed
      | .script typed =>
        match s.index d with
        | .ok ix => Completion.scriptItems ix typed
        | .error _ => []

end HostScript
