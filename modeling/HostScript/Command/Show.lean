import HostScript.Command
import HostScript.Cursor
import HostScript.Text.Columns
import HostScript.Text.Number

set_option autoImplicit false

namespace HostScript.Command

variable [Catalog.Decoder]

def blockLine (b : Block) : Bytes :=
  List.intercalate [Bytes.tab] [utf8 b.kind.name, b.numberText, b.name,
    utf8 (pathOfUri b.uri ++ ":" ++ toString (b.headerRange.start.line + 1))] ++ utf8 "\n"

def blockJson (b : Block) : Json :=
  .object ([("kind", Json.str b.kind.name), ("id", .string b.numberText), ("name", .string b.name),
      ("path", Json.str (pathOfUri b.uri)), ("line", .int (b.headerRange.start.line + 1))]
    ++ Json.listField "includes" Json.nat (b.includes.filterMap (·.target))
    ++ Json.listField "hooks" Json.string (b.hooks.filterMap fun h => h.marker.map (·.2)))

def scripts (d : Disk) (s : Settings) (given : Option Catalog) (path : String) (json : Bool) : Outcome :=
  let found : Except CommandError Resolution := do
    let catalog ← catalogFor d s given
    let snapshot ← snapshotFor d s [path]
    readFrom d snapshot (Resolution.ofDocument (snapshot.workspace (some catalog)) (uriFor d path))
  orFail found fun found =>
    { stdout := if json then utf8 (Json.list blockJson found.blocks).render
        else Columns.layout (found.blocks.flatMap blockLine)
      stderr := showFindings d s found.diagnostics }

def parsePosition (text : String) : Except PositionError Position :=
  match cutString? ':' text with
  | none => .error (.shape text)
  | some (line, column) =>
    match Number.decimal line with
    | .error _ => .error (.line text)
    | .ok line =>
      if line < 1 then .error (.line text)
      else match Number.decimal column with
        | .error _ => .error (.column text)
        | .ok column => if column < 1 then .error (.column text) else .ok ⟨line - 1, column - 1⟩

def classify (d : Disk) (path spot : String) (json : Bool) : Outcome :=
  let found : Except CommandError (Cursor × Bytes) := do
    let position ← (parsePosition spot).mapError .position
    let text ← (d.read path).mapError .file
    let doc := Document.ofText (uriOfPath path) text
    let block := (doc.offsetAt position).bind fun offset => Block.at? (Block.scan doc) offset
    return (Cursor.atPosition doc position, (block.map (·.describe)).getD [])
  orFail found fun (cursor, block) =>
    let field (key : String) (text : Bytes) := if text.isEmpty then [] else [(key, Json.string text)]
    if json then
      { stdout := utf8 (Json.object ([("kind", Json.str cursor.kind.name), ("text", .string cursor.text)]
          ++ field "namespace" cursor.space ++ field "script" block)).render }
    else
      { stdout := utf8 (cursor.kind.name ++ "\t")
          ++ (if cursor.space.isEmpty then [] else cursor.space ++ utf8 ".") ++ cursor.text ++ utf8 "\n"
          ++ if block.isEmpty then [] else utf8 "in " ++ block ++ utf8 "\n" }

def doc (d : Disk) (s : Settings) (given : Option Catalog) (args : List String) (missing : Bool) : Outcome :=
  orFail (catalogFor d s given) fun catalog =>
    if missing then
      let entries := Manual.undocumented catalog
      { stdout := utf8 (String.join (entries.map fun m => m.kind ++ " " ++ m.name ++ "\n"))
        code := if entries.isEmpty then 0 else exitProblems }
    else match args with
      | [] => { stdout := utf8 (Manual.list catalog) }
      | name :: _ => match Manual.page (some catalog) name with
        | .ok page => { stdout := utf8 page }
        | .error e => { code := exitProblems, error := some (.manual e) }

end HostScript.Command
