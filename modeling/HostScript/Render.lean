import HostScript.Diagnostic

set_option autoImplicit false

namespace HostScript

inductive ColorMode where
  | auto | always | never
  deriving DecidableEq, Repr

namespace ColorMode

def ofName? : String → Option ColorMode
  | "" | "auto" => some .auto
  | "always" => some .always
  | "never" => some .never
  | _ => none

def number : ColorMode → Nat
  | .auto => 0
  | .always => 1
  | .never => 2

def unknownName (name : String) : String :=
  "invalid color mode " ++ Quoted.string name ++ " (want auto, always or never)"

end ColorMode

structure Palette where
  bold : String := ""
  yellow : String := ""
  boldRed : String := ""
  boldBlue : String := ""
  boldCyan : String := ""
  reset : String := ""

namespace Palette

def plain : Palette := {}

def colored : Palette :=
  { bold := "\x1b[1m", yellow := "\x1b[33m", boldRed := "\x1b[1;31m", boldBlue := "\x1b[1;34m"
    boldCyan := "\x1b[1;36m", reset := "\x1b[0m" }

def choose (mode : ColorMode) (onTerminal : Bool) : Palette :=
  match mode with
  | .always => colored
  | .never => plain
  | .auto => if onTerminal then colored else plain

def ofSeverity (p : Palette) : Option Severity → String
  | some .error => p.boldRed
  | some .warning => p.yellow
  | _ => p.boldCyan

end Palette

namespace Render

/-- The byte offset of a UTF-16 character in a line, at most its length. -/
def byteColumn (character : Int) : (units column : Nat) → List Rune → Nat
  | _, column, [] => column
  | units, column, r :: rs =>
    if character ≤ units then column
    else byteColumn character (units + unitsOf r.char) (column + r.size) rs

/-- The columns characters take when a tab is shown as four blanks. -/
def displayColumns : List Rune → Nat
  | [] => 0
  | r :: rs => (if r.char = '\t' then 4 else 1) + displayColumns rs

def displayWidth (text : Bytes) : Nat := displayColumns text.runes

def expandTabs (text : Bytes) : Bytes :=
  text.flatMap fun b => if b = Bytes.tab then List.replicate 4 Bytes.blank else [b]

/-- The blanks before the underline and its length. A range of several lines is underlined to the
end of its first line. -/
def underline (source : Bytes) (range : Range) : Nat × Nat :=
  let start := byteColumn range.start.character 0 0 source.runes
  let stop := if range.stop.line = range.start.line then
    byteColumn range.stop.character 0 0 source.runes else source.length
  (displayWidth (source.take start),
    max 1 (Bytes.runes (source.slice start (max start stop))).length)

def spaces (n : Nat) : String := String.ofList (List.replicate n ' ')

def carets (n : Nat) : String := String.ofList (List.replicate n '^')

def sourceLine? (read : String → Option Bytes) (path : String) (line : Int) : Option Bytes :=
  if line < 0 || path.isEmpty then none
  else (read path).bind fun text =>
    let doc := Document.ofText path text
    if (doc.lineCount : Int) ≤ line then none else some (doc.line line)

def header (p : Palette) (d : Diagnostic) : Bytes :=
  utf8 (p.ofSeverity d.severity ++ p.bold ++ Severity.nameOf d.severity
      ++ (if d.code.isEmpty then "" else "[" ++ d.code ++ "]") ++ p.reset ++ ":" ++ p.reset ++ " " ++ p.bold)
    ++ d.message ++ utf8 (p.reset ++ "\n")

def span (p : Palette) (read : String → Option Bytes) (d : Diagnostic) : Bytes :=
  let path := pathOfUri d.uri
  let bar (margin : String) := " " ++ p.boldBlue ++ margin ++ " |" ++ p.reset
  utf8 ("  " ++ p.boldBlue ++ "-->" ++ p.reset ++ " " ++ path ++ ":" ++ d.range.start.describe ++ "\n")
    ++ match sourceLine? read path d.range.start.line with
      | none => utf8 ("   " ++ p.boldBlue ++ "|" ++ p.reset ++ "\n")
      | some source =>
        let number := toString (d.range.start.line + 1)
        let margin := spaces number.length
        let (before, marked) := underline source d.range
        utf8 (bar margin ++ "\n" ++ bar number ++ "  ") ++ expandTabs source
          ++ utf8 ("\n" ++ bar margin ++ "  " ++ spaces before ++ p.boldRed ++ carets marked ++ p.reset
            ++ "\n" ++ bar margin ++ "\n")

def one (p : Palette) (read : String → Option Bytes) (d : Diagnostic) : Bytes :=
  header p d ++ (if d.uri.isEmpty then [] else span p read d)
    ++ utf8 (String.join (d.notes.map fun note =>
      "   " ++ p.boldCyan ++ "=" ++ p.reset ++ " note: " ++ note ++ "\n"))

def all (p : Palette) (read : String → Option Bytes) (ds : List Diagnostic) : Bytes :=
  List.intercalate (utf8 "\n") (ds.map (one p read))

end Render

end HostScript
