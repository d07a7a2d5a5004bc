import HostScript.Block
import HostScript.Text.Rune

set_option autoImplicit false

namespace HostScript

inductive CursorKind where
  | undefined | userFunction | parserFunction | includeScript | variable | error
  deriving DecidableEq, Repr, Inhabited

def CursorKind.name : CursorKind → String
  | .undefined => "undefined"
  | .userFunction => "userFunction"
  | .parserFunction => "parserFunction"
  | .includeScript => "includeScript"
  | .variable => "variable"
  | .error => "error"

/-- The token under a cursor. For an include it is the number of the script. -/
structure Cursor where
  kind : CursorKind
  text : Bytes := []
  atCursor : Option Char := none
  space : Bytes := []
  start : Nat := 0
  stop : Nat := 0
  deriving DecidableEq, Repr

namespace Cursor

def first (c : Cursor) : Option Char := c.text.head?.map (·.char)

def delimiters : Bytes := utf8 " \t\n\r([!,\"-#$\x7b;\x7d"

def colon : UInt8 := 58
def dot : UInt8 := 46

structure Back where
  start : Nat
  userFunction : Bool
  parserFunction : Bool
  deriving DecidableEq, Repr

/-- Looks back over bytes given from the cursor to the start of the text. A colon marks a user
function; a dot ends the look and marks a parser function. -/
def lookBack (userFunction : Bool) : Bytes → Back
  | [] => ⟨0, userFunction, false⟩
  | b :: before =>
    if delimiters.contains b then ⟨before.length + 1, userFunction, false⟩
    else if b = colon then lookBack true before
    else if b = dot then ⟨before.length + 1, userFunction, true⟩
    else lookBack userFunction before

/-- The end of the token at `start`: past its first rune, or its first six for a user function
so that its colon is included, and then past all word characters. -/
def tokenEnd (text : Bytes) (start : Nat) (userFunction : Bool) : Nat :=
  let rs := Bytes.runes (text.drop start)
  let skip := if userFunction then 6 else 1
  start + Rune.sizes (rs.take skip) + Rune.sizes ((rs.drop skip).takeWhile fun r => isWord r.char)

def nextDigits? (text : Bytes) (offset : Nat) : Option (Nat × Nat) :=
  let before := ((text.drop offset).takeWhile fun b => !Bytes.isDigit b).length
  let start := offset + before
  let digits := ((text.drop start).takeWhile Bytes.isDigit).length
  if digits = 0 then none else some (start, start + digits)

def followsInclude (text : Bytes) (offset : Nat) : Bool :=
  let before : Bytes := text.take offset
  let line := before.dropRightWhile fun b => b == Bytes.blank || b == Bytes.tab
  let keyword := utf8 includeKeyword
  if line.length == before.length || !line.endsWith keyword then false
  else
    let head : Bytes := line.take (line.length - keyword.length)
    head.last?.all fun r => !isWord r.char

def wordBefore (text : Bytes) (offset : Nat) : Bytes :=
  let before := Bytes.runes (text.take offset)
  Rune.join (before.reverse.takeWhile fun r => isWord r.char).reverse

def atOffset (text : Bytes) (offset : Int) : Cursor :=
  if offset < 0 || (text.length : Int) < offset then { kind := .error }
  else
    let offset := offset.toNat
    let back := lookBack false (text.take (offset + 1)).reverse
    let start := back.start
    let stop := tokenEnd text start back.userFunction
    let found : Cursor :=
      { kind := .variable, text := text.slice start stop
        atCursor := (Bytes.head? (text.drop offset)).map (·.char)
        start, stop }
    if back.userFunction then { found with kind := .userFunction }
    else if back.parserFunction then
      { found with kind := .parserFunction, space := wordBefore text (start - 1) }
    else if found.text == utf8 includeKeyword then
      match nextDigits? text offset with
      | some (start, stop) =>
        { found with kind := .includeScript, text := text.slice start stop, start, stop }
      | none => { found with kind := .error }
    else if found.text.isDigits && followsInclude text start then
      { found with kind := .includeScript }
    else found

def atPosition (doc : Document) (p : Position) : Cursor :=
  match doc.offsetAt p with
  | some offset => atOffset doc.text offset
  | none => { kind := .error }

end Cursor

end HostScript
