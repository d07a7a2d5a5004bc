import HostScript.Text.Rune

/-!
Immutable text documents and their two coordinate systems: byte offsets, and positions made
of a line and a UTF-16 character, both counted from zero.
-/

set_option autoImplicit false

namespace HostScript

structure Position where
  line : Int
  character : Int
  deriving DecidableEq, Repr, Inhabited

def Position.less (p q : Position) : Bool :=
  if p.line = q.line then p.character < q.character else p.line < q.line

/-- The number after another one among numbers of 64 bits; the least one comes after the greatest. -/
def nextWhole (n : Int) : Int := (n + 1).bmod 18446744073709551616

def Position.describe (p : Position) : String :=
  toString (nextWhole p.line) ++ ":" ++ toString (nextWhole p.character)

structure Range where
  start : Position
  stop : Position
  deriving DecidableEq, Repr, Inhabited

/-- The end belongs to the range, so a cursor just after a token still hits it. -/
def Range.contains (r : Range) (p : Position) : Bool := !p.less r.start && !r.stop.less p

def startsAfterNewlines (offset : Nat) : Bytes → List Nat
  | [] => []
  | b :: bs =>
    if b = Bytes.newline then (offset + 1) :: startsAfterNewlines (offset + 1) bs
    else startsAfterNewlines (offset + 1) bs

/-- The offset of the first byte of each line. A trailing newline starts an empty last line. -/
def lineStarts (text : Bytes) : Array Nat := (0 :: startsAfterNewlines 0 text).toArray

structure Document where
  uri : String
  text : Bytes
  starts : Array Nat
  starts_eq : starts = lineStarts text

namespace Document

def ofText (uri : String) (text : Bytes) : Document := ⟨uri, text, lineStarts text, rfl⟩

instance : Inhabited Document := ⟨ofText "" []⟩

def length (d : Document) : Nat := d.text.length

def lineCount (d : Document) : Nat := d.starts.size

def lineStart (d : Document) (n : Int) : Nat :=
  if n ≤ 0 then 0 else d.starts.getD n.toNat d.length

def lineStop (d : Document) (n : Int) : Nat :=
  match d.starts[n.toNat + 1]? with
  | some next => next - 1
  | none => d.length

def lineEnd (d : Document) (n : Int) : Nat :=
  if n < 0 then 0
  else
    let stop := d.lineStop n
    if d.lineStart n < stop && d.text[stop - 1]? == some Bytes.carriageReturn then stop - 1
    else stop

def line (d : Document) (n : Int) : Bytes :=
  if n < 0 || (d.lineCount : Int) ≤ n then []
  else d.text.slice (d.lineStart n) (d.lineEnd n)

def lineAt (d : Document) (offset : Int) : Nat :=
  d.starts.countP (fun start => start ≤ offset.toNat) - 1

/-- The line that contains an offset of 64 bits: the first one before the text, the last one beyond
it, and none for the greatest offset, which nothing comes after. -/
def lineAtWhole (d : Document) (offset : Int) : Int :=
  if nextWhole offset < offset then -1 else d.lineAt offset

def clamp (d : Document) (offset : Int) : Nat := min offset.toNat d.length

def positionAt (d : Document) (offset : Int) : Position :=
  let offset := d.clamp offset
  let line := d.lineAt offset
  ⟨line, (d.text.slice (d.lineStart line) offset).units⟩

/-- Walks over runes that begin at `offset` until `stop`, while fewer than `target` code
units have been passed. -/
def walkUnits (stop target : Nat) : (offset units : Nat) → List Rune → Option Nat
  | offset, units, r :: rs =>
    if offset < stop then
      if target ≤ units then some offset
      else walkUnits stop target (offset + r.size) (units + unitsOf r.char) rs
    else if units = target then some stop else none
  | _, units, [] => if units = target then some stop else none

def offsetAt (d : Document) (p : Position) : Option Nat :=
  if p.line < 0 || (d.lineCount : Int) ≤ p.line || p.character < 0 then none
  else
    let start := d.lineStart p.line
    walkUnits (d.lineEnd p.line) p.character.toNat start 0 (Bytes.runes (d.text.drop start))

def range (d : Document) (start stop : Int) : Range := ⟨d.positionAt start, d.positionAt stop⟩

def sliceAt (d : Document) (start stop : Int) : Bytes :=
  d.text.slice start.toNat (d.clamp stop)

end Document

def fileScheme : String := "file://"

def pathOfUri (uri : String) : String :=
  if uri.startsWith fileScheme then String.ofList (uri.toList.drop fileScheme.length) else uri

def uriOfPath (path : String) : String :=
  if path.startsWith "/" then fileScheme ++ path else path

end HostScript
