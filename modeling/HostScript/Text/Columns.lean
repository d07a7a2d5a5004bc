import HostScript.Text.Rune

/-!
Laying a text out in columns. Tabs divide its lines into cells. The cells of neighbouring lines
stand below each other, so all cells of a column but the last of a line are as wide as the widest.
-/

set_option autoImplicit false

namespace HostScript.Columns

/-- Whatever stands between two of these bytes is taken as it is. They have no width. -/
def shield : UInt8 := 0xFF

def isCellEnd (b : UInt8) : Bool := b == Bytes.tab || b == 11

/-- A form feed ends a line, and all columns with it. -/
def formFeed : UInt8 := 12

def split (isEnd : UInt8 → Bool) (isShielded : Bool) : Bytes → List Bytes
  | [] => [[]]
  | b :: bs =>
    if !isShielded && isEnd b then [] :: split isEnd false bs
    else match split isEnd (isShielded != (b == shield)) bs with
      | [] => [[b]]
      | part :: parts => (b :: part) :: parts

def cells (line : Bytes) : List Bytes := split isCellEnd false line

def width (cell : Bytes) : Nat := (cell.runes.filter fun r => r.bytes != [shield]).length

def reaches (column : Nat) (line : List Bytes) : Bool := column + 1 < line.length

def gap : Nat := 2

/-- The width of a column in a line. It is shared with the lines around it that have the column,
up to the nearest ones that do not. `above` begins with the nearest line. -/
def columnWidth (above below : List (List Bytes)) (column : Nat) : Nat :=
  let near := above.takeWhile (reaches column) ++ below.takeWhile (reaches column)
  ((near.map fun line => width (line.getD column [])).max?).getD 0 + gap

def pad (n : Nat) (cell : Bytes) : Bytes := cell ++ List.replicate (n - width cell) Bytes.blank

def layoutLine (above below : List (List Bytes)) (line : List Bytes) : Bytes :=
  ((line.zip (List.range line.length)).map fun (cell, column) =>
    if reaches column line then pad (columnWidth above below column) cell else cell).flatten

def layoutLines (above : List (List Bytes)) : List (List Bytes) → List Bytes
  | [] => []
  | line :: below => layoutLine above (line :: below) line :: layoutLines (line :: above) below

def layout (text : Bytes) : Bytes :=
  let tables := split (· == formFeed) false text
  let lines := tables.flatMap fun table =>
    layoutLines [] ((split (· == Bytes.newline) false table).map cells)
  List.intercalate [Bytes.newline] lines

end HostScript.Columns
