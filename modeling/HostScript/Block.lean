import HostScript.Document

/-!
Script blocks embedded in a host document. A block begins at a header line; the first
following terminator line ends it.
-/

set_option autoImplicit false

namespace HostScript

inductive BlockKind where
  | script | insertion
  deriving DecidableEq, Repr, Inhabited

namespace BlockKind

def name : BlockKind → String
  | .script => "script"
  | .insertion => "insertion"

def keyword : BlockKind → String
  | .script => "SCRIPT:"
  | .insertion => "INSERTINTOSCRIPT:"

end BlockKind

def terminatorKeyword : String := "ENDSCRIPT"

def includeKeyword : String := "includescript"

structure Include where
  target : Option Nat
  arg : Bytes
  range : Range
  keywordRange : Range
  offset : Int
  deriving DecidableEq, Repr

/-- A comment that declares a place where other blocks may insert code. -/
structure Hook where
  marker : Option (Nat × Bytes)
  text : Bytes
  range : Range
  deriving DecidableEq, Repr

namespace Hook

def number (h : Hook) : Nat := (h.marker.map (·.1)).getD 0

def name (h : Hook) : Bytes := (h.marker.map (·.2)).getD []

end Hook

/-- The header is at the offsets `[start, headerEnd)` and the body at `[bodyStart, bodyEnd)`. A
terminated block ends with its terminator line, any other with its body. -/
structure Block where
  kind : BlockKind
  number : Option Nat
  numberText : Bytes
  name : Bytes
  fields : List Bytes
  uri : String
  start : Nat
  headerEnd : Nat
  bodyStart : Nat
  bodyEnd : Nat
  stop : Nat
  range : Range
  headerRange : Range
  terminated : Bool
  includes : List Include
  hooks : List Hook
  deriving DecidableEq, Repr

namespace Block

/-- The number in its signed form, with -1 for a header that has none. -/
def id (b : Block) : Int := match b.number with
  | some n => n
  | none => -1

def describe (b : Block) : Bytes :=
  utf8 b.kind.keyword ++ b.numberText ++ utf8 "," ++ b.name

/-- Whether an offset falls within the block, the end of its last line included. -/
def contains (b : Block) (offset : Int) : Bool := b.start ≤ offset && offset ≤ b.stop

def samePlace (a b : Block) : Bool := a.uri == b.uri && a.start == b.start

def at? (blocks : List Block) (offset : Int) : Option Block := blocks.find? (·.contains offset)

def defines (b : Block) (n : Nat) : Bool := b.kind == .script && b.number == some n

end Block

end HostScript
