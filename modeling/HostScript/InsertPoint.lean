import HostScript.Block.Scan

set_option autoImplicit false

namespace HostScript

structure InsertPoint where
  present : Bool
  script : Position
  /-- The line of the table of contents entry; line -1 when the block is there already. -/
  contents : Position
  deriving DecidableEq, Repr

namespace InsertPoint

def kindOf (hook : Bytes) : BlockKind := if hook.isEmpty then .script else .insertion

def isWanted (number : Int) (hook : Bytes) (b : Block) : Bool :=
  b.kind == kindOf hook && b.id == number && (kindOf hook == .script || b.name == hook)

def goesBefore (number : Int) (hook : Bytes) (b : Block) : Bool :=
  b.id < number || (b.id == number && b.name.less hook)

def isComment (line : Bytes) : Bool := line.trim.startsWith (utf8 "//")

def aboveComments (doc : Document) : Nat → Nat
  | 0 => 0
  | n + 1 => if isComment (doc.line n) then aboveComments doc n else n + 1

/-- After the last block that goes before the new one; else before the first one that goes
after it and the comments above that; else at the end. -/
def blockPosition (doc : Document) (blocks : List Block) (number : Int) (hook : Bytes) : Position :=
  let same := blocks.filter fun b => b.kind == kindOf hook && b.number.isSome
  match (same.filter (goesBefore number hook)).getLast? with
  | some previous =>
    let line := doc.lineAt previous.stop + 1
    if doc.lineCount ≤ line then doc.positionAt doc.length else ⟨line, 0⟩
  | none =>
    match same.head? with
    | some next => ⟨aboveComments doc (doc.lineAt next.start), 0⟩
    | none => doc.positionAt doc.length

def isMargin (b : UInt8) : Bool := b == 9 || b == 10 || b == 12 || b == 13 || b == 32

def entryDigits? (line : Bytes) : Option Bytes :=
  let rest : Bytes := line.dropWhile isMargin
  let digits : Bytes := rest.takeWhile Bytes.isDigit
  let rest : Bytes := rest.drop digits.length
  let name : Bytes := rest.dropWhile (· == Bytes.tab)
  match name with
  | b :: _ =>
    if digits.isEmpty || name.length == rest.length || isMargin b then none else some digits
  | [] => none

/-- Goes through the lines before the first block. The entry belongs before the first entry with
a greater number, or after the last entry. An entry whose number is beyond the limit counts as
not greater. -/
def contentsLine (doc : Document) (number : Int) : List Nat → (after : Nat) → Nat
  | [], after => after
  | n :: ns, after =>
    match entryDigits? (doc.line n) with
    | none => contentsLine doc number ns after
    | some digits =>
      match digits.number? with
      | some entry => if number < entry then n else contentsLine doc number ns (n + 1)
      | none => contentsLine doc number ns (n + 1)

def contentsPosition (doc : Document) (blocks : List Block) (number : Int) : Position :=
  let limit := match blocks.head? with
    | some b => doc.lineAt b.start
    | none => doc.lineCount
  ⟨contentsLine doc number (List.range limit) 0, 0⟩

/-- Blocks of `others` are looked at too, but only to see whether the block is there already. -/
def find (doc : Document) (number : Int) (hook : Bytes) (others : List Document) : InsertPoint :=
  let blocks := Block.scan doc
  match (blocks ++ others.flatMap Block.scan).find? (isWanted number hook) with
  | some b => ⟨true, b.headerRange.start, ⟨-1, 0⟩⟩
  | none => ⟨false, blockPosition doc blocks number hook, contentsPosition doc blocks number⟩

end InsertPoint

end HostScript
