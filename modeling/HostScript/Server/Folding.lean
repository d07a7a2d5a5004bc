import HostScript.Server.State
import HostScript.Text.Rune

set_option autoImplicit false

namespace HostScript

inductive FoldingKind where
  | region | comment
  deriving DecidableEq, Repr

def FoldingKind.name : FoldingKind → String
  | .region => "region"
  | .comment => "comment"

structure FoldingRange where
  kind : FoldingKind
  first : Int
  last : Int
  deriving DecidableEq, Repr

def FoldingRange.toJson (r : FoldingRange) : Json :=
  .object [("startLine", .int r.first), ("endLine", .int r.last), ("kind", Json.str r.kind.name)]

namespace Folding

/-- The last line of a block. A block that the next header cuts short ends on the line before. -/
def lastLine (b : Block) : Int :=
  let first := b.range.start.line
  let last := b.range.stop.line
  if !b.terminated && b.range.stop.character = 0 && first < last then last - 1 else last

def isComment (line : Bytes) : Bool :=
  let text := line.trim
  text.startsWith (utf8 "//") && !text.startsWith (utf8 "//ADDHOOK")

def runOf (first last : Int) : List FoldingRange :=
  if first < last then [⟨.comment, first, last⟩] else []

/-- The runs of comment lines among lines counted from `n`. `run` is the first line of the run
that reaches up to `n`. -/
def commentRuns (n : Int) (run : Option Int) : List Bytes → List FoldingRange
  | [] => (run.map fun first => runOf first (n - 1)).getD []
  | line :: lines =>
    if isComment line then commentRuns (n + 1) (some (run.getD n)) lines
    else (run.map fun first => runOf first (n - 1)).getD [] ++ commentRuns (n + 1) none lines

def linesOf (doc : Document) (first last : Int) : List Bytes :=
  let count := (min (last + 1) doc.lineCount - first).toNat
  (List.range count).map fun (i : Nat) => doc.line (first + i)

def ofBlock (doc : Document) (b : Block) : List FoldingRange :=
  let first := b.range.start.line
  let last := lastLine b
  (if first < last then [⟨.region, first, last⟩] else [])
    ++ commentRuns first none (linesOf doc first last)

def ofDocument (doc : Document) : List FoldingRange := (Block.scan doc).flatMap (ofBlock doc)

end Folding

def Server.foldingRanges (s : Server) (uri : String) : List FoldingRange :=
  match s.buffers.doc? uri with
  | some doc => Folding.ofDocument doc
  | none => []

end HostScript
