import HostScript.Disk.Path
import HostScript.Text.Rune

set_option autoImplicit false

namespace HostScript

inductive GlobPart where
  | star
  | any
  | char (c : Char)
  | oneOf (negated : Bool) (ranges : List (Char × Char))
  deriving DecidableEq, Repr

namespace Glob

def classChar? : List Char → Option (Char × List Char)
  | '\\' :: c :: rest => if rest.isEmpty then none else some (c, rest)
  | c :: rest => if c == '-' || c == ']' || c == '\\' || rest.isEmpty then none else some (c, rest)
  | [] => none

def classRanges? : Nat → (ranges : List (Char × Char)) → List Char → Option (List (Char × Char) × List Char)
  | 0, _, _ => none
  | fuel + 1, ranges, cs => do
    if cs.head? = some ']' && !ranges.isEmpty then return (ranges, cs.drop 1)
    let (low, rest) ← classChar? cs
    if rest.head? = some '-' then
      let (high, rest) ← classChar? (rest.drop 1)
      classRanges? fuel ((low, high) :: ranges) rest
    else classRanges? fuel ((low, low) :: ranges) rest

def parts? : Nat → List Char → Option (List GlobPart)
  | _, [] => some []
  | 0, _ => none
  | fuel + 1, c :: cs =>
    match c with
    | '*' => (parts? fuel cs).map (.star :: ·)
    | '?' => (parts? fuel cs).map (.any :: ·)
    | '\\' => match cs with
      | e :: rest => (parts? fuel rest).map (.char e :: ·)
      | [] => none
    | '[' => do
      let negated := cs.head? = some '^'
      let (ranges, rest) ← classRanges? fuel [] (if negated then cs.drop 1 else cs)
      return .oneOf negated ranges :: (← parts? fuel rest)
    | _ => (parts? fuel cs).map (.char c :: ·)

structure Chunk where
  afterStar : Bool
  parts : List GlobPart
  deriving DecidableEq, Repr

/-- Cuts a pattern before its stars. Several stars in a row are as good as one. -/
def chunks : List GlobPart → List Chunk
  | [] => []
  | .star :: parts =>
    match chunks parts with
    | ⟨false, head⟩ :: rest => ⟨true, head⟩ :: rest
    | [] => [⟨true, []⟩]
    | rest => rest
  | part :: parts =>
    match chunks parts with
    | ⟨false, head⟩ :: rest => ⟨false, part :: head⟩ :: rest
    | rest => ⟨false, [part]⟩ :: rest

def slash : UInt8 := 47

def inRanges (c : Char) (ranges : List (Char × Char)) : Bool :=
  ranges.any fun range => range.1 ≤ c && c ≤ range.2

def afterChar? (p : Char → Bool) (name : Bytes) : Option Bytes :=
  name.head?.bind fun r => if p r.char then some (name.drop r.size) else none

def afterPart? (name : Bytes) : GlobPart → Option Bytes
  | .star => none
  | .any => afterChar? (· != '/') name
  | .char c => name.after? (utf8 (String.singleton c))
  | .oneOf negated ranges => afterChar? (fun c => inRanges c ranges != negated) name

def after? (parts : List GlobPart) (name : Bytes) : Option Bytes :=
  parts.foldlM afterPart? name

/-- Looks for the first place, no further than a slash, where the parts fit. Every byte is a place.
The parts that end a pattern must reach the end of the name. -/
def seek? (isLast : Bool) (parts : List GlobPart) : Bytes → Option Bytes
  | [] => after? parts []
  | b :: bs =>
    match (after? parts (b :: bs)).filter fun rest => !isLast || rest.isEmpty with
    | some rest => some rest
    | none => if b == slash then none else seek? isLast parts bs

/-- A star takes as little as it can, and what it took is not tried again. -/
def matchesChunks : List Chunk → Bytes → Bool
  | [], name => name.isEmpty
  | ⟨true, []⟩ :: _, name => !name.contains slash
  | ⟨true, parts⟩ :: rest, name => (seek? rest.isEmpty parts name).any (matchesChunks rest)
  | ⟨false, parts⟩ :: rest, name => (after? parts name).any (matchesChunks rest)

def isMatch (pattern name : String) : Bool :=
  match parts? (pattern.length + 1) pattern.toList with
  | some parts => matchesChunks (chunks parts) (utf8 name)
  | none => false

def matchesAny (path : String) (patterns : List String) : Bool :=
  patterns.any fun p => isMatch p path || (Path.components path).any (isMatch p)

end Glob

end HostScript
