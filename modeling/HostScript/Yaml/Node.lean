import HostScript.Yaml.Scalar
import HostScript.Yaml.Token.Scan

/-!
The tree of nodes of a YAML text, put together from its tokens. Of several documents in one text only
the first is read, and what stands behind it is not looked at any further than a few tokens.
-/

set_option autoImplicit false

namespace HostScript.Yaml

/-- A node with the number of the line where it begins. An alias has the node that it stands for,
unless it stands inside of that node. -/
inductive Node where
  | scalar (line : Nat) (tag text : String)
  | sequence (line : Nat) (tag : String) (items : List Node)
  | mapping (line : Nat) (tag : String) (entries : List (Node × Node))
  | reference (line : Nat) (name : String) (target : Option Node)
  deriving Inhabited

namespace Node

def line : Node → Nat
  | .scalar line .. => line
  | .sequence line .. => line
  | .mapping line .. => line
  | .reference line .. => line

def isMapping : Node → Bool
  | .mapping .. => true
  | _ => false

def empty (place : Mark) : Node := .scalar (place.line + 1) Tag.null ""

def tagOr (written usual : String) : String :=
  if written.isEmpty || written == "!" then usual else Tag.short written

def scalarTag (text : String) (style : Style) : String :=
  if style ≠ .plain then Tag.str else if text == "<<" then Tag.merge else Scalar.plainTag text

end Node

structure Anchor where
  name : String
  id : Nat
  node : Option Node

structure Composer where
  tokens : List Token
  fault : Option Fault
  anchors : List Anchor := []
  handles : List (String × String) := []

abbrev Compose := StateT Composer (Except Failure)

namespace Compose

def peek : Compose Token := do
  let c ← get
  match c.tokens, c.fault with
  | t :: _, _ => return t
  | [], some fault => throw (.unreadable fault)
  | [], none => return .streamEnd {}

def drop : Compose Unit := modify fun c => { c with tokens := c.tokens.drop 1 }

def next : Compose Token := do
  drop
  peek

def fail {α : Type} (start place : Mark) (problem : Problem) : Compose α :=
  throw (.unreadable (.inNode start place problem))

def beginAnchor (name : String) : Compose Nat :=
  modifyGet fun c =>
    let id := c.anchors.length
    (id, if name.isEmpty then c else { c with anchors := ⟨name, id, none⟩ :: c.anchors })

def endAnchor (name : String) (id : Nat) (node : Node) : Compose Unit :=
  if name.isEmpty then return ()
  else modify fun c =>
    { c with anchors := c.anchors.map fun a => if a.id = id then { a with node := some node } else a }

def anchored (name : String) (read : Compose Node) : Compose Node := do
  let id ← beginAnchor name
  let node ← read
  endAnchor name id node
  return node

def reference (name : String) (place : Mark) : Compose Node := do
  match (← get).anchors.find? (·.name == name) with
  | some a => return .reference (place.line + 1) name a.node
  | none => throw (.unknownAnchor name)

def fullTag (handle suffix : String) (start place : Mark) : Compose String := do
  if handle.isEmpty then return suffix
  match (← get).handles.lookup handle with
  | some root => return root ++ suffix
  | none => fail start place .undefinedHandle

structure Properties where
  anchor : String := ""
  tag : String := ""
  start : Mark

def properties : Compose Properties := do
  let t ← peek
  match t.kind with
  | .anchor name =>
    let u ← next
    match u.kind with
    | .tag handle suffix =>
      let _ ← next
      return ⟨name, ← fullTag handle suffix t.start u.start, t.start⟩
    | _ => return ⟨name, "", t.start⟩
  | .tag handle suffix =>
    let u ← next
    match u.kind with
    | .anchor name =>
      let _ ← next
      return ⟨name, ← fullTag handle suffix t.start t.start, t.start⟩
    | _ => return ⟨"", ← fullTag handle suffix t.start t.start, t.start⟩
  | _ => return { start := t.start }

def isBlockStop (kind : TokenKind) : Bool := kind == .key || kind == .value || kind == .blockEnd

def isFlowStop (kind close : TokenKind) : Bool := kind == .flowEntry || kind == close

mutual

/-- The node that begins here. `inBlock` tells whether it may be a block collection, `ofKey` whether
it may be a sequence that is not indented. -/
def node : Nat → (inBlock ofKey : Bool) → Compose Node
  | 0, _, _ => return .empty {}
  | fuel + 1, inBlock, ofKey => do
    let first ← peek
    match first.kind with
    | .reference name =>
      drop
      reference name first.start
    | _ =>
      let p ← properties
      let t ← peek
      let line := p.start.line + 1
      match t.kind with
      | .scalar text style =>
        let node := Node.scalar line (Node.tagOr p.tag (Node.scalarTag text style)) text
        anchored p.anchor (do drop; return node)
      | .flowSequenceStart =>
        anchored p.anchor (do
          drop
          return .sequence line (Node.tagOr p.tag Tag.seq) (← flowItems fuel t.start true []))
      | .flowMappingStart =>
        anchored p.anchor (do
          drop
          return .mapping line (Node.tagOr p.tag Tag.map) (← flowEntries fuel t.start true []))
      | kind =>
        if ofKey && kind == .blockEntry then
          anchored p.anchor (return .sequence line (Node.tagOr p.tag Tag.seq) (← looseItems fuel []))
        else if inBlock && kind == .blockSequenceStart then
          anchored p.anchor (do
            drop
            return .sequence line (Node.tagOr p.tag Tag.seq) (← blockItems fuel t.start []))
        else if inBlock && kind == .blockMappingStart then
          anchored p.anchor (do
            drop
            return .mapping line (Node.tagOr p.tag Tag.map) (← blockEntries fuel t.start []))
        else if p.anchor.isEmpty && p.tag.isEmpty then fail p.start t.start .missingContent
        else anchored p.anchor (return .scalar line (Node.tagOr p.tag Tag.null) "")

def blockItems : Nat → (start : Mark) → List Node → Compose (List Node)
  | 0, _, items => return items.reverse
  | fuel + 1, start, items => do
    let t ← peek
    match t.kind with
    | .blockEntry =>
      let u ← next
      let item ← if u.kind == .blockEntry || u.kind == .blockEnd then pure (.empty t.stop)
        else node fuel true false
      blockItems fuel start (item :: items)
    | .blockEnd =>
      drop
      return items.reverse
    | _ => fail start t.start .missingDash

def looseItems : Nat → List Node → Compose (List Node)
  | 0, items => return items.reverse
  | fuel + 1, items => do
    let t ← peek
    match t.kind with
    | .blockEntry =>
      let u ← next
      let item ← if u.kind == .blockEntry || isBlockStop u.kind then pure (.empty t.stop)
        else node fuel true false
      looseItems fuel (item :: items)
    | _ => return items.reverse

def blockEntries : Nat → (start : Mark) → List (Node × Node) → Compose (List (Node × Node))
  | 0, _, entries => return entries.reverse
  | fuel + 1, start, entries => do
    let t ← peek
    match t.kind with
    | .key =>
      let u ← next
      let key ← if isBlockStop u.kind then pure (.empty t.stop) else node fuel true true
      let v ← peek
      let value ← match v.kind with
        | .value => do
          let w ← next
          if isBlockStop w.kind then pure (.empty v.stop) else node fuel true true
        | _ => pure (.empty v.start)
      blockEntries fuel start ((key, value) :: entries)
    | .blockEnd =>
      drop
      return entries.reverse
    | _ => fail start t.start .missingKey

/-- The items of a flow sequence that begins at `start`. An item with a colon is a mapping of one
entry. -/
def flowItems : Nat → (start : Mark) → (isFirst : Bool) → List Node → Compose (List Node)
  | 0, _, _, items => return items.reverse
  | fuel + 1, start, isFirst, items => do
    let t ← peek
    if t.kind == .flowSequenceEnd then
      drop
      return items.reverse
    if !isFirst && t.kind != .flowEntry then fail start t.start .unclosedSequence
    let t ← if isFirst then pure t else next
    if t.kind == .flowSequenceEnd then
      drop
      return items.reverse
    if t.kind == .key then
      let pair ← flowPair fuel t.start
      flowItems fuel start false (pair :: items)
    else
      let item ← node fuel false false
      flowItems fuel start false (item :: items)

def flowPair : Nat → (start : Mark) → Compose Node
  | 0, start => return .empty start
  | fuel + 1, start => do
    let t ← next
    let key ←
      if t.kind == .value || isFlowStop t.kind .flowSequenceEnd then do
        drop
        pure (.empty t.stop)
      else node fuel false false
    let v ← peek
    let value ←
      if v.kind == .value then do
        let w ← next
        if isFlowStop w.kind .flowSequenceEnd then pure (.empty w.start) else node fuel false false
      else pure (.empty v.start)
    let _ ← peek
    return .mapping (start.line + 1) Tag.map [(key, value)]

def flowEntries : Nat → (start : Mark) → (isFirst : Bool) → List (Node × Node) →
    Compose (List (Node × Node))
  | 0, _, _, entries => return entries.reverse
  | fuel + 1, start, isFirst, entries => do
    let t ← peek
    if t.kind == .flowMappingEnd then
      drop
      return entries.reverse
    if !isFirst && t.kind != .flowEntry then fail start t.start .unclosedMapping
    let t ← if isFirst then pure t else next
    if t.kind == .flowMappingEnd then
      drop
      return entries.reverse
    if t.kind == .key then
      let u ← next
      let key ← if u.kind == .value || isFlowStop u.kind .flowMappingEnd then pure (.empty u.start)
        else node fuel false false
      let v ← peek
      let value ←
        if v.kind == .value then do
          let w ← next
          if isFlowStop w.kind .flowMappingEnd then pure (.empty w.start) else node fuel false false
        else pure (.empty v.start)
      flowEntries fuel start false ((key, value) :: entries)
    else
      let key ← node fuel false false
      let v ← peek
      flowEntries fuel start false ((key, .empty v.start) :: entries)

end

def usualHandles : List (String × String) := [("!", "!"), ("!!", Tag.root)]

def directives : Nat → (hasVersion : Bool) → Compose Unit
  | 0, _ => return ()
  | fuel + 1, hasVersion => do
    let t ← peek
    match t.kind with
    | .versionDirective major minor =>
      if hasVersion then fail {} t.start .repeatedVersion
      if major ≠ 1 || minor ≠ 1 then fail {} t.start .otherVersion
      drop
      directives fuel true
    | .tagDirective handle root =>
      if ((← get).handles.lookup handle).isSome then fail {} t.start .repeatedTag
      modify fun c => { c with handles := c.handles ++ [(handle, root)] }
      drop
      directives fuel hasVersion
    | _ => modify fun c => { c with handles := c.handles ++ usualHandles }

def startsDocument : TokenKind → Bool
  | .versionDirective .. => true
  | .tagDirective .. => true
  | .documentStart => true
  | _ => false

def document (fuel : Nat) : Compose (Option Node) := do
  let t ← next
  if t.kind == .streamEnd then return none
  let root ←
    if startsDocument t.kind then do
      directives fuel false
      let mark ← peek
      if mark.kind != .documentStart then fail {} mark.start .missingDocument
      let u ← next
      if startsDocument u.kind || u.kind == .documentEnd || u.kind == .streamEnd then pure (.empty u.start)
      else node fuel true false
    else do
      directives fuel false
      node fuel true false
  let _ ← peek
  return some root

end Compose

structure Document where
  root : Option Node
  size : Nat

/-- Reads the first document of a text. Each node takes a token or follows one, so a multiple of the
number of tokens bounds the steps. -/
def Document.ofBytes (text : Bytes) : Except Failure Document := do
  let tokens := Tokens.ofSource (.ofBytes (if text.isEmpty then [Bytes.newline] else text))
  let size := 4 * tokens.list.length + 8
  let (root, _) ← (Compose.document size).run { tokens := tokens.list, fault := tokens.fault }
  return ⟨root, size⟩

end HostScript.Yaml
