import HostScript.Yaml.Token.Tag

/-!
Splitting a YAML text into tokens. A key is often only known to be one when the colon after it is
met, so the place of a possible key is kept, and its tokens are put in there later.
-/

set_option autoImplicit false

namespace HostScript.Yaml

structure PossibleKey where
  position : Nat
  mark : Mark
  isRequired : Bool

structure Scanner where
  cursor : Cursor
  problem : Option Problem
  tokens : List Token := []
  count : Nat := 0
  /-- The column of the innermost block collection; negative outside of all. -/
  indent : Int := -1
  outer : List Int := []
  canBeKey : Bool := true
  /-- The possible key of the innermost flow collection, or of the text outside of all. -/
  pendingKey : Option PossibleKey := none
  outerKeys : List (Option PossibleKey) := []

namespace Scanner

def flowDepth (s : Scanner) : Nat := s.outerKeys.length

def inFlow (s : Scanner) : Bool := !s.outerKeys.isEmpty

def mark (s : Scanner) : Mark := s.cursor.mark

def depthLimit : Nat := 10000

def keyLimit : Nat := 1024

def push (s : Scanner) (t : Token) : Scanner := { s with tokens := t :: s.tokens, count := s.count + 1 }

def insert (s : Scanner) (position : Nat) (t : Token) : Scanner :=
  let later := s.count - position
  { s with tokens := s.tokens.take later ++ t :: s.tokens.drop later, count := s.count + 1 }

def complain (s : Scanner) (problem : Problem) : Fault := .inToken s.mark s.mark problem

def indentTo (s : Scanner) (column : Nat) (position : Nat) (kind : TokenKind) (mark : Mark) :
    Except Fault Scanner :=
  if s.inFlow || (column : Int) ≤ s.indent then .ok s
  else if depthLimit < s.outer.length + 1 then .error (s.complain .tooDeep)
  else .ok ({ s with indent := column, outer := s.indent :: s.outer }.insert position ⟨kind, mark, mark⟩)

def closeBlocks (column : Int) (place : Mark) (s : Scanner) : List Int → Scanner
  | [] => s
  | next :: rest =>
    if s.indent ≤ column then s
    else closeBlocks column place
      { s.push ⟨.blockEnd, place, place⟩ with indent := next, outer := rest } rest

def dedentTo (s : Scanner) (column : Int) (place : Mark) : Scanner :=
  if s.inFlow then s else closeBlocks column place s s.outer

/-- Gives the pending key up. One that is required must not be given up. -/
def dropKey (s : Scanner) : Except Fault Scanner :=
  match s.pendingKey with
  | none => .ok s
  | some key =>
    if key.isRequired then .error (.inToken key.mark s.mark .missingColon)
    else .ok { s with pendingKey := none }

def noteKey (s : Scanner) : Except Fault Scanner :=
  if s.canBeKey then do
    let isRequired := !s.inFlow && s.indent == (s.mark.column : Int)
    let s ← s.dropKey
    return { s with pendingKey := some ⟨s.count, s.mark, isRequired⟩ }
  else .ok s

/-- A key stands in one line, not too far before its colon. -/
def isNear (s : Scanner) (key : PossibleKey) : Bool :=
  !(key.mark.line < s.mark.line || key.mark.index + keyLimit < s.mark.index)

def nearKey (s : Scanner) : Except Fault (Option PossibleKey) :=
  match s.pendingKey with
  | none => .ok none
  | some key =>
    if s.isNear key then .ok (some key)
    else if key.isRequired then .error (.inToken key.mark s.mark .missingColon)
    else .ok none

def single (s : Scanner) (kind : TokenKind) : Scanner :=
  let next := s.cursor.skip
  { s with cursor := next }.push ⟨kind, s.mark, next.mark⟩

def add (s : Scanner) (kind : TokenKind) (stop : Mark) (next : Cursor) : Scanner :=
  { s with cursor := next }.push ⟨kind, s.mark, stop⟩

def addStreamEnd (s : Scanner) : Except Fault Scanner := do
  let m := s.mark
  let place := if m.column = 0 then m else ⟨m.index, m.line + 1, 0⟩
  let s ← (s.dedentTo (-1) place).dropKey
  return { s with canBeKey := false }.push (.streamEnd place)

def addDirective (s : Scanner) : Except Fault Scanner := do
  let s ← (s.dedentTo (-1) s.mark).dropKey
  let (token, next) ← readDirective s.cursor
  return { s with canBeKey := false, cursor := next }.push token

def addDocumentMark (s : Scanner) (kind : TokenKind) : Except Fault Scanner := do
  let s ← (s.dedentTo (-1) s.mark).dropKey
  let next := s.cursor.skip.skip.skip
  return { s with canBeKey := false }.add kind next.mark next

def openFlow (s : Scanner) (kind : TokenKind) : Except Fault Scanner := do
  let s ← s.noteKey
  let s := { s with pendingKey := none, outerKeys := s.pendingKey :: s.outerKeys }
  if depthLimit < s.flowDepth then throw (s.complain .tooDeep)
  return { s with canBeKey := true }.single kind

def closeFlow (s : Scanner) (kind : TokenKind) : Except Fault Scanner := do
  let s ← s.dropKey
  let s := match s.outerKeys with
    | [] => s
    | key :: outer => { s with pendingKey := key, outerKeys := outer }
  return { s with canBeKey := false }.single kind

def addFlowEntry (s : Scanner) : Except Fault Scanner := do
  let s ← s.dropKey
  return { s with canBeKey := true }.single .flowEntry

def enterBlock (s : Scanner) (kind : TokenKind) (problem : Problem) : Except Fault Scanner :=
  if s.inFlow then .ok s
  else if !s.canBeKey then .error (s.complain problem)
  else s.indentTo s.mark.column s.count kind s.mark

def addBlockEntry (s : Scanner) : Except Fault Scanner := do
  let s ← s.enterBlock .blockSequenceStart .sequenceNotAllowed
  let s ← s.dropKey
  return { s with canBeKey := true }.single .blockEntry

def addKey (s : Scanner) : Except Fault Scanner := do
  let s ← s.enterBlock .blockMappingStart .keyNotAllowed
  let s ← s.dropKey
  return { s with canBeKey := !s.inFlow }.single .key

def addValue (s : Scanner) : Except Fault Scanner := do
  match ← s.nearKey with
  | some key =>
    let s := s.insert key.position ⟨.key, key.mark, key.mark⟩
    let s ← s.indentTo key.mark.column key.position .blockMappingStart key.mark
    return { s with pendingKey := none, canBeKey := false }.single .value
  | none =>
    let s ← { s with pendingKey := none }.enterBlock .blockMappingStart .valueNotAllowed
    return { s with canBeKey := !s.inFlow }.single .value

def addAnchor (s : Scanner) (kind : String → TokenKind) : Except Fault Scanner := do
  let s ← s.noteKey
  let (name, next) ← readAnchor s.mark s.cursor.skip
  return { s with canBeKey := false }.add (kind name) next.mark next

def addTag (s : Scanner) : Except Fault Scanner := do
  let s ← s.noteKey
  let (kind, next) ← readTag s.cursor
  return { s with canBeKey := false }.add kind next.mark next

def addScalar (s : Scanner) (style : Style) (canBeKey : Bool) (r : Reading) : Scanner :=
  { s with canBeKey }.add (.scalar (String.ofList r.text) style) r.stop r.cursor

def addBlockScalar (s : Scanner) (isLiteral : Bool) : Except Fault Scanner := do
  let s ← s.dropKey
  return s.addScalar .block true (← readBlockScalar isLiteral s.indent s.mark s.cursor.skip)

def addQuoted (s : Scanner) (isSingle : Bool) : Except Fault Scanner := do
  let s ← s.noteKey
  let k := s.cursor.skip
  return s.addScalar .quoted false (← readQuoted isSingle s.mark 0 {} [] k k.rest)

def addPlain (s : Scanner) : Except Fault Scanner := do
  let s ← s.noteKey
  let k := s.cursor
  let r ← readPlain s.inFlow (s.indent + 1).toNat k.mark false {} [] k.mark k k.rest
  return s.addScalar .plain r.isBroken r

def startsPlain (inFlow : Bool) (c : Char) (cs : List Char) : Bool :=
  if c == '-' then !cs.head?.any isBlank
  else if c == '?' || c == ':' then !inFlow && !endsWord cs
  else !(isBlank c || isBreak c || isFlowMark c
    || ['#', '&', '*', '!', '|', '>', '\'', '"', '%', '@', '\x60'].contains c)

def addToken (s : Scanner) (c : Char) (cs : List Char) : Except Fault Scanner :=
  if c == '[' then s.openFlow .flowSequenceStart
  else if c == '\x7b' then s.openFlow .flowMappingStart
  else if c == ']' then s.closeFlow .flowSequenceEnd
  else if c == '\x7d' then s.closeFlow .flowMappingEnd
  else if c == ',' then s.addFlowEntry
  else if c == '-' && endsWord cs then s.addBlockEntry
  else if c == '?' && (s.inFlow || endsWord cs) then s.addKey
  else if c == ':' && (s.inFlow || endsWord cs) then s.addValue
  else if c == '*' then s.addAnchor .reference
  else if c == '&' then s.addAnchor .anchor
  else if c == '!' then s.addTag
  else if c == '|' && !s.inFlow then s.addBlockScalar true
  else if c == '>' && !s.inFlow then s.addBlockScalar false
  else if c == '\'' then s.addQuoted true
  else if c == '"' then s.addQuoted false
  else if startsPlain s.inFlow c cs then s.addPlain
  else .error (s.complain .badStart)

def skipSpace (s : Scanner) : Scanner :=
  let (cursor, canBeKey) := s.cursor.skipGap s.inFlow s.canBeKey .space s.cursor.rest
  { s with cursor, canBeKey }

def step (s : Scanner) : Except Fault Scanner := do
  let before := s.mark
  let s := s.skipSpace
  let s := s.dedentTo s.mark.column before
  match s.cursor.rest with
  | [] => s.addStreamEnd
  | c :: cs =>
    if s.mark.column = 0 && c == '%' then s.addDirective
    else if s.mark.column = 0 && isDocumentMark (c :: cs) then
      s.addDocumentMark (if c == '-' then .documentStart else .documentEnd)
    else
      let s ← s.addToken c cs
      return if c == '-' && endsWord cs then s else { s with cursor := s.cursor.skipComment }

def lookahead : Nat := 4

def checkedStep (s : Scanner) : Except Fault Scanner :=
  match s.problem with
  | none => s.step
  | some problem =>
    if s.skipSpace.cursor.rest.length < lookahead then .error (.ofBytes problem)
    else
      match s.step with
      | .ok next => if next.cursor.rest.isEmpty then .error (.ofBytes problem) else .ok next
      | .error fault => .error (if fault.problem = .endInText then .ofBytes problem else fault)

def isDone (s : Scanner) : Bool :=
  match s.tokens.head? with
  | some t => t.kind == .streamEnd
  | none => false

def run (s : Scanner) : Nat → Scanner × Option Fault
  | 0 => (s, none)
  | fuel + 1 =>
    match s.checkedStep with
    | .error fault => (s, some fault)
    | .ok next => if next.isDone then (next, none) else next.run fuel

/-- The tokens that can be looked at before a fault is met: looking at a token needs the two after
it, and looking at a possible key needs all up to its colon. -/
def reach (s : Scanner) : Nat :=
  (s.pendingKey :: s.outerKeys).foldl
    (fun n key => (key.filter s.isNear).elim n fun key => min n key.position) (s.count - 2)

end Scanner

structure Tokens where
  list : List Token
  fault : Option Fault

def Tokens.ofSource (source : Source) : Tokens :=
  let start : Scanner := { cursor := { rest := source.chars }, problem := source.problem }
  let (s, fault) := (start.push ⟨.streamStart, {}, {}⟩).run (source.chars.length + 2)
  ⟨if fault.isSome then s.tokens.reverse.take s.reach else s.tokens.reverse, fault⟩

end HostScript.Yaml
