import HostScript.Yaml.Cursor
import HostScript.Yaml.Token

set_option autoImplicit false

namespace HostScript.Yaml

structure Space where
  blanks : List Char := []
  isBroken : Bool := false
  lead : Option Char := none
  breaks : List Char := []

namespace Space

def addBlank (s : Space) (c : Char) : Space :=
  if s.isBroken then s else { s with blanks := c :: s.blanks }

def addBreak (s : Space) (c : Char) : Space :=
  if s.isBroken then { s with breaks := breakChar c :: s.breaks }
  else { s with blanks := [], isBroken := true, lead := some (breakChar c) }

/-- Adds what the space stands for to a text in reverse: a single line break folds to a blank, and
of several the first is left out. -/
def join (s : Space) (text : List Char) : List Char :=
  if !s.isBroken then s.blanks ++ text
  else if s.lead == some '\n' then (if s.breaks.isEmpty then ' ' :: text else s.breaks ++ text)
  else s.breaks ++ (s.lead.toList ++ text)

end Space

structure Reading where
  text : List Char
  stop : Mark
  cursor : Cursor
  isBroken : Bool := false

/-- Whether a character ends a plain scalar: a colon at the end of a word, and in a flow collection
also the marks of the collection. -/
def endsPlain (inFlow : Bool) (c : Char) (cs : List Char) : Bool :=
  (c == ':' && endsWord cs) || (inFlow && (c == '?' || isFlowMark c))

/-- Reads a plain scalar that begins at `start`. Outside flow collections its lines stand at the
column `indent` or behind it. `inSpace` tells whether `space` has just been passed. -/
def readPlain (inFlow : Bool) (indent : Nat) (start : Mark) (inSpace : Bool) (space : Space)
    (text : List Char) (stop : Mark) (k : Cursor) : List Char → Except Fault Reading
  | [] => .ok ⟨text.reverse, stop, { k with rest := [] }, space.isBroken⟩
  | '\r' :: '\n' :: cs =>
    readPlain inFlow indent start true (space.addBreak '\n') text stop (k.pastBreak 2 cs) cs
  | c :: cs =>
    if isBlank c then
      if space.isBroken && k.column < indent && c == '\t' then
        .error (.inToken start k.mark .tabInText)
      else readPlain inFlow indent start true (space.addBlank c) text stop (k.past c cs) cs
    else if isBreak c then
      readPlain inFlow indent start true (space.addBreak c) text stop (k.pastBreak 1 cs) cs
    else if (inSpace && ((!inFlow && k.column < indent) || c == '#'))
        || (k.column = 0 && isDocumentMark (c :: cs)) || endsPlain inFlow c cs then
      .ok ⟨text.reverse, stop, { k with rest := c :: cs }, space.isBroken⟩
    else
      let next := k.past c cs
      readPlain inFlow indent start false {} (c :: space.join text) next.mark next cs

def letterEscapes : List (Char × Nat) :=
  [('0', 0), ('a', 7), ('b', 8), ('t', 9), ('\t', 9), ('n', 10), ('v', 11), ('f', 12), ('r', 13),
    ('e', 27), (' ', 32), ('"', 34), ('\'', 39), ('\\', 92), ('N', 0x85), ('_', 0xA0), ('L', 0x2028),
    ('P', 0x2029)]

def escapeDigits (c : Char) : Nat := if c = 'x' then 2 else if c = 'u' then 4 else if c = 'U' then 8 else 0

def hexDigit? (c : Char) : Option Nat :=
  if '0' ≤ c && c ≤ '9' then some (c.toNat - 48)
  else if 'a' ≤ c && c ≤ 'f' then some (c.toNat - 87)
  else if 'A' ≤ c && c ≤ 'F' then some (c.toNat - 55)
  else none

def hexValue? (digits : Nat) (cs : List Char) : Option Nat :=
  if cs.length < digits then none
  else (cs.take digits).foldlM (fun n c => (hexDigit? c).map (16 * n + ·)) 0

def codeEscape (digits : Nat) (cs : List Char) : Except Problem Char :=
  match hexValue? digits cs with
  | none => .error .badHexNumber
  | some code =>
    if code < 0x110000 && !(0xD800 ≤ code && code < 0xE000) then .ok (Char.ofNat code)
    else .error .badCharacterCode

/-- Reads a scalar up to the quote that ends it; `isSingle` tells which quote this is. The first
argument counts the characters of an escape that are still to be left out. -/
def readQuoted (isSingle : Bool) (start : Mark) (pending : Nat) (space : Space) (text : List Char)
    (k : Cursor) : List Char → Except Fault Reading
  | [] => .error (.inToken start k.mark .endInText)
  | '\r' :: '\n' :: cs =>
    readQuoted isSingle start 0 (space.addBreak '\n') text (k.pastBreak 2 cs) cs
  | c :: cs =>
    let next := k.past c cs
    if 0 < pending then readQuoted isSingle start (pending - 1) space text next cs
    else if isBlank c then readQuoted isSingle start 0 (space.addBlank c) text next cs
    else if isBreak c then readQuoted isSingle start 0 (space.addBreak c) text (k.pastBreak 1 cs) cs
    else if k.column = 0 && isDocumentMark (c :: cs) then
      .error (.inToken start k.mark .documentInText)
    else
      let text := space.join text
      if isSingle && c == '\'' then
        if cs.head? == some '\'' then readQuoted isSingle start 1 {} ('\'' :: text) next cs
        else .ok ⟨text.reverse, next.mark, next, false⟩
      else if !isSingle && c == '"' then .ok ⟨text.reverse, next.mark, next, false⟩
      else if !isSingle && c == '\\' then
        match cs with
        | [] => .error (.inToken start k.mark .badEscape)
        | '\r' :: '\n' :: rest =>
          readQuoted isSingle start 0 { isBroken := true } text (next.pastBreak 2 rest) rest
        | e :: rest =>
          let after := next.past e rest
          if isBreak e then
            readQuoted isSingle start 0 { isBroken := true } text (next.pastBreak 1 rest) rest
          else if escapeDigits e = 0 then
            match letterEscapes.lookup e with
            | some code => readQuoted isSingle start 0 {} (Char.ofNat code :: text) after rest
            | none => .error (.inToken start k.mark .badEscape)
          else
            match codeEscape (escapeDigits e) rest with
            | .ok escaped => readQuoted isSingle start (escapeDigits e) {} (escaped :: text) after rest
            | .error problem => .error (.inToken start after.mark problem)
      else readQuoted isSingle start 0 {} (c :: text) next cs

inductive Chomp where
  | strip | clip | keep
  deriving DecidableEq, Repr

structure BlockHeader where
  isLiteral : Bool
  chomp : Chomp := .clip
  increment : Nat := 0

def chompOf? (c : Char) : Option Chomp :=
  if c = '+' then some .keep else if c = '-' then some .strip else none

def BlockHeader.readChomp (h : BlockHeader) (k : Cursor) : BlockHeader × Cursor :=
  match k.rest.head?.bind chompOf? with
  | some chomp => ({ h with chomp }, k.skip)
  | none => (h, k)

def BlockHeader.readIncrement (start : Mark) (h : BlockHeader) (k : Cursor) :
    Except Fault (BlockHeader × Cursor) :=
  match k.rest with
  | c :: _ =>
    if c = '0' then .error (.inToken start k.mark .zeroIndent)
    else if '1' ≤ c && c ≤ '9' then .ok ({ h with increment := c.toNat - 48 }, k.skip)
    else .ok (h, k)
  | [] => .ok (h, k)

def BlockHeader.read (isLiteral : Bool) (start : Mark) (k : Cursor) :
    Except Fault (BlockHeader × Cursor) := do
  let h : BlockHeader := { isLiteral }
  if (k.rest.head?.bind chompOf?).isSome then
    let (h, k) := h.readChomp k
    h.readIncrement start k
  else
    let (h, next) ← h.readIncrement start k
    return if h.increment = 0 then (h, k) else h.readChomp next

structure BlockText where
  header : BlockHeader
  start : Mark
  parent : Int
  indent : Option Nat
  deepest : Nat := 0
  text : List Char := []
  lead : Option Char := none
  breaks : List Char := []
  isDeep : Bool := false
  stop : Mark

namespace BlockText

def isBefore (b : BlockText) (column : Nat) : Bool := b.indent.all (column < ·)

/-- The column of the lines: that of the first one with text, or of a deeper empty one before. -/
def settle (b : BlockText) (column : Nat) : BlockText :=
  match b.indent with
  | some _ => b
  | none => { b with indent := some (max (max b.deepest column) (max 1 (b.parent + 1).toNat)) }

/-- Begins a line with the character `c`. In a folded scalar the line break before it becomes a
blank, or is left out before empty lines, unless one of the two lines begins with a blank. -/
def beginLine (b : BlockText) (c : Char) : BlockText :=
  let folds := !b.header.isLiteral && !b.isDeep && !isBlank c && b.lead == some '\n'
  let lead := if folds then (if b.breaks.isEmpty then [' '] else []) else b.lead.toList
  { b with text := b.breaks ++ (lead ++ b.text), lead := none, breaks := [], isDeep := isBlank c }

def finish (b : BlockText) : List Char :=
  match b.header.chomp with
  | .strip => b.text.reverse
  | .clip => (b.lead.toList ++ b.text).reverse
  | .keep => (b.breaks ++ (b.lead.toList ++ b.text)).reverse

end BlockText

/-- Reads the lines of a block scalar. `inLine` tells whether text of a line has been met. The
scalar ends before the first line that is indented less. -/
def readBlock (b : BlockText) (inLine : Bool) (k : Cursor) : List Char → Except Fault Reading
  | [] => .ok ⟨b.finish, b.stop, { k with rest := [] }, false⟩
  | '\r' :: '\n' :: cs =>
    let next := k.pastBreak 2 cs
    if inLine then readBlock { b with lead := some '\n', stop := next.mark } false next cs
    else readBlock { b with deepest := max b.deepest k.column, breaks := '\n' :: b.breaks, stop := next.mark }
      false next cs
  | c :: cs =>
    if isBreak c then
      let next := k.pastBreak 1 cs
      if inLine then readBlock { b with lead := some (breakChar c), stop := next.mark } false next cs
      else
        readBlock { b with deepest := max b.deepest k.column, breaks := breakChar c :: b.breaks,
                           stop := next.mark } false next cs
    else if inLine then readBlock { b with text := c :: b.text } true (k.past c cs) cs
    else if b.isBefore k.column && c == ' ' then readBlock b false (k.past c cs) cs
    else if b.isBefore k.column && c == '\t' then .error (.inToken b.start k.mark .tabInBlock)
    else
      let b := b.settle k.column
      if b.indent = some k.column then
        let b := b.beginLine c
        readBlock { b with text := c :: b.text } true (k.past c cs) cs
      else .ok ⟨b.finish, b.stop, { k with rest := c :: cs }, false⟩

def readBlockScalar (isLiteral : Bool) (parent : Int) (start : Mark) (k : Cursor) : Except Fault Reading := do
  let (header, k) ← BlockHeader.read isLiteral start k
  let k := k.skipBlanks
  let k := if k.rest.head? == some '#' then k.skipLine else k
  if !endsLine k.rest then throw (.inToken start k.mark .restOfLine)
  let k := k.skipBreak
  let indent := if header.increment = 0 then none else some ((max parent 0).toNat + header.increment)
  readBlock { header, start, parent, indent, stop := k.mark } false k k.rest

end HostScript.Yaml
