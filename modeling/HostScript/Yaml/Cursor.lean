import HostScript.Yaml.Source

set_option autoImplicit false

namespace HostScript.Yaml

def isBlank (c : Char) : Bool := c == ' ' || c == '\t'

def isBreak (c : Char) : Bool :=
  c == '\n' || c == '\r' || c == '\u0085' || c == '\u2028' || c == '\u2029'

def isNameChar (c : Char) : Bool :=
  ('0' ≤ c && c ≤ '9') || ('A' ≤ c && c ≤ 'Z') || ('a' ≤ c && c ≤ 'z') || c == '_' || c == '-'

def isFlowMark (c : Char) : Bool := [',', '[', ']', '\x7b', '\x7d'].contains c

def endsLine : List Char → Bool
  | [] => true
  | c :: _ => isBreak c

def endsWord : List Char → Bool
  | [] => true
  | c :: _ => isBlank c || isBreak c

def breakChar (c : Char) : Char := if c == '\u2028' || c == '\u2029' then c else '\n'

def isDocumentMark : List Char → Bool
  | a :: b :: c :: rest =>
    ((a == '-' && b == '-' && c == '-') || (a == '.' && b == '.' && c == '.')) && endsWord rest
  | _ => false

structure Cursor where
  rest : List Char
  mark : Mark := {}
  isFresh : Bool := false

namespace Cursor

def column (k : Cursor) : Nat := k.mark.column

def past (k : Cursor) (c : Char) (rest : List Char) : Cursor :=
  ⟨rest, k.mark.next, k.isFresh && isBlank c⟩

def pastBreak (k : Cursor) (size : Nat) (rest : List Char) : Cursor :=
  ⟨rest, ⟨k.mark.index + size, k.mark.line + 1, 0⟩, true⟩

def skip (k : Cursor) : Cursor :=
  match k.rest with
  | [] => k
  | c :: cs => k.past c cs

def skipBreak (k : Cursor) : Cursor :=
  match k.rest with
  | '\r' :: '\n' :: cs => k.pastBreak 2 cs
  | c :: cs => if isBreak c then k.pastBreak 1 cs else k
  | [] => k

def skipWhile (p : Char → Bool) (k : Cursor) : List Char → Cursor
  | [] => { k with rest := [] }
  | c :: cs => if p c then skipWhile p (k.past c cs) cs else { k with rest := c :: cs }

def skipBlanks (k : Cursor) : Cursor := k.skipWhile isBlank k.rest

def skipLine (k : Cursor) : Cursor := k.skipWhile (fun c => !isBreak c) k.rest

def skipComment (k : Cursor) : Cursor :=
  let blanks := k.rest.takeWhile isBlank
  if !k.isFresh && blanks.length < Source.portion && (k.rest.drop blanks.length).head? == some '#' then
    k.skipLine
  else k

/-- Whether the line break that stands here is followed by another comment, with only blanks and
line breaks between. -/
def commentFollows : List Char → Bool
  | [] => false
  | c :: cs =>
    (c == '\n' || c == '\r')
      && (((cs.take (Source.portion - 1)).dropWhile fun c => isBlank c || c == '\n' || c == '\r').head?
          == some '#')

inductive GapPart where
  | space | comment
  | between
  deriving DecidableEq

/-- Passes over blanks, line breaks and comments. A tab counts as a blank in a flow collection and
where no key can begin; outside flow collections a key can begin after a line break. Returns
whether a key can begin. -/
def skipGap (inFlow : Bool) (canBeKey : Bool) (part : GapPart) (k : Cursor) :
    List Char → Cursor × Bool
  | [] => ({ k with rest := [] }, canBeKey)
  | '\r' :: '\n' :: cs =>
    if part = .comment && commentFollows ('\r' :: '\n' :: cs) then
      skipGap inFlow canBeKey .between (k.pastBreak 2 cs) cs
    else skipGap inFlow (if part = .between then canBeKey else canBeKey || !inFlow)
      (if part = .between then .between else .space) (k.pastBreak 2 cs) cs
  | c :: cs =>
    if isBreak c then
      if part = .between || (part = .comment && commentFollows (c :: cs)) then
        skipGap inFlow canBeKey .between (k.pastBreak 1 cs) cs
      else skipGap inFlow (canBeKey || !inFlow) .space (k.pastBreak 1 cs) cs
    else
      match part with
      | .comment => skipGap inFlow canBeKey .comment (k.past c cs) cs
      | .between => skipGap inFlow canBeKey (if c == '#' then .comment else .between) (k.past c cs) cs
      | .space =>
        if c == ' ' || (c == '\t' && (inFlow || !canBeKey)) || (c == '\uFEFF' && k.column = 0) then
          skipGap inFlow canBeKey .space (k.past c cs) cs
        else if c == '#' then skipGap inFlow canBeKey .comment (k.past c cs) cs
        else ({ k with rest := c :: cs }, canBeKey)

end Cursor

end HostScript.Yaml
