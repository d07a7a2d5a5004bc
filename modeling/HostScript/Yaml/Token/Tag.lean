import HostScript.Text.Rune
import HostScript.Yaml.Token.Text

set_option autoImplicit false

namespace HostScript.Yaml

def readName (p : Char → Bool) (k : Cursor) : String × Cursor :=
  (String.ofList (k.rest.takeWhile p), k.skipWhile p k.rest)

def readAnchor (start : Mark) (k : Cursor) : Except Fault (String × Cursor) :=
  let (name, next) := readName isNameChar k
  if name.isEmpty || !(endsWord next.rest
      || next.rest.head?.any (['?', ':', ',', ']', '\x7d', '%', '@', '\x60'].contains ·)) then
    .error (.inToken start next.mark .badAnchor)
  else .ok (name, next)

def tagMarks : List Char :=
  [';', '/', '?', ':', '@', '&', '=', '+', '$', ',', '.', '!', '~', '*', '\'', '(', ')', '[', ']']

def escapedByte? (cs : List Char) : Option UInt8 :=
  match cs with
  | '%' :: rest => (hexValue? 2 rest).map fun n => UInt8.ofNat n
  | _ => none

def readTagEscape (start : Mark) : Nat → Cursor → Except Fault (Bytes × Cursor)
  | 0, k => .ok ([], k)
  | missing + 1, k =>
    match escapedByte? k.rest with
    | none => .error (.inToken start k.mark .badTagEscape)
    | some b => do
      if b < 0x80 || 0xC0 ≤ b then throw (.inToken start k.mark .badTagTail)
      let (bs, next) ← readTagEscape start missing k.skip.skip.skip
      return (b :: bs, next)

def readTagBytes (start : Mark) : Nat → Cursor → Except Fault (Bytes × Cursor)
  | 0, k => .ok ([], k)
  | fuel + 1, k =>
    match k.rest with
    | [] => .ok ([], k)
    | c :: _ =>
      if c == '%' then
        match escapedByte? k.rest with
        | none => .error (.inToken start k.mark .badTagEscape)
        | some b => do
          if octetCount b = 0 then throw (.inToken start k.mark .badTagLead)
          let (tail, next) ← readTagEscape start (octetCount b - 1) k.skip.skip.skip
          let (bs, last) ← readTagBytes start fuel next
          return (b :: tail ++ bs, last)
      else if isNameChar c || tagMarks.contains c then do
        let (bs, last) ← readTagBytes start fuel k.skip
        return (utf8 (String.singleton c) ++ bs, last)
      else .ok ([], k)

def readTagText (head : String) (start : Mark) (k : Cursor) : Except Fault (String × Cursor) := do
  let (bs, next) ← readTagBytes start (k.rest.length + 1) k
  if head.isEmpty && bs.isEmpty then throw (.inToken start next.mark .missingTagText)
  return (String.ofList (head.toList.drop 1) ++ bs.toText, next)

/-- Reads an exclamation mark with the name and the mark that may follow it. In a directive the
second mark must not be missing after a name. -/
def readHandle (isDirective : Bool) (start : Mark) (k : Cursor) : Except Fault (String × Cursor) :=
  if k.rest.head? != some '!' then .error (.inToken start k.mark .missingTagMark)
  else
    let (name, next) := readName isNameChar k.skip
    if next.rest.head? == some '!' then .ok ("!" ++ name ++ "!", next.skip)
    else if isDirective && !name.isEmpty then .error (.inToken start next.mark .missingTagMark)
    else .ok ("!" ++ name, next)

/-- Reads a tag: `!<text>`, `!handle!text`, `!text`, or a mark alone. -/
def readTag (k : Cursor) : Except Fault (TokenKind × Cursor) := do
  let start := k.mark
  let (handle, suffix, next) ← match k.rest with
    | '!' :: '<' :: _ => do
      let (text, next) ← readTagText "" start k.skip.skip
      if next.rest.head? != some '>' then throw (Fault.inToken start next.mark .unclosedTag)
      pure ("", text, next.skip)
    | _ => do
      let (handle, next) ← readHandle false start k
      if 1 < handle.length && handle.endsWith "!" then
        let (text, next) ← readTagText "" start next
        pure (handle, text, next)
      else
        let (text, next) ← readTagText handle start next
        pure (if text.isEmpty then ("", "!", next) else ("!", text, next))
  if !endsWord next.rest then throw (.inToken start next.mark .restOfTag)
  return (.tag handle suffix, next)

def readVersionPart (start : Mark) (k : Cursor) : Except Fault (Nat × Cursor) :=
  let (digits, next) := readName (fun c => '0' ≤ c && c ≤ '9') k
  if digits.isEmpty then .error (.inToken start next.mark .missingVersion)
  else if 2 < digits.length then .error (.inToken start next.mark .longVersion)
  else .ok (digits.foldl (fun n c => 10 * n + (c.toNat - 48)) 0, next)

def readVersion (start : Mark) (k : Cursor) : Except Fault (TokenKind × Cursor) := do
  let (major, next) ← readVersionPart start k.skipBlanks
  if next.rest.head? != some '.' then throw (.inToken start next.mark .badVersion)
  let (minor, next) ← readVersionPart start next.skip
  return (.versionDirective major minor, next)

def readTagDirective (start : Mark) (k : Cursor) : Except Fault (TokenKind × Cursor) := do
  let (handle, next) ← readHandle true start k.skipBlanks
  if !next.rest.head?.any isBlank then throw (.inToken start next.mark .missingTagBlank)
  let (root, next) ← readTagText "" start next.skipBlanks
  if !endsWord next.rest then throw (.inToken start next.mark .restOfTagDirective)
  return (.tagDirective handle root, next)

def readDirective (k : Cursor) : Except Fault (Token × Cursor) := do
  let start := k.mark
  let (name, next) := readName isNameChar k.skip
  if name.isEmpty then throw (.inToken start next.mark .namelessDirective)
  if !endsWord next.rest then throw (.inToken start next.mark .badDirectiveName)
  let (kind, next) ←
    if name == "YAML" then readVersion start next
    else if name == "TAG" then readTagDirective start next
    else throw (.inToken start next.mark .unknownDirective)
  let stop := next.mark
  let next := next.skipBlanks
  let next := if next.rest.head? == some '#' then next.skipLine else next
  if !endsLine next.rest then throw (.inToken start next.mark .restOfLine)
  return (⟨kind, start, stop⟩, next.skipBreak)

end HostScript.Yaml
