import HostScript.Block
import HostScript.Text.Rune
import HostScript.Token.Lexer

set_option autoImplicit false

namespace HostScript

inductive LineRole where
  | header (kind : BlockKind) (fields : Bytes)
  | terminator
  | other
  deriving DecidableEq, Repr

def isTerminator (text : Bytes) : Bool :=
  match text.after? (utf8 terminatorKeyword) with
  | some rest => (rest.head?).all fun r => !isWord r.char
  | none => false

def lineRole (line : Bytes) : LineRole :=
  let text := line.dropIndent
  match text.after? (utf8 BlockKind.insertion.keyword) with
  | some fields => .header .insertion fields
  | none =>
    match text.after? (utf8 BlockKind.script.keyword) with
    | some fields => .header .script fields
    | none => if isTerminator text then .terminator else .other

structure OpenBlock where
  line : Nat
  kind : BlockKind
  fields : Bytes
  deriving Repr

namespace Hook

def keyword : String := "//ADDHOOK"

/-- A well-formed marker is the keyword, a number and a name, joined by hyphens. A number
beyond the limit counts as the limit. -/
def parseMarker? (text : Bytes) : Option (Nat × Bytes) := do
  let rest ← text.after? (utf8 (keyword ++ "-"))
  let digits : Bytes := rest.takeWhile Bytes.isDigit
  let name ← Bytes.after? (rest.drop digits.length) (utf8 "-")
  if digits.isEmpty || name.isEmpty || !name.runes.all (fun r => isWord r.char) then none
  else some (min digits.digitsValue Bytes.numberLimit, name)

def ofComment (doc : Document) (token : Token) : Hook :=
  let text := token.text.dropRightWhile fun b =>
    b == Bytes.blank || b == Bytes.tab || b == Bytes.carriageReturn
  { marker := parseMarker? text, text
    range := doc.range token.span.start (token.span.start + text.length) }

end Hook

namespace Include

def targetOf (arg : Token) : Option Nat :=
  if arg.kind = .number then arg.text.number? else none

def ofTokens (doc : Document) (keyword arg : Token) : Include :=
  let keywordRange := doc.range keyword.span.start keyword.span.stop
  { target := targetOf arg
    arg := if arg.kind = .eof then [] else arg.text
    range :=
      if (targetOf arg).isSome then doc.range arg.span.start arg.span.stop else keywordRange
    keywordRange
    offset := keyword.span.start }

end Include

namespace Block

/-- Includes in order; the argument is the next token that is no comment. -/
def includesOf (doc : Document) : List Token → List Include
  | [] => []
  | token :: rest =>
    if token.kind = .identifier ∧ token.text = utf8 includeKeyword then
      match rest.find? (·.kind != .comment) with
      | some arg => Include.ofTokens doc token arg :: includesOf doc rest
      | none => includesOf doc rest
    else includesOf doc rest

def hooksOf (doc : Document) (tokens : List Token) : List Hook :=
  (tokens.filter fun t => t.kind == .comment && t.text.startsWith (utf8 Hook.keyword)).map
    (Hook.ofComment doc)

def bodyTokens (doc : Document) (bodyStart bodyEnd : Nat) : List Token :=
  if bodyStart < bodyEnd then Lexer.tokens doc.text bodyStart bodyEnd else []

def close (doc : Document) (h : OpenBlock) (bodyEnd stop : Nat) (terminated : Bool) : Block :=
  let start := doc.lineStart h.line
  let headerEnd := doc.lineEnd h.line
  let bodyStart := if h.line + 1 < doc.lineCount then doc.lineStart (h.line + 1) else headerEnd
  let fields := (h.fields.splitOn 44).map Bytes.trim
  let numberText := fields.headD []
  let tokens := bodyTokens doc bodyStart bodyEnd
  { kind := h.kind
    number := numberText.number?
    numberText
    name := fields.getD 1 []
    fields := fields.drop 2
    uri := doc.uri
    start, headerEnd, bodyStart, bodyEnd, stop
    range := doc.range start stop
    headerRange := doc.range start headerEnd
    terminated
    includes := includesOf doc tokens
    hooks := hooksOf doc tokens }

/-- A block that runs into the next header or the end of the text. -/
def cut (doc : Document) (h : OpenBlock) (stop : Nat) : Block := close doc h stop stop false

def scanLines (doc : Document) : List Nat → Option OpenBlock → List Block
  | [], none => []
  | [], some h => [cut doc h doc.length]
  | n :: ns, current =>
    match lineRole (doc.line n), current with
    | .header kind fields, none => scanLines doc ns (some ⟨n, kind, fields⟩)
    | .header kind fields, some h =>
      cut doc h (doc.lineStart n) :: scanLines doc ns (some ⟨n, kind, fields⟩)
    | .terminator, some h =>
      close doc h (doc.lineStart n) (doc.lineEnd n) true :: scanLines doc ns none
    | _, _ => scanLines doc ns current

def scan (doc : Document) : List Block := scanLines doc (List.range doc.lineCount) none

end Block

end HostScript
