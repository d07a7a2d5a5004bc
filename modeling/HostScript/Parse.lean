import HostScript.Block.Scan
import HostScript.Diagnostic

/-!
The structure of a block: its calls of parser functions, and the nesting of its delimiters.
A delimiter that does not fit is reported, and reading goes on with the most likely nesting.
-/

set_option autoImplicit false

namespace HostScript

structure Call where
  space : Bytes
  name : Bytes
  nameRange : Range
  openAt : Int
  closeAt : Option Int := none
  args : Nat := 0
  commas : List Int := []
  deriving DecidableEq, Repr

namespace Call

def isClosed (c : Call) : Bool := c.closeAt.isSome

/-- Whether an offset lies between the parentheses. A call that is never closed has no end. -/
def contains (c : Call) (offset : Int) : Bool :=
  c.openAt < offset && c.closeAt.all fun stop => offset ≤ stop

def activeArg (c : Call) (offset : Int) : Nat := (c.commas.filter (· < offset)).length

def close (c : Call) (offset : Int) (hasContent : Bool) : Call :=
  { c with closeAt := some offset, args := if hasContent then c.commas.length + 1 else c.args }

end Call

structure Stats where
  lines : Nat := 0
  tokens : Nat := 0
  comments : Nat := 0
  calls : Nat := 0
  includes : Nat := 0
  hooks : Nat := 0
  deriving DecidableEq, Repr, Inhabited

def Stats.add (a b : Stats) : Stats :=
  ⟨a.lines + b.lines, a.tokens + b.tokens, a.comments + b.comments, a.calls + b.calls,
    a.includes + b.includes, a.hooks + b.hooks⟩

structure ParseResult where
  block : Block
  diagnostics : List Diagnostic
  calls : List Call
  stats : Stats

namespace Parse

structure Opener where
  kind : TokenKind
  start : Int
  line : Nat
  call : Option Nat
  content : Bool := false
  deriving DecidableEq, Repr

structure Walk where
  stack : List Opener := []
  calls : List Call := []
  recent : List Token := []
  diagnostics : List Diagnostic := []

def unterminatedStringCode : String := "unterminated-string"
def unterminatedCommentCode : String := "unterminated-comment"
def unclosedCode : String := "unclosed-delimiter"
def mismatchedCode : String := "mismatched-delimiter"
def unexpectedCode : String := "unexpected-delimiter"
def invalidCharacterCode : String := "invalid-character"

def finding (doc : Document) (start stop : Int) (severity : Severity) (code : String)
    (message : Bytes) : Diagnostic :=
  { uri := doc.uri, range := doc.range start stop, severity := some severity, message, code }

def quoteKind (kind : TokenKind) : String := Quoted.string kind.name

def unclosed (doc : Document) (stop : Int) (o : Opener) : Diagnostic :=
  finding doc o.start stop .error unclosedCode (utf8 ("unclosed " ++ quoteKind o.kind))

namespace Walk

def report (w : Walk) (ds : List Diagnostic) : Walk := { w with diagnostics := w.diagnostics ++ ds }

def markContent (w : Walk) : Walk :=
  match w.stack with
  | [] => w
  | top :: rest => { w with stack := { top with content := true } :: rest }

/-- A broken string literal most likely swallowed the ends of groups opened on its line; these
are dropped. Braces open groups that go on over later lines. -/
def lexicalError (doc : Document) (w : Walk) (token : Token) : Walk :=
  let at_ (code : String) :=
    [finding doc token.span.start token.span.stop .error code token.text]
  if token.text = utf8 Lexer.unterminatedComment then w.report (at_ unterminatedCommentCode)
  else
    let line := doc.lineAt token.span.start
    { w.report (at_ unterminatedStringCode) with
      stack := w.stack.dropWhile fun o => o.line == line && o.kind != .braceOpen }

/-- The call that an opening parenthesis begins, if the tokens before it are a namespace, a dot
and a name that touch one another. -/
def callAt? (doc : Document) (w : Walk) (token : Token) : Option Call :=
  match w.recent with
  | name :: dot :: space :: _ =>
    if space.kind = .identifier ∧ dot.kind = .dot ∧ name.kind = .identifier
        ∧ space.span.stop = dot.span.start ∧ dot.span.stop = name.span.start then
      some { space := space.text, name := name.text, openAt := token.span.start
             nameRange := doc.range name.span.start name.span.stop }
    else none
  | _ => none

def openGroup (doc : Document) (w : Walk) (token : Token) : Walk :=
  let call := if token.kind = .parenOpen then callAt? doc w token else none
  let opener : Opener :=
    { kind := token.kind, start := token.span.start, line := doc.lineAt token.span.start
      call := call.map fun _ => w.calls.length }
  { w with stack := opener :: w.stack, calls := w.calls ++ call.toList }

def pop (w : Walk) (token : Token) : Walk :=
  match w.stack with
  | [] => w
  | top :: rest =>
    { w with
      stack := rest
      calls := match top.call with
        | some i => w.calls.modify i (·.close token.span.start top.content)
        | none => w.calls }

def fits (token : Token) (o : Opener) : Bool := o.kind.closer == token.kind

/-- A closing delimiter ends the innermost group that it fits; groups inside that one are
unclosed. One that fits no group is reported and left out. -/
def closeGroup (doc : Document) (w : Walk) (token : Token) : Walk :=
  let complain (code message : String) :=
    w.report [finding doc token.span.start token.span.stop .error code (utf8 message)]
  match w.stack with
  | [] => complain unexpectedCode
      ("unexpected " ++ quoteKind token.kind ++ ": no matching opening delimiter")
  | top :: _ =>
    if w.stack.any (fits token) then
      let skipped := w.stack.takeWhile fun o => !fits token o
      pop { w.report (skipped.map (unclosed doc token.span.start)) with
            stack := w.stack.drop skipped.length } token
    else complain mismatchedCode
      ("mismatched " ++ quoteKind token.kind ++ ": expected " ++ quoteKind top.kind.closer)

/-- A comma belongs to the innermost group, and counts if that is a call. -/
def comma (w : Walk) (token : Token) : Walk :=
  match w.stack with
  | top :: _ =>
    match top.call with
    | some i =>
      { w with calls := w.calls.modify i fun c => { c with commas := c.commas ++ [token.span.start] } }
    | none => w
  | [] => w

def dispatch (doc : Document) (w : Walk) (token : Token) : Walk :=
  if token.kind = .error then lexicalError doc w token
  else if token.kind = .invalid then
    w.report [finding doc token.span.start token.span.stop .warning invalidCharacterCode token.text]
  else if token.kind.isOpen then openGroup doc w token
  else if token.kind.isClose then closeGroup doc w token
  else if token.kind = .comma then comma w token
  else w

def step (doc : Document) (w : Walk) (token : Token) : Walk :=
  let w := if token.kind.isClose then w else w.markContent
  let w := dispatch doc w token
  { w with recent := (token :: w.recent).take 3 }

def finish (doc : Document) (stop : Nat) (w : Walk) : Walk :=
  { w.report (w.stack.map (unclosed doc stop)) with stack := [] }

end Walk

def codeTokens (tokens : List Token) : List Token :=
  tokens.filter fun t => t.kind != .comment && t.kind != .eof

def walk (doc : Document) (block : Block) (tokens : List Token) : Walk :=
  ((codeTokens tokens).foldl (Walk.step doc) {}).finish doc block.stop

def bodyTokens (doc : Document) (block : Block) : List Token :=
  Lexer.tokens doc.text block.bodyStart block.bodyEnd

def structureOf (doc : Document) (block : Block) : ParseResult :=
  let tokens := bodyTokens doc block
  let w := walk doc block tokens
  { block, diagnostics := w.diagnostics, calls := w.calls
    stats :=
      { lines := doc.lineAt block.stop - doc.lineAt block.start + 1
        tokens := (tokens.filter (·.kind != .eof)).length
        comments := (tokens.filter (·.kind == .comment)).length
        calls := w.calls.length
        includes := block.includes.length
        hooks := block.hooks.length } }

end Parse

end HostScript
