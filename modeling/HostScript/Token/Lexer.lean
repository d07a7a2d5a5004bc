import HostScript.Token.Scanner

/-!
The lexical grammar. Each token class says how many runes past its first one belong to the
token, so a token is a first rune and a count, and lexing always moves forward.
-/

set_option autoImplicit false

namespace HostScript

namespace Lexer

/-- Kind of a token whose first rune is known, with the number of further runes it takes.
A lexical error has a message in place of its text. -/
structure Lexeme where
  kind : TokenKind
  more : Nat
  message : Option String := none
  deriving DecidableEq, Repr

def single? : Char → Option TokenKind
  | '(' => some .parenOpen
  | ')' => some .parenClose
  | '[' => some .bracketOpen
  | ']' => some .bracketClose
  | '\x7b' => some .braceOpen
  | '\x7d' => some .braceClose
  | ';' => some .semicolon
  | ',' => some .comma
  | '.' => some .dot
  | ':' => some .colon
  | _ => none

def operators : List Char := "!#$%&*+-/<=>?@\\^\x60|~".toList

def unterminatedComment : String := "unterminated block comment"
def unterminatedString : String := "unterminated string literal"
def unterminatedChar : String := "unterminated character literal"

def commentLength? : List Rune → Option Nat
  | [] => none
  | r :: rs =>
    match r.char, rs with
    | '*', s :: _ => if s.char = '/' then some 2 else (commentLength? rs).map (· + 1)
    | _, _ => (commentLength? rs).map (· + 1)

/-- A line comment ends before the newline; a block comment without a closing mark is an
error that reaches the end of the span. -/
def slash (rest : List Rune) : Lexeme :=
  match rest with
  | r :: rs =>
    if r.char = '/' then ⟨.comment, 1 + Scanner.run (· != '\n') rs, none⟩
    else if r.char = '*' then
      match commentLength? rs with
      | some n => ⟨.comment, 1 + n, none⟩
      | none => ⟨.error, 1 + rs.length, some unterminatedComment⟩
    else ⟨.operator, 0, none⟩
  | [] => ⟨.operator, 0, none⟩

/-- How many runes a quoted literal takes past its opening quote, and whether a closing quote
ends it on its own line. A backslash protects the next character, but not a newline. -/
def quotedLength (quote : Char) : List Rune → Nat × Bool
  | [] => (0, false)
  | r :: rs =>
    if r.char = '\n' then (0, false)
    else if r.char = quote then (1, true)
    else if r.char = '\\' then
      match rs with
      | s :: rest =>
        if s.char = '\n' then (1, false)
        else
          let (n, closed) := quotedLength quote rest
          (n + 2, closed)
      | [] => (1, false)
    else
      let (n, closed) := quotedLength quote rs
      (n + 1, closed)

def quoted (quote : Char) (kind : TokenKind) (message : String) (rest : List Rune) : Lexeme :=
  let (n, closed) := quotedLength quote rest
  if closed then ⟨kind, n, none⟩ else ⟨.error, n, some message⟩

def number (rest : List Rune) : Lexeme :=
  let n := Scanner.run isDigit rest
  match rest.drop n with
  | point :: digit :: rs =>
    if isDigit digit.char && point.char == '.' then
      ⟨.number, n + 2 + Scanner.run isDigit rs, none⟩
    else ⟨.number, n, none⟩
  | _ => ⟨.number, n, none⟩

def lexeme (c : Char) (rest : List Rune) : Lexeme :=
  match single? c with
  | some kind => ⟨kind, 0, none⟩
  | none =>
    if c = '/' then slash rest
    else if c = '"' then quoted '"' .string unterminatedString rest
    else if c = '\'' then quoted '\'' .char unterminatedChar rest
    else if isDigit c then number rest
    else if isWordStart c then ⟨.identifier, Scanner.run isWord rest, none⟩
    else if operators.contains c then ⟨.operator, 0, none⟩
    else ⟨.invalid, 0, some ("unexpected character " ++ Quoted.char c)⟩

def skipSpace (s : Scanner) : Scanner :=
  let (n, t) := s.acceptRun isSpace
  if n = 0 then s else t.ignore

def emit (s : Scanner) (x : Lexeme) : Token × Scanner :=
  let (token, next) := (s.advance (x.more + 1)).emit x.kind
  match x.message with
  | some message => (⟨token.kind, utf8 message, token.span⟩, next)
  | none => (token, next)

/-- The next token. At the end of the span this is an empty end token, however often it is
asked for. -/
def readToken (s : Scanner) : Token × Scanner :=
  let s := skipSpace s
  match s.rest with
  | [] => (⟨.eof, [], s.span⟩, s.ignore)
  | r :: rest => emit s (lexeme r.char rest)

theorem emit_rest (s : Scanner) (x : Lexeme) : (emit s x).2.rest = s.rest.drop (x.more + 1) := by
  unfold emit
  cases x.message <;> rfl

theorem skipSpace_rest_le (s : Scanner) : (skipSpace s).rest.length ≤ s.rest.length := by
  simp only [skipSpace, Scanner.acceptRun]
  by_cases h : Scanner.run isSpace s.rest = 0
  · simp [h]
  · simp [h, Scanner.ignore, Scanner.advance]

theorem readToken_rest_lt (s : Scanner) (h : (readToken s).1.kind ≠ .eof) :
    (readToken s).2.rest.length < s.rest.length := by
  have hle := skipSpace_rest_le s
  unfold readToken at h ⊢
  cases hr : (skipSpace s).rest with
  | nil => simp [hr] at h
  | cons r rest =>
    simp only [hr, emit_rest] at hle ⊢
    simp only [List.drop_succ_cons, List.length_cons, List.length_drop] at hle ⊢
    omega

def tokensFrom (s : Scanner) : List Token :=
  if (readToken s).1.kind = .eof then [(readToken s).1]
  else (readToken s).1 :: tokensFrom (readToken s).2
termination_by s.rest.length
decreasing_by exact readToken_rest_lt s (by assumption)

def tokens (text : Bytes) (start stop : Int) : List Token :=
  tokensFrom (Scanner.ofSpan text start stop)

end Lexer

end HostScript
