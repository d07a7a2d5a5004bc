import HostScript.Text.Quoted

set_option autoImplicit false

namespace HostScript

inductive TokenKind where
  | invalid | error | eof
  | identifier | number | string | char | comment | operator
  | semicolon | comma | dot | colon
  | parenOpen | parenClose | bracketOpen | bracketClose | braceOpen | braceClose
  deriving DecidableEq, Repr, Inhabited

namespace TokenKind

def all : List TokenKind :=
  [.invalid, .error, .eof, .identifier, .number, .string, .char, .comment, .operator,
    .semicolon, .comma, .dot, .colon,
    .parenOpen, .parenClose, .bracketOpen, .bracketClose, .braceOpen, .braceClose]

def ofNumber (n : Nat) : TokenKind := all.getD n .invalid

def name : TokenKind → String
  | .invalid => "invalid"
  | .error => "error"
  | .eof => "EOF"
  | .identifier => "identifier"
  | .number => "number"
  | .string => "string"
  | .char => "char"
  | .comment => "comment"
  | .operator => "operator"
  | .semicolon => ";"
  | .comma => ","
  | .dot => "."
  | .colon => ":"
  | .parenOpen => "("
  | .parenClose => ")"
  | .bracketOpen => "["
  | .bracketClose => "]"
  | .braceOpen => "\x7b"
  | .braceClose => "\x7d"

def isOpen : TokenKind → Bool
  | .parenOpen | .bracketOpen | .braceOpen => true
  | _ => false

def isClose : TokenKind → Bool
  | .parenClose | .bracketClose | .braceClose => true
  | _ => false

def closer : TokenKind → TokenKind
  | .parenOpen => .parenClose
  | .bracketOpen => .bracketClose
  | .braceOpen => .braceClose
  | _ => .invalid

end TokenKind

structure Span where
  start : Int
  stop : Int
  deriving DecidableEq, Repr, Inhabited

/-- A span inside a named text. A span that begins before the text shows the name only. -/
def Span.describe (s : Span) (file : String) : String :=
  if s.start < 0 then file
  else file ++ "[" ++ toString s.start ++ ":" ++ toString s.stop ++ "]"

/-- The text is the source text, or the message of a lexical error. -/
structure Token where
  kind : TokenKind
  text : Bytes
  span : Span
  deriving DecidableEq, Repr, Inhabited

def Token.describe (t : Token) : String := t.kind.name ++ " " ++ Quoted.text t.text

end HostScript
