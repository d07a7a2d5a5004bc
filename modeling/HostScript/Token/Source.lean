import HostScript.Token.Lexer

set_option autoImplicit false

namespace HostScript

structure TokenSource where
  scanner : Scanner
  token : Option Token
  peeked : Option Token
  comments : Nat
  count : Nat

namespace TokenSource

def ofSpan (text : Bytes) (start stop : Int) : TokenSource :=
  ⟨Scanner.ofSpan text start stop, none, none, 0, 0⟩

/-- The first token from the scanner that is no comment, the scanner after it, and the
number of comments before it. -/
def nextCode (s : Scanner) : Token × Scanner × Nat :=
  if (Lexer.readToken s).1.kind = .comment then
    let (token, rest, comments) := nextCode (Lexer.readToken s).2
    (token, rest, comments + 1)
  else ((Lexer.readToken s).1, (Lexer.readToken s).2, 0)
termination_by s.rest.length
decreasing_by exact Lexer.readToken_rest_lt s (by simp_all)

def peek (src : TokenSource) : Token × TokenSource :=
  match src.peeked with
  | some token => (token, src)
  | none =>
    let (token, scanner, comments) := nextCode src.scanner
    let read := if token.kind = .eof then comments else comments + 1
    (token, { src with
      scanner, peeked := some token, comments := src.comments + comments,
      count := src.count + read })

def isEof (src : TokenSource) : Bool × TokenSource :=
  let (token, src) := src.peek
  (token.kind == .eof, src)

/-- Makes the next code token current. At the end the end token becomes current and the
answer is no. -/
def scan (src : TokenSource) : Bool × TokenSource :=
  let (token, src) := src.peek
  if token.kind = .eof then (false, { src with token := some token })
  else (true, { src with token := some token, peeked := none })

end TokenSource

end HostScript
