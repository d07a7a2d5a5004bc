import HostScript.Text.Rune
import HostScript.Token

/-!
A scanner walks over the runes of a span of text. The runes scanned since the last token
are pending; emitting a token or ignoring them starts the next token after them.
-/

set_option autoImplicit false

namespace HostScript

structure Scanner where
  start : Int
  pending : List Rune
  rest : List Rune
  current : Option Rune

namespace Scanner

/-- A scanner over the bytes at `start ≤ i < stop`. The end is moved back to the end of the
text, the start into the text, and a start after the end becomes the end. -/
def ofSpan (text : Bytes) (start stop : Int) : Scanner :=
  let stop := min stop text.length
  let start := min (max start 0) stop
  ⟨start, [], (text.slice start.toNat stop.toNat).runes, none⟩

def ofText (text : Bytes) : Scanner := ofSpan text 0 text.length

def next (s : Scanner) : Int := s.start + Rune.sizes s.pending

def text (s : Scanner) : Bytes := Rune.join s.pending

def span (s : Scanner) : Span := ⟨s.start, s.next⟩

def atEnd (s : Scanner) : Bool := s.rest.isEmpty

def peekAt (s : Scanner) (n : Nat) : Option Rune := s.rest[n]?

def peek (s : Scanner) : Option Rune := s.peekAt 0

def advance (s : Scanner) (n : Nat) : Scanner :=
  let taken := s.rest.take n
  ⟨s.start, s.pending ++ taken, s.rest.drop n, taken.getLast?.or s.current⟩

def scan (s : Scanner) : Option Scanner := if s.atEnd then none else some (s.advance 1)

def ignore (s : Scanner) : Scanner := ⟨s.next, [], s.rest, s.current⟩

def emit (s : Scanner) (kind : TokenKind) : Token × Scanner :=
  (⟨kind, s.text, s.span⟩, s.ignore)

def accept (s : Scanner) (p : Char → Bool) : Option Scanner :=
  match s.peek with
  | some r => if p r.char then some (s.advance 1) else none
  | none => none

def acceptChar (s : Scanner) (c : Char) : Option Scanner := s.accept (· == c)

def acceptDigit (s : Scanner) : Option Scanner := s.accept isDigit

def acceptSpace (s : Scanner) : Option Scanner := s.accept fun c => c != '\n' && isSpace c

def run (p : Char → Bool) (rs : List Rune) : Nat := (rs.takeWhile fun r => p r.char).length

def acceptRun (s : Scanner) (p : Char → Bool) : Nat × Scanner :=
  let n := run p s.rest
  (n, s.advance n)

/-- Scans `literal` as a whole, or nothing. -/
def acceptText (s : Scanner) (literal : Bytes) : Option Scanner :=
  if literal.isPrefixOf (Rune.join s.rest) then some (s.advance literal.runes.length) else none

end Scanner

end HostScript
