import HostScript.Proofs.Document.Shift
import HostScript.Proofs.Token.Spans

set_option autoImplicit false

namespace HostScript

def Span.moved (s : Span) (n : Nat) : Span := ⟨n + s.start, n + s.stop⟩

def Token.moved (t : Token) (n : Nat) : Token := { t with span := t.span.moved n }

@[simp] theorem Token.moved_kind (t : Token) (n : Nat) : (t.moved n).kind = t.kind := rfl

@[simp] theorem Token.moved_text (t : Token) (n : Nat) : (t.moved n).text = t.text := rfl

namespace Scanner

def moved (s : Scanner) (n : Nat) : Scanner := { s with start := n + s.start }

variable (s : Scanner) (n : Nat)

theorem span_moved : (s.moved n).span = s.span.moved n := by
  simp only [span, moved, next, Span.moved, Int.add_assoc]

theorem ignore_moved : (s.moved n).ignore = s.ignore.moved n := by
  simp only [ignore, moved, next, Int.add_assoc]

theorem ofSpan_moved (front text : Bytes) (start stop : Nat) :
    ofSpan (front ++ text) (front.length + start : Nat) (front.length + stop : Nat)
      = (ofSpan text start stop).moved front.length := by
  have hstop : min ((front.length + stop : Nat) : Int) (front ++ text).length
      = (front.length + min stop text.length : Nat) := by
    rw [List.length_append]
    omega
  have hstart : min (max ((front.length + start : Nat) : Int) 0) (front.length + min stop text.length : Nat)
      = (front.length + min start (min stop text.length) : Nat) := by omega
  have hstop' : min (stop : Int) text.length = (min stop text.length : Nat) := by omega
  have hstart' : min (max (start : Int) 0) (min stop text.length : Nat)
      = (min start (min stop text.length) : Nat) := by omega
  simp only [ofSpan, hstop, hstart, hstop', hstart', Int.toNat_natCast, Bytes.slice_append_right]
  rw [moved, Int.natCast_add]

end Scanner

namespace Lexer

variable (s : Scanner) (n : Nat)

theorem skipSpace_moved : skipSpace (s.moved n) = (skipSpace s).moved n := by
  have hrun : (s.moved n).acceptRun isSpace = ((s.acceptRun isSpace).1, (s.acceptRun isSpace).2.moved n) :=
    rfl
  by_cases h : (s.acceptRun isSpace).1 = 0
  · simp only [skipSpace, hrun, h, if_true]
  · simp only [skipSpace, hrun, h, if_false, Scanner.ignore_moved]

theorem emit_moved (x : Lexeme) :
    emit (s.moved n) x = ((emit s x).1.moved n, (emit s x).2.moved n) := by
  have hadvance : (s.moved n).advance (x.more + 1) = (s.advance (x.more + 1)).moved n := rfl
  simp only [emit, Scanner.emit, hadvance, Scanner.span_moved, Scanner.ignore_moved]
  cases x.message <;> rfl

theorem readToken_moved :
    readToken (s.moved n) = ((readToken s).1.moved n, (readToken s).2.moved n) := by
  have hrest : ((skipSpace s).moved n).rest = (skipSpace s).rest := rfl
  simp only [readToken, skipSpace_moved, hrest]
  cases (skipSpace s).rest with
  | nil => simp only [Scanner.span_moved, Scanner.ignore_moved, Token.moved]
  | cons r rest => exact emit_moved (skipSpace s) n (lexeme r.char rest)

theorem tokensFrom_moved : tokensFrom (s.moved n) = (tokensFrom s).map (·.moved n) := by
  fun_induction tokensFrom s with
  | case1 s he =>
    have he' : (readToken (s.moved n)).1.kind = .eof := by rw [readToken_moved]; exact he
    rw [tokensFrom, if_pos he', readToken_moved, List.map_singleton]
  | case2 s he ih =>
    have he' : ¬ (readToken (s.moved n)).1.kind = .eof := by rw [readToken_moved]; exact he
    rw [tokensFrom, if_neg he', readToken_moved, ih, List.map_cons]

/-- The tokens of a text that stands behind another one. -/
theorem tokens_append (front text : Bytes) (start stop : Nat) :
    tokens (front ++ text) (front.length + start : Nat) (front.length + stop : Nat)
      = (tokens text start stop).map (·.moved front.length) := by
  rw [tokens, Scanner.ofSpan_moved, tokensFrom_moved, tokens]

theorem tokens_nonneg (text : Bytes) (start stop : Nat) :
    ∀ t ∈ tokens text start stop, 0 ≤ t.span.start ∧ 0 ≤ t.span.stop := by
  intro t ht
  have hp : (Scanner.ofSpan text start stop).pending = [] := rfl
  have hlow := tokensFrom_start_le hp t ht
  have hhigh := tokensFrom_stop_le hp t ht
  have hstart : 0 ≤ (Scanner.ofSpan text start stop).start := by
    simp only [Scanner.ofSpan]
    omega
  omega

end Lexer

end HostScript
