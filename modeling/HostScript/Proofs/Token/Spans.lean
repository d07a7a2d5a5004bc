import HostScript.Proofs.Text.Runes
import HostScript.Proofs.Token.Grammar

/-!
Where tokens lie. A token is read from a scanner with nothing pending, and leaves such a scanner
at its end, so no token begins before the one in front of it has ended. What a scanner has still to
read ends where it ended before, so no token leaves the span that is read.
-/

set_option autoImplicit false

namespace HostScript

/-- Two spans of which one ends before the other begins. -/
def Span.Apart (s t : Span) : Prop := s.stop ≤ t.start ∨ t.stop ≤ s.start

theorem Scanner.start_le_next (s : Scanner) : s.start ≤ s.next := by
  unfold next
  omega

namespace Lexer

theorem skipSpace_start {s : Scanner} (h : s.pending = []) :
    s.start ≤ (skipSpace s).start ∧ (skipSpace s).pending = [] := by
  simp only [skipSpace, Scanner.acceptRun]
  by_cases hn : Scanner.run isSpace s.rest = 0
  · simp [hn, h]
  · have hs : s.start ≤ (s.advance (Scanner.run isSpace s.rest)).next := Scanner.start_le_next _
    simpa [hn, Scanner.ignore] using hs

theorem emit_span (s : Scanner) (x : Lexeme) :
    (emit s x).1.span = ⟨s.start, (emit s x).2.start⟩ ∧ s.start ≤ (emit s x).2.start ∧
      (emit s x).2.pending = [] := by
  have hs := (s.advance (x.more + 1)).start_le_next
  unfold emit
  cases x.message <;> exact ⟨rfl, hs, rfl⟩

/-- A token lies between the scanner it is read from and the scanner it leaves. -/
theorem readToken_span {s : Scanner} (h : s.pending = []) :
    s.start ≤ (readToken s).1.span.start ∧
      (readToken s).1.span.start ≤ (readToken s).1.span.stop ∧
      (readToken s).1.span.stop = (readToken s).2.start ∧ (readToken s).2.pending = [] := by
  obtain ⟨hs, _⟩ := skipSpace_start h
  cases hr : (skipSpace s).rest with
  | nil =>
    simp only [readToken, hr]
    exact ⟨hs, (skipSpace s).start_le_next, rfl, rfl⟩
  | cons r rest =>
    obtain ⟨he, hle, hp⟩ := emit_span (skipSpace s) (lexeme r.char rest)
    simp only [readToken, hr, he]
    exact ⟨hs, hle, trivial, hp⟩

theorem tokensFrom_start_le {s : Scanner} (h : s.pending = []) :
    ∀ t ∈ tokensFrom s, s.start ≤ t.span.start := by
  fun_induction tokensFrom s with
  | case1 s _ =>
    intro t ht
    rw [List.mem_singleton.mp ht]
    exact (readToken_span h).1
  | case2 s _ ih =>
    obtain ⟨hs, hle, he, hp⟩ := readToken_span h
    intro t ht
    cases List.mem_cons.mp ht with
    | inl ht => rw [ht]; exact hs
    | inr ht =>
      have hn := ih hp t ht
      omega

theorem tokensFrom_ordered {s : Scanner} (h : s.pending = []) :
    (tokensFrom s).Pairwise fun a b => a.span.stop ≤ b.span.start := by
  fun_induction tokensFrom s with
  | case1 s _ => exact List.pairwise_singleton _ _
  | case2 s _ ih =>
    obtain ⟨_, _, he, hp⟩ := readToken_span h
    refine List.pairwise_cons.mpr ⟨fun t ht => ?_, ih hp⟩
    rw [he]
    exact tokensFrom_start_le hp t ht

theorem tokens_apart (text : Bytes) (start stop : Int) {a b : Token}
    (ha : a ∈ tokens text start stop) (hb : b ∈ tokens text start stop) (hne : a ≠ b) :
    a.span.Apart b.span := by
  have ho : (tokens text start stop).Pairwise fun a b => a.span.stop ≤ b.span.start :=
    tokensFrom_ordered rfl
  rw [List.pairwise_iff_getElem] at ho
  obtain ⟨i, hi, rfl⟩ := List.mem_iff_getElem.mp ha
  obtain ⟨j, hj, rfl⟩ := List.mem_iff_getElem.mp hb
  rcases Nat.lt_trichotomy i j with hij | rfl | hij
  · exact Or.inl (ho i j hi hj hij)
  · exact absurd rfl hne
  · exact Or.inr (ho j i hj hi hij)

end Lexer

namespace Scanner

def limit (s : Scanner) : Int := s.next + Rune.sizes s.rest

theorem limit_ignore (s : Scanner) : s.ignore.limit = s.limit := by
  simp [limit, ignore, next, Rune.sizes]

theorem limit_advance (s : Scanner) (n : Nat) : (s.advance n).limit = s.limit := by
  have hs : Rune.sizes (s.rest.take n) + Rune.sizes (s.rest.drop n) = Rune.sizes s.rest := by
    rw [← Rune.sizes_append, List.take_append_drop]
  simp only [limit, advance, next, Rune.sizes_append]
  omega

theorem start_le_limit (s : Scanner) : s.start ≤ s.limit := by
  have hn := s.start_le_next
  unfold limit
  omega

theorem ofSpan_eq {text : Bytes} {start stop : Nat} (hle : start ≤ stop) (hs : stop ≤ text.length) :
    ofSpan text start stop = ⟨start, [], (text.slice start stop).runes, none⟩ := by
  have hstop : min (stop : Int) text.length = stop := by omega
  have hstart : min (max (start : Int) 0) stop = start := by omega
  simp only [ofSpan, hstop, hstart, Int.toNat_natCast]

theorem limit_ofSpan {text : Bytes} {start stop : Nat} (hle : start ≤ stop)
    (hs : stop ≤ text.length) : (ofSpan text start stop).limit = stop := by
  have hl : (text.slice start stop).length = stop - start := by
    simp only [Bytes.slice, List.length_take, List.length_drop]
    omega
  rw [ofSpan_eq hle hs]
  simp only [limit, next, Rune.sizes, Bytes.sizes_runes, hl]
  omega

end Scanner

namespace Lexer

theorem skipSpace_limit (s : Scanner) : (skipSpace s).limit = s.limit := by
  simp only [skipSpace, Scanner.acceptRun]
  by_cases h : Scanner.run isSpace s.rest = 0
  · simp [h]
  · simp [h, Scanner.limit_ignore, Scanner.limit_advance]

theorem emit_limit (s : Scanner) (x : Lexeme) : (emit s x).2.limit = s.limit := by
  have h : (emit s x).2 = (s.advance (x.more + 1)).ignore := by
    unfold emit
    cases x.message <;> rfl
  rw [h, Scanner.limit_ignore, Scanner.limit_advance]

theorem readToken_limit (s : Scanner) : (readToken s).2.limit = s.limit := by
  rw [← skipSpace_limit s]
  cases hr : (skipSpace s).rest with
  | nil => simp only [readToken, hr, Scanner.limit_ignore]
  | cons r rest => simp only [readToken, hr, emit_limit]

theorem tokensFrom_stop_le {s : Scanner} (h : s.pending = []) :
    ∀ t ∈ tokensFrom s, t.span.start ≤ t.span.stop ∧ t.span.stop ≤ s.limit := by
  fun_induction tokensFrom s with
  | case1 s _ =>
    obtain ⟨_, hle, he, _⟩ := readToken_span h
    have hl := (readToken s).2.start_le_limit
    intro t ht
    rw [List.mem_singleton.mp ht, ← readToken_limit s]
    exact ⟨hle, he ▸ hl⟩
  | case2 s _ ih =>
    obtain ⟨_, hle, he, hp⟩ := readToken_span h
    have hl := (readToken s).2.start_le_limit
    rw [← readToken_limit s]
    intro t ht
    cases List.mem_cons.mp ht with
    | inl ht => rw [ht]; exact ⟨hle, he ▸ hl⟩
    | inr ht => exact ih hp t ht

/-- The token lies between the offsets. -/
structure Within (start stop : Nat) (t : Token) : Prop where
  start_le : start ≤ t.span.start
  ordered : t.span.start ≤ t.span.stop
  stop_le : t.span.stop ≤ stop

theorem Within.start_inside {start stop : Nat} {t : Token} (h : Within start stop t) :
    start ≤ t.span.start ∧ t.span.start ≤ stop :=
  ⟨h.start_le, Int.le_trans h.ordered h.stop_le⟩

theorem Within.stop_inside {start stop : Nat} {t : Token} (h : Within start stop t) :
    start ≤ t.span.stop ∧ t.span.stop ≤ stop :=
  ⟨Int.le_trans h.start_le h.ordered, h.stop_le⟩

theorem Within.mono {a b start stop : Nat} {t : Token} (h : Within a b t) (ha : start ≤ a)
    (hb : b ≤ stop) : Within start stop t := by
  have hlow := h.start_le
  have hhigh := h.stop_le
  exact ⟨by omega, h.ordered, by omega⟩

theorem tokens_within {text : Bytes} {start stop : Nat} (hle : start ≤ stop) (hs : stop ≤ text.length) :
    ∀ t ∈ tokens text start stop, Within start stop t := by
  have hp : (Scanner.ofSpan text start stop).pending = [] := rfl
  have hb : (Scanner.ofSpan text start stop).start = start := by rw [Scanner.ofSpan_eq hle hs]
  intro t ht
  have hlow := tokensFrom_start_le hp t ht
  have hhigh := tokensFrom_stop_le hp t ht
  rw [Scanner.limit_ofSpan hle hs] at hhigh
  exact ⟨hb ▸ hlow, hhigh.1, hhigh.2⟩

theorem tokens_congr {text text' : Bytes} {start stop : Nat} (hle : start ≤ stop)
    (hs : stop ≤ text.length) (hs' : stop ≤ text'.length)
    (h : text.slice start stop = text'.slice start stop) :
    tokens text start stop = tokens text' start stop := by
  rw [tokens, tokens, Scanner.ofSpan_eq hle hs, Scanner.ofSpan_eq hle hs', h]

theorem emit_length {s : Scanner} {x : Lexeme} (h : x.message = none) :
    (emit s x).1.span.stop = (emit s x).1.span.start + (emit s x).1.text.length := by
  simp only [emit, h, Scanner.emit, Scanner.span, Scanner.text, Scanner.next, Rune.length_join]

theorem readToken_comment {s : Scanner} (h : (readToken s).1.kind = .comment) :
    (readToken s).1.span.stop = (readToken s).1.span.start + (readToken s).1.text.length := by
  cases hr : (skipSpace s).rest with
  | nil => simp [readToken, hr] at h
  | cons r rest =>
    simp only [readToken, hr] at h ⊢
    have hk : (emit (skipSpace s) (lexeme r.char rest)).1.kind = (lexeme r.char rest).kind := by
      unfold emit
      cases (lexeme r.char rest).message <;> rfl
    rw [hk] at h
    exact emit_length ((lexeme_lexes r.char rest).message_eq_none (by simp [h]) (by simp [h]))

theorem tokensFrom_comment (s : Scanner) :
    ∀ t ∈ tokensFrom s, t.kind = .comment → t.span.stop = t.span.start + t.text.length := by
  fun_induction tokensFrom s with
  | case1 s he =>
    intro t ht hk
    rw [List.mem_singleton.mp ht, he] at hk
    exact absurd hk (by decide)
  | case2 s _ ih =>
    intro t ht hk
    cases List.mem_cons.mp ht with
    | inl ht =>
      rw [ht] at hk ⊢
      exact readToken_comment hk
    | inr ht => exact ih t ht hk

end Lexer

end HostScript
