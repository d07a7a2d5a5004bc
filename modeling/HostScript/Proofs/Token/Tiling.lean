import HostScript.Proofs.Document.Joined
import HostScript.Proofs.Text.Boundary
import HostScript.Proofs.Token.Spans
import Mathlib.Data.List.Chain

/-!
The tokens of a span lose nothing of it. A scanner with nothing pending has the runes of the text
from its start to the end of the span before it. Reading a token takes white space and then the
runes of the token from them, and leaves such a scanner behind the token.
-/

set_option autoImplicit false

namespace HostScript

def Span.source (s : Span) (text : Bytes) : Bytes := text.slice s.start.toNat s.stop.toNat

theorem Span.source_empty (text : Bytes) (k : Int) : Span.source ⟨k, k⟩ text = [] := by
  simp [Span.source, Bytes.slice]

def Span.clamp (s : Span) (text : Bytes) : Span :=
  ⟨min (max s.start 0) (min s.stop text.length), min s.stop text.length⟩

/-- Nothing but white space. -/
def Bytes.IsBlank (bs : Bytes) : Prop := ∀ r ∈ bs.runes, isSpace r.char = true

theorem Bytes.slice_take (bs : Bytes) {a c k : Nat} (h : k ≤ c - a) :
    (bs.slice a c).take k = bs.slice a (a + k) := by
  rw [slice, slice, List.take_take, Nat.add_sub_cancel_left, Nat.min_eq_left h]

theorem Bytes.slice_drop (bs : Bytes) (a c k : Nat) : (bs.slice a c).drop k = bs.slice (a + k) c := by
  rw [slice, slice, List.drop_take, List.drop_drop, Nat.sub_sub]

namespace Scanner

/-- The scanner has the text up to the offset `last` before it, and nothing is pending. -/
structure Reads (text : Bytes) (last : Int) (s : Scanner) : Prop where
  pending : s.pending = []
  rest : s.rest = (text.slice s.start.toNat last.toNat).runes
  limit : s.limit = last
  last_le : last ≤ text.length

theorem ofSpan_reads (text : Bytes) (start stop : Int) :
    (ofSpan text start stop).Reads text (min stop text.length) := by
  refine ⟨rfl, rfl, ?_, Int.min_le_right _ _⟩
  simp only [limit, next, ofSpan, Rune.sizes, Bytes.sizes_runes]
  rw [Bytes.length_slice _ _ (by omega)]
  omega

namespace Reads

variable {text : Bytes} {last : Int} {s : Scanner}

theorem sizes_rest (h : s.Reads text last) : s.start + Rune.sizes s.rest = last := by
  have hl := h.limit
  simp only [Scanner.limit, next, h.pending, Rune.sizes] at hl
  omega

/-- Only a scanner without runes begins before the text. -/
theorem toNat_start_add (h : s.Reads text last) {k : Nat} (hk : k ≤ Rune.sizes s.rest) :
    (s.start + k).toNat = s.start.toNat + k := by
  have hsizes := h.sizes_rest
  have hlast := h.last_le
  have hlen : Rune.sizes s.rest = last.toNat - s.start.toNat := by
    rw [h.rest, Bytes.sizes_runes, Bytes.length_slice _ _ (by omega)]
  omega

theorem start_le_last (h : s.Reads text last) : s.start ≤ last := by
  have hsizes := h.sizes_rest
  omega

theorem pass (h : s.Reads text last) (n : Nat) :
    (s.advance n).ignore.Reads text last ∧
      (s.advance n).ignore.start = s.start + Rune.sizes (s.rest.take n) ∧
      Span.source ⟨s.start, (s.advance n).ignore.start⟩ text = Rune.join (s.rest.take n) ∧
      (Span.source ⟨s.start, (s.advance n).ignore.start⟩ text).runes = s.rest.take n := by
  have hstart : (s.advance n).ignore.start = s.start + Rune.sizes (s.rest.take n) := by
    simp [ignore, advance, next, h.pending]
  have hsplit : s.rest.take n ++ s.rest.drop n = s.rest := List.take_append_drop n s.rest
  have hsizes : Rune.sizes (s.rest.take n) + Rune.sizes (s.rest.drop n) = Rune.sizes s.rest := by
    rw [← Rune.sizes_append, hsplit]
  have hnat := h.toNat_start_add (show Rune.sizes (s.rest.take n) ≤ Rune.sizes s.rest by omega)
  have hlen : Rune.sizes s.rest = last.toNat - s.start.toNat := by
    have hlast := h.last_le
    rw [h.rest, Bytes.sizes_runes, Bytes.length_slice _ _ (by omega)]
  have hrunes : (text.slice s.start.toNat last.toNat).runes = s.rest.take n ++ s.rest.drop n := by
    rw [hsplit, h.rest]
  have hsource : (Span.source ⟨s.start, (s.advance n).ignore.start⟩ text).runes = s.rest.take n := by
    have htake := Bytes.runes_take hrunes
    rw [Bytes.slice_take _ (by omega)] at htake
    simpa only [Span.source, hstart, hnat] using htake
  refine ⟨⟨rfl, ?_, ?_, h.last_le⟩, hstart, ?_, hsource⟩
  · have hdrop := Bytes.runes_drop hrunes
    rw [Bytes.slice_drop] at hdrop
    rw [hstart, hnat, hdrop]
    rfl
  · rw [limit_ignore, limit_advance, h.limit]
  · rw [← Bytes.join_runes (Span.source _ text), hsource]

end Reads

end Scanner

namespace Lexer

/-- How a token that does not end the span is read: white space is passed over from the offset `first`
on, the token takes its first rune and those that the grammar gives it, and leaves the others. -/
structure Taken (text : Bytes) (first last : Int) (t : Token) (r : Rune) (rest : List Rune) : Prop where
  first_le : first ≤ t.span.start
  nonempty : t.span.start < t.span.stop
  stop_le : t.span.stop ≤ last
  gap : (Span.source ⟨first, t.span.start⟩ text).IsBlank
  visible : isSpace r.char = false
  kind : t.kind = (lexeme r.char rest).kind
  text_eq : t.text = ((lexeme r.char rest).message.map utf8).getD (t.span.source text)
  taken : (t.span.source text).runes = r :: rest.take (lexeme r.char rest).more
  left : (Span.source ⟨t.span.stop, last⟩ text).runes = rest.drop (lexeme r.char rest).more

def endToken (last : Int) : Token := ⟨.eof, [], ⟨last, last⟩⟩

theorem skipSpace_eq {s : Scanner} (h : s.pending = []) :
    skipSpace s = (s.advance (Scanner.run isSpace s.rest)).ignore := by
  simp only [skipSpace, Scanner.acceptRun]
  by_cases hn : Scanner.run isSpace s.rest = 0
  · cases s
    simp_all [Scanner.advance, Scanner.ignore, Scanner.next, Rune.sizes]
  · simp [hn]

variable {text : Bytes} {first last : Int} {s : Scanner}

theorem skipSpace_reads (h : s.Reads text last) :
    (skipSpace s).Reads text last ∧ s.start ≤ (skipSpace s).start ∧
      (Span.source ⟨s.start, (skipSpace s).start⟩ text).IsBlank ∧
      ∀ r rest, (skipSpace s).rest = r :: rest → isSpace r.char = false := by
  obtain ⟨hreads, hstart, _, hrunes⟩ := h.pass (Scanner.run isSpace s.rest)
  obtain ⟨hspaces, hstop⟩ := Scanner.run_spec isSpace s.rest
  rw [skipSpace_eq h.pending]
  exact ⟨hreads, by omega, fun r hr => hspaces r (hrunes ▸ hr), hstop⟩

theorem readToken_cons {r : Rune} {rest : List Rune} (hp : (skipSpace s).pending = [])
    (hr : (skipSpace s).rest = r :: rest) :
    readToken s = (⟨(lexeme r.char rest).kind,
      ((lexeme r.char rest).message.map utf8).getD
        (Rune.join (r :: rest.take (lexeme r.char rest).more)),
      ⟨(skipSpace s).start, ((skipSpace s).advance ((lexeme r.char rest).more + 1)).ignore.start⟩⟩,
      ((skipSpace s).advance ((lexeme r.char rest).more + 1)).ignore) := by
  simp only [readToken, hr, emit, Scanner.emit, Scanner.text, Scanner.advance, hp]
  cases (lexeme r.char rest).message <;> rfl

/-- What reading a token does, at the end of the span and before it. -/
theorem readToken_cases (h : s.Reads text last) :
    ((readToken s).1 = endToken last ∧ (Span.source ⟨s.start, last⟩ text).IsBlank) ∨
      ∃ r rest, Taken text s.start last (readToken s).1 r rest ∧
        (readToken s).2.Reads text last ∧ (readToken s).2.start = (readToken s).1.span.stop := by
  obtain ⟨hreads, hle, hblank, hvisible⟩ := skipSpace_reads h
  cases hr : (skipSpace s).rest with
  | nil =>
    have hlast := hreads.sizes_rest
    rw [hr] at hlast
    have hstart : (skipSpace s).start = last := by simpa [Rune.sizes] using hlast
    refine Or.inl ⟨?_, hstart ▸ hblank⟩
    simp [readToken, hr, endToken, Scanner.span, Scanner.next, hreads.pending, Rune.sizes, hstart]
  | cons r rest =>
    obtain ⟨hnext, hstop, hsource, hrunes⟩ := hreads.pass ((lexeme r.char rest).more + 1)
    rw [hr, List.take_succ_cons] at hrunes hsource hstop
    have hsize : 0 < Rune.sizes (r :: rest.take (lexeme r.char rest).more) := by
      have hmem : r ∈ (skipSpace s).rest := by simp [hr]
      rw [hreads.rest] at hmem
      exact Nat.lt_of_lt_of_le (Bytes.size_pos_of_mem_runes hmem) (Nat.le_add_right _ _)
    have hleft : ((skipSpace s).advance ((lexeme r.char rest).more + 1)).ignore.rest =
        rest.drop (lexeme r.char rest).more := by
      simp only [Scanner.ignore, Scanner.advance, hr, List.drop_succ_cons]
    refine Or.inr ⟨r, rest, ?_⟩
    rw [readToken_cons hreads.pending hr]
    refine ⟨?_, hnext, rfl⟩
    exact
      { first_le := hle
        nonempty := by simp only; omega
        stop_le := hnext.start_le_last
        gap := hblank
        visible := hvisible r rest hr
        kind := rfl
        text_eq := by simp only [hsource]
        taken := hrunes
        left := hnext.rest.symm.trans hleft }

theorem endToken_kind (last : Int) : (endToken last).kind = .eof := rfl

theorem Taken.kind_ne_eof {t : Token} {r : Rune} {rest : List Rune}
    (h : Taken text first last t r rest) : t.kind ≠ .eof := by
  rw [h.kind]
  exact (lexeme_lexes r.char rest).kind_ne_eof

/-- A token that is no error has the bytes of its span. -/
theorem Taken.text_eq_source {t : Token} {r : Rune} {rest : List Rune}
    (h : Taken text first last t r rest) (he : t.kind ≠ .error) (hi : t.kind ≠ .invalid) :
    t.text = t.span.source text := by
  rw [h.kind] at he hi
  rw [h.text_eq, (lexeme_lexes r.char rest).message_eq_none he hi]
  rfl

/-- Tokens that account for every byte between two offsets. -/
structure Tiling (text : Bytes) (first last : Int) (ts : List Token) : Prop where
  within : ∀ t ∈ ts, first ≤ t.span.start ∧ t.span.start ≤ t.span.stop ∧ t.span.stop ≤ last
  ordered : ts.Pairwise fun a b => a.span.stop ≤ b.span.start
  nonempty : ∀ t ∈ ts, t.kind ≠ .eof → t.span.start < t.span.stop
  gap_before : ∀ t ∈ ts.head?, (Span.source ⟨first, t.span.start⟩ text).IsBlank
  gaps : ts.IsChain fun a b => (Span.source ⟨a.span.stop, b.span.start⟩ text).IsBlank
  gap_after : ∀ t ∈ ts.getLast?, (Span.source ⟨t.span.stop, last⟩ text).IsBlank
  text_eq : ∀ t ∈ ts, t.kind ≠ .error → t.kind ≠ .invalid → t.kind ≠ .eof →
    t.text = t.span.source text
  ends : ∃ body, ts = body ++ [endToken last] ∧ ∀ t ∈ body, t.kind ≠ .eof

theorem tiling_end (hle : first ≤ last) (h : (Span.source ⟨first, last⟩ text).IsBlank) :
    Tiling text first last [endToken last] where
  within t ht := by
    rw [List.mem_singleton.mp ht]
    exact ⟨hle, Int.le_refl _, Int.le_refl _⟩
  ordered := List.pairwise_singleton _ _
  nonempty t ht hk := by
    rw [List.mem_singleton.mp ht] at hk
    exact absurd rfl hk
  gap_before t ht := by
    cases Option.mem_some.mp ht
    exact h
  gaps := List.IsChain.singleton _
  gap_after t ht := by
    cases Option.mem_some.mp ht
    simp [endToken, Span.source_empty, Bytes.IsBlank, Bytes.runes, Bytes.runesAfter]
  text_eq t ht _ _ hk := by
    rw [List.mem_singleton.mp ht] at hk
    exact absurd rfl hk
  ends := ⟨[], rfl, by simp⟩

theorem Taken.tiling {t : Token} {r : Rune} {rest : List Rune} {ts : List Token}
    (ht : Taken text first last t r rest) (h : Tiling text t.span.stop last ts) :
    Tiling text first last (t :: ts) where
  within := by
    have hstart := ht.first_le
    have hlt := ht.nonempty
    refine List.forall_mem_cons.mpr ⟨⟨hstart, Int.le_of_lt hlt, ht.stop_le⟩, fun u hu => ?_⟩
    obtain ⟨hu, hle, hlast⟩ := h.within u hu
    exact ⟨by omega, hle, hlast⟩
  ordered := List.pairwise_cons.mpr ⟨fun u hu => (h.within u hu).1, h.ordered⟩
  nonempty := List.forall_mem_cons.mpr ⟨fun _ => ht.nonempty, h.nonempty⟩
  gap_before u hu := by
    cases Option.mem_some.mp hu
    exact ht.gap
  gaps := List.isChain_cons.mpr ⟨h.gap_before, h.gaps⟩
  gap_after u hu := by
    obtain ⟨body, rfl, _⟩ := h.ends
    rw [List.getLast?_cons_of_ne_nil (by simp)] at hu
    exact h.gap_after u hu
  text_eq := List.forall_mem_cons.mpr ⟨fun he hi _ => ht.text_eq_source he hi, h.text_eq⟩
  ends := by
    obtain ⟨body, rfl, hbody⟩ := h.ends
    exact ⟨t :: body, rfl, List.forall_mem_cons.mpr ⟨ht.kind_ne_eof, hbody⟩⟩

theorem tokensFrom_tiling (h : s.Reads text last) : Tiling text s.start last (tokensFrom s) := by
  -- Each token that is read leaves a scanner that reads the text from the end of the token on.
  fun_induction tokensFrom s with
  | case1 s he =>
    rcases readToken_cases h with ⟨hend, hblank⟩ | ⟨r, rest, htaken, _⟩
    · rw [hend]
      exact tiling_end h.start_le_last hblank
    · exact absurd he htaken.kind_ne_eof
  | case2 s he ih =>
    rcases readToken_cases h with ⟨hend, _⟩ | ⟨r, rest, htaken, hnext, hstart⟩
    · exact absurd (hend ▸ endToken_kind last) he
    · have hrest := ih hnext
      rw [hstart] at hrest
      exact htaken.tiling hrest

theorem mem_tokensFrom (h : s.Reads text last) {t : Token} (ht : t ∈ tokensFrom s) :
    t = endToken last ∨ ∃ first r rest, Taken text first last t r rest := by
  fun_induction tokensFrom s with
  | case1 s he =>
    rw [List.mem_singleton.mp ht]
    rcases readToken_cases h with ⟨hend, _⟩ | ⟨r, rest, htaken, _⟩
    · exact Or.inl hend
    · exact Or.inr ⟨s.start, r, rest, htaken⟩
  | case2 s he ih =>
    rcases readToken_cases h with ⟨hend, _⟩ | ⟨r, rest, htaken, hnext, _⟩
    · exact absurd (hend ▸ endToken_kind last) he
    · cases List.mem_cons.mp ht with
      | inl ht => exact Or.inr ⟨s.start, r, rest, ht ▸ htaken⟩
      | inr ht => exact ih hnext ht

/-- White space and a token are taken from the runes in front. -/
theorem readToken_rest (hp : s.pending = []) :
    ∃ gap word, s.rest = gap ++ (word ++ (readToken s).2.rest) ∧
      (readToken s).1.span.start = s.start + Rune.sizes gap ∧
      (readToken s).2.start = s.start + Rune.sizes gap + Rune.sizes word := by
  have hskip := skipSpace_eq hp
  have hpending : (skipSpace s).pending = [] := by rw [hskip]; rfl
  have hstart : (skipSpace s).start = s.start + Rune.sizes (s.rest.take (Scanner.run isSpace s.rest)) := by
    rw [hskip]
    simp [Scanner.ignore, Scanner.advance, Scanner.next, hp]
  have hsplit : s.rest = s.rest.take (Scanner.run isSpace s.rest) ++ (skipSpace s).rest := by
    rw [hskip]
    exact (List.take_append_drop _ _).symm
  refine ⟨s.rest.take (Scanner.run isSpace s.rest), ?_⟩
  rw [← hstart]
  cases hr : (skipSpace s).rest with
  | nil =>
    refine ⟨[], ?_⟩
    simpa [readToken, hr, Scanner.span, Scanner.ignore, Scanner.next, hpending, Rune.sizes] using hsplit
  | cons r rest =>
    refine ⟨(r :: rest).take ((lexeme r.char rest).more + 1), ?_⟩
    rw [readToken_cons hpending hr]
    refine ⟨?_, rfl, ?_⟩
    · rw [hr] at hsplit
      simpa [Scanner.ignore, Scanner.advance, hr] using hsplit
    · simp [Scanner.ignore, Scanner.advance, Scanner.next, hpending, hr]

theorem readToken_span_eq (hp : s.pending = []) : ∃ gap word, gap ++ word <+: s.rest ∧
    (readToken s).1.span.start = s.start + Rune.sizes gap ∧
    (readToken s).1.span.stop = s.start + Rune.sizes (gap ++ word) := by
  obtain ⟨gap, word, hrest, hstart, hnext⟩ := readToken_rest hp
  refine ⟨gap, word, ⟨(readToken s).2.rest, by rw [hrest, List.append_assoc]⟩, hstart, ?_⟩
  rw [(readToken_span hp).2.2.1, hnext, Rune.sizes_append]
  omega

theorem tokensFrom_span_eq (hp : s.pending = []) {t : Token} (ht : t ∈ tokensFrom s) :
    ∃ before word, before ++ word <+: s.rest ∧ t.span.start = s.start + Rune.sizes before ∧
      t.span.stop = s.start + Rune.sizes (before ++ word) := by
  fun_induction tokensFrom s with
  | case1 s _ =>
    rw [List.mem_singleton.mp ht]
    exact readToken_span_eq hp
  | case2 s _ ih =>
    cases List.mem_cons.mp ht with
    | inl ht =>
      rw [ht]
      exact readToken_span_eq hp
    | inr ht =>
      obtain ⟨gap, word, hrest, hstart, hnext⟩ := readToken_rest hp
      obtain ⟨before, later, ⟨more, hmore⟩, hlow, hhigh⟩ := ih (readToken_span hp).2.2.2 ht
      refine ⟨gap ++ (word ++ before), later, ⟨more, ?_⟩, ?_, ?_⟩
      · rw [hrest, ← hmore]
        simp only [List.append_assoc]
      · simp only [Rune.sizes_append]
        omega
      · simp only [Rune.sizes_append] at hhigh ⊢
        omega

theorem tokens_isBoundary {text : Bytes} {start stop : Nat} (hle : start ≤ stop)
    (hs : stop ≤ text.length) {t : Token} (ht : t ∈ tokens text start stop) :
    ∃ a b : Nat, t.span = ⟨start + a, start + b⟩ ∧ (text.slice start stop).IsBoundary a ∧
      (text.slice start stop).IsBoundary b := by
  obtain ⟨before, word, hrest, hlow, hhigh⟩ := tokensFrom_span_eq rfl ht
  rw [Scanner.ofSpan_eq hle hs] at hrest hlow hhigh
  exact ⟨_, _, by rw [← hlow, ← hhigh], ⟨before, (List.prefix_append _ _).trans hrest, rfl⟩,
    before ++ word, hrest, rfl⟩

theorem tokens_start_isBoundary {text : Bytes} {start stop : Nat} (hle : start ≤ stop)
    (hs : stop ≤ text.length) {t : Token} (ht : t ∈ tokens text start stop) :
    ∃ k : Nat, t.span.start = start + k ∧ (text.slice start stop).IsBoundary k := by
  obtain ⟨a, b, hspan, ha, _⟩ := tokens_isBoundary hle hs ht
  exact ⟨a, by rw [hspan], ha⟩

/-- The tokens of a span account for every byte of the part of it that lies in the text, whatever the
bytes are and wherever the span cuts them. -/
theorem tokens_tile (text : Bytes) (span : Span) :
    Tiling text (span.clamp text).start (span.clamp text).stop (tokens text span.start span.stop) :=
  tokensFrom_tiling (Scanner.ofSpan_reads text span.start span.stop)

end Lexer

end HostScript
