import HostScript.Proofs.Document.RawLines
import HostScript.Proofs.Text.Encoding
import HostScript.Proofs.Token.Tiling

/-!
What a scanner keeps, whatever is asked of it. It has the text of its span up to its place behind it and the
runes of what is left of the span before it. An operation that only looks, or that does not find what it
asks for, leaves it as it is.
-/

set_option autoImplicit false

namespace HostScript

theorem Span.source_append_source (text : Bytes) {a b c : Int} (hab : a ≤ b) (hbc : b ≤ c) :
    Span.source ⟨a, b⟩ text ++ Span.source ⟨b, c⟩ text = Span.source ⟨a, c⟩ text :=
  Bytes.slice_append_slice text (Int.toNat_le_toNat hab) (Int.toNat_le_toNat hbc)

namespace Scanner

/-- What can be asked of a scanner. -/
inductive Operation where
  | scan
  | peek
  | peekAt (n : Nat)
  | accept (p : Char → Bool)
  | acceptChar (c : Char)
  | acceptDigit
  | acceptSpace
  | acceptRun (p : Char → Bool)
  | acceptText (literal : String)
  | emit (kind : TokenKind)
  | ignore

/-- Whether an operation found what it asked for, the scanner after it, and the text that it took out of the
pending one. -/
structure Outcome where
  found : Bool
  scanner : Scanner
  taken : Bytes := []

namespace Operation

/-- Without another scanner the operation has failed. -/
def tried (s : Scanner) : Option Scanner → Outcome
  | some next => ⟨true, next, []⟩
  | none => ⟨false, s, []⟩

def perform (s : Scanner) : Operation → Outcome
  | .scan => tried s s.scan
  | .peek => ⟨s.peek.isSome, s, []⟩
  | .peekAt n => ⟨(s.peekAt n).isSome, s, []⟩
  | .accept p => tried s (s.accept p)
  | .acceptChar c => tried s (s.acceptChar c)
  | .acceptDigit => tried s s.acceptDigit
  | .acceptSpace => tried s s.acceptSpace
  | .acceptRun p => ⟨(s.acceptRun p).1 != 0, (s.acceptRun p).2, []⟩
  | .acceptText literal => tried s (s.acceptText (utf8 literal))
  | .emit kind => ⟨true, (s.emit kind).2, (s.emit kind).1.text⟩
  | .ignore => ⟨true, s.ignore, s.text⟩

/-- Whether an operation only looks at the runes before the scanner. -/
def looks : Operation → Bool
  | .peek | .peekAt _ => true
  | _ => false

end Operation

theorem advance_zero (s : Scanner) : s.advance 0 = s := by simp [advance]

theorem accept_cases (s : Scanner) (p : Char → Bool) : s.accept p = none ∨ s.accept p = some (s.advance 1) := by
  unfold accept
  split
  · split
    · exact .inr rfl
    · exact .inl rfl
  · exact .inl rfl

namespace Operation

variable {s : Scanner}

theorem tried_cases {next : Option Scanner} {n : Nat} (h : next = none ∨ next = some (s.advance n)) :
    ∃ found m, tried s next = ⟨found, s.advance m, []⟩ := by
  rcases h with rfl | rfl
  · exact ⟨false, 0, by rw [advance_zero]; rfl⟩
  · exact ⟨true, n, rfl⟩

/-- An operation scans some runes, or it takes the pending text out. -/
theorem perform_cases (s : Scanner) (op : Operation) :
    (∃ found n, op.perform s = ⟨found, s.advance n, []⟩) ∨ op.perform s = ⟨true, s.ignore, s.text⟩ := by
  cases op with
  | scan =>
    refine .inl (tried_cases (n := 1) ?_)
    unfold Scanner.scan
    split
    · exact .inl rfl
    · exact .inr rfl
  | peek => exact .inl ⟨_, 0, by rw [advance_zero]; rfl⟩
  | peekAt n => exact .inl ⟨_, 0, by rw [advance_zero]; rfl⟩
  | accept p => exact .inl (tried_cases (s.accept_cases p))
  | acceptChar c => exact .inl (tried_cases (s.accept_cases _))
  | acceptDigit => exact .inl (tried_cases (s.accept_cases _))
  | acceptSpace => exact .inl (tried_cases (s.accept_cases _))
  | acceptRun p => exact .inl ⟨_, _, rfl⟩
  | acceptText literal =>
    refine .inl (tried_cases (n := (utf8 literal).runes.length) ?_)
    unfold Scanner.acceptText
    split
    · exact .inr rfl
    · exact .inl rfl
  | emit kind => exact .inr rfl
  | ignore => exact .inr rfl

theorem tried_of_not_found {next : Option Scanner} (h : (tried s next).found = false) :
    tried s next = ⟨false, s, []⟩ := by
  cases next with
  | none => rfl
  | some next => cases h

theorem perform_unchanged {op : Operation} (h : op.looks = true ∨ (op.perform s).found = false) :
    (op.perform s).scanner = s ∧ (op.perform s).taken = [] := by
  cases op with
  | peek => exact ⟨rfl, rfl⟩
  | peekAt n => exact ⟨rfl, rfl⟩
  | acceptRun p =>
    have hnone : (s.acceptRun p).1 = 0 := by simpa [looks, perform] using h
    refine ⟨?_, rfl⟩
    change s.advance (s.acceptRun p).1 = s
    rw [hnone, advance_zero]
  | emit kind => simp [looks, perform] at h
  | ignore => simp [looks, perform] at h
  | _ =>
    have hfailed := tried_of_not_found (h.resolve_left Bool.false_ne_true)
    exact ⟨congrArg Outcome.scanner hfailed, congrArg Outcome.taken hfailed⟩

end Operation

/-- A scanner with the text that was taken out of it, emitted or ignored. -/
structure Trail where
  scanner : Scanner
  taken : Bytes

namespace Trail

def ofSpan (text : Bytes) (span : Span) : Trail := ⟨.ofSpan text span.start span.stop, []⟩

def follow (t : Trail) (op : Operation) : Trail :=
  ⟨(op.perform t.scanner).scanner, t.taken ++ (op.perform t.scanner).taken⟩

def followAll (t : Trail) (ops : List Operation) : Trail := ops.foldl follow t

end Trail

theorem ignore_advance (s : Scanner) (n : Nat) : (s.ignore.advance n).ignore = (s.advance n).ignore := by
  simp [ignore, advance, next, Rune.sizes_append, Int.add_assoc]

theorem ignore_ignore (s : Scanner) : s.ignore.ignore = s.ignore := by simp [ignore, next, Rune.sizes]

theorem text_advance (s : Scanner) (n : Nat) : (s.advance n).text = s.text ++ Rune.join (s.rest.take n) :=
  Rune.join_append _ _

/-- What has come of a span: nothing of it is lost behind the scanner, and the rest of it is still ahead. -/
structure Account (text : Bytes) (span : Span) (t : Trail) : Prop where
  start_le : span.start ≤ t.scanner.start
  behind : t.taken ++ t.scanner.text = Span.source ⟨span.start, t.scanner.next⟩ text
  ahead : t.scanner.ignore.Reads text span.stop

namespace Account

variable {text : Bytes} {span : Span} {t : Trail}

theorem next_le (h : Account text span t) : t.scanner.next ≤ span.stop := h.ahead.start_le_last

theorem advance (h : Account text span t) (n : Nat) : Account text span ⟨t.scanner.advance n, t.taken⟩ := by
  obtain ⟨hreads, hstart, hsource, -⟩ := h.ahead.pass n
  rw [ignore_advance] at hreads hstart hsource
  have hnext : t.scanner.next ≤ (t.scanner.advance n).ignore.start := by
    rw [hstart]
    exact Int.le_add_of_nonneg_right (Int.natCast_nonneg _)
  have hfirst : span.start ≤ t.scanner.next := Int.le_trans h.start_le t.scanner.start_le_next
  refine ⟨h.start_le, ?_, hreads⟩
  change t.taken ++ (t.scanner.advance n).text = _
  rw [text_advance, ← List.append_assoc, h.behind]
  exact hsource ▸ Span.source_append_source text hfirst hnext

theorem ignore (h : Account text span t) :
    Account text span ⟨t.scanner.ignore, t.taken ++ t.scanner.text⟩ where
  start_le := Int.le_trans h.start_le t.scanner.start_le_next
  behind := by
    have hnext : t.scanner.ignore.next = t.scanner.next := by simp [Scanner.ignore, next, Rune.sizes]
    rw [hnext, ← h.behind]
    exact List.append_nil _
  ahead := by
    rw [ignore_ignore]
    exact h.ahead

theorem follow (h : Account text span t) (op : Operation) : Account text span (t.follow op) := by
  unfold Trail.follow
  rcases op.perform_cases t.scanner with ⟨found, n, hop⟩ | hop
  · rw [hop, List.append_nil]
    exact h.advance n
  · rw [hop]
    exact h.ignore

theorem followAll (h : Account text span t) (ops : List Operation) : Account text span (t.followAll ops) := by
  induction ops generalizing t with
  | nil => exact h
  | cons op ops ih => exact ih (h.follow op)

theorem ofSpan (text : Bytes) (span : Span) : Account text (span.clamp text) (.ofSpan text span) := by
  have hreads := ofSpan_reads text span.start span.stop
  refine ⟨Int.le_refl _, ?_, ?_⟩
  · have hnext : (Trail.ofSpan text span).scanner.next = (span.clamp text).start := by
      simp [Trail.ofSpan, Scanner.ofSpan, next, Rune.sizes, Span.clamp]
    rw [hnext, Span.source_empty]
    rfl
  · have hignore : (Trail.ofSpan text span).scanner.ignore = .ofSpan text span.start span.stop := by
      simp [Trail.ofSpan, Scanner.ofSpan, Scanner.ignore, next, Rune.sizes]
    rw [hignore]
    exact hreads

theorem rest_eq (h : Account text span t) :
    t.scanner.rest = (Span.source ⟨t.scanner.next, span.stop⟩ text).runes := h.ahead.rest

/-- A literal is found where the rest of the span begins with it, and its runes are scanned, which take as
many bytes as the literal has. -/
theorem acceptText (h : Account text span t) (literal : String) :
    ((t.scanner.acceptText (utf8 literal)).isSome ↔
      utf8 literal <+: Span.source ⟨t.scanner.next, span.stop⟩ text) ∧
    ∀ s, t.scanner.acceptText (utf8 literal) = some s → s.start = t.scanner.start ∧
      s.text = t.scanner.text ++ utf8 literal ∧ s.next = t.scanner.next + (utf8 literal).length := by
  have hjoin : Rune.join t.scanner.rest = Span.source ⟨t.scanner.next, span.stop⟩ text := by
    rw [h.rest_eq, Bytes.join_runes]
  unfold Scanner.acceptText
  rw [hjoin]
  split
  · rename_i hfound
    obtain ⟨more, hmore⟩ := List.isPrefixOf_iff_prefix.mp hfound
    have htake : t.scanner.rest.take (utf8 literal).runes.length = (utf8 literal).runes := by
      rw [h.rest_eq, ← hmore, Bytes.runes_utf8_append, Bytes.runes_utf8, List.take_left]
    refine ⟨by simpa using List.isPrefixOf_iff_prefix.mp hfound, fun s hs => ?_⟩
    obtain rfl := Option.some.inj hs
    refine ⟨rfl, ?_, ?_⟩
    · rw [text_advance, htake, Bytes.join_runes]
    · simp only [next, Scanner.advance, htake, Rune.sizes_append, Bytes.sizes_runes]
      omega
  · rename_i hnot
    rw [List.isPrefixOf_iff_prefix] at hnot
    exact ⟨by simpa using hnot, fun s hs => by cases hs⟩

end Account

/-- A scanner stays in the part of its span that lies in the text, and accounts for every byte of it, after
any operations. -/
theorem operations_account (text : Bytes) (span : Span) (ops : List Operation) :
    let part := span.clamp text
    let t := (Trail.ofSpan text span).followAll ops
    let s := t.scanner
    (part.start ≤ s.start ∧ s.start ≤ s.next ∧ s.next ≤ part.stop) ∧
    t.taken ++ s.text = Span.source ⟨part.start, s.next⟩ text ∧
    s.rest = (Span.source ⟨s.next, part.stop⟩ text).runes ∧
    (∀ op : Operation, op.looks = true ∨ (op.perform s).found = false →
      (op.perform s).scanner = s ∧ (op.perform s).taken = []) ∧
    ∀ literal : String,
      ((s.acceptText (utf8 literal)).isSome ↔ utf8 literal <+: Span.source ⟨s.next, part.stop⟩ text) ∧
      ∀ s', s.acceptText (utf8 literal) = some s' → s'.start = s.start ∧
        s'.text = s.text ++ utf8 literal ∧ s'.next = s.next + (utf8 literal).length := by
  intro part t s
  have h : Account text part t := (Account.ofSpan text span).followAll ops
  exact ⟨⟨h.start_le, s.start_le_next, h.next_le⟩, h.behind, h.rest_eq,
    fun _ => Operation.perform_unchanged, h.acceptText⟩

/-- An invalid byte and characters of two bytes, the last of which is cut by a span that ends at offset 7. -/
def cutText : Bytes := utf8 "x" ++ [0xFF] ++ utf8 "ä*/é"

def cutOperations : List Operation :=
  [.scan, .emit .invalid, .acceptText "ä", .acceptDigit, .ignore, .peekAt 2, .acceptRun (· == '*')]

theorem operations_account_cutSpan :
    let t := (Trail.ofSpan cutText ⟨1, 7⟩).followAll cutOperations
    let s := t.scanner
    (t.taken = [0xFF, 0xC3, 0xA4] ∧ s.text = [0x2A] ∧ s.next = 5) ∧
    (1 ≤ s.start ∧ s.start ≤ s.next ∧ s.next ≤ 7) ∧
    t.taken ++ s.text = Span.source ⟨1, s.next⟩ cutText ∧
    (Operation.acceptDigit.perform s).found = false ∧ (Operation.acceptDigit.perform s).scanner = s ∧
    (∃ s', s.acceptText (utf8 "/") = some s' ∧ s'.text = s.text ++ utf8 "/" ∧ s'.next = 6) ∧
    ¬ (s.acceptText (utf8 "/é")).isSome := by
  intro t s
  obtain ⟨hplace, htexts, -, hlooks, hliteral⟩ := operations_account cutText ⟨1, 7⟩ cutOperations
  have hdigit : (Operation.acceptDigit.perform s).found = false := by decide +kernel
  have hslash : (s.acceptText (utf8 "/")).isSome := (hliteral "/").1.mpr (by decide +kernel)
  have hcut : ¬ utf8 "/é" <+: Span.source ⟨s.next, 7⟩ cutText := by decide +kernel
  obtain ⟨s', hs'⟩ := Option.isSome_iff_exists.mp hslash
  have hbehind := (hliteral "/").2 s' hs'
  have hnext : s.next = 5 := by decide +kernel
  refine ⟨⟨by decide +kernel, by decide +kernel, hnext⟩, hplace, htexts, hdigit, (hlooks _ (.inr hdigit)).1,
    ⟨s', hs', hbehind.2.1, ?_⟩, fun hsome => hcut ((hliteral "/é").1.mp hsome)⟩
  rw [hbehind.2.2]
  change s.next + _ = 6
  rw [hnext]
  rfl

end Scanner

end HostScript
