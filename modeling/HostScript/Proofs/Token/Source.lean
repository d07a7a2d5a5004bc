import HostScript.Parse
import HostScript.Proofs.Token.Tiling
import HostScript.Token.Source

/-!
What a token source gives, in whatever order it is asked. To look ahead takes tokens from the scanner, but
what is still to come stays the same, and so does what the counters come to in the end. Only a scan moves the
source on, by one code token.
-/

set_option autoImplicit false

namespace HostScript

theorem Lexer.filter_tokens (text : Bytes) (span : Span) :
    (tokens text span.start span.stop).filter (·.kind ≠ .comment)
      = Parse.codeTokens (tokens text span.start span.stop) ++ [endToken (span.clamp text).stop] := by
  have htile := tokensFrom_tiling (Scanner.ofSpan_reads text span.start span.stop)
  obtain ⟨body, hbody, hcode⟩ := htile.ends
  have hsame : body.filter (·.kind ≠ .comment) = body.filter fun t => t.kind != .comment && t.kind != .eof := by
    refine List.filter_congr fun t ht => ?_
    rw [Bool.eq_iff_iff]
    simp [hcode t ht]
  rw [tokens, hbody, Parse.codeTokens, List.filter_append, List.filter_append, hsame]
  simp [endToken, Span.clamp]

namespace TokenSource

/-- The comments in front of the next code token are passed over and counted. -/
theorem tokensFrom_nextCode (s : Scanner) : ∃ skipped : List Token,
    (∀ t ∈ skipped, t.kind = .comment) ∧ skipped.length = (nextCode s).2.2 ∧ (nextCode s).1.kind ≠ .comment ∧
      Lexer.tokensFrom s = skipped ++ (nextCode s).1 ::
        (if (nextCode s).1.kind = .eof then [] else Lexer.tokensFrom (nextCode s).2.1) := by
  fun_induction nextCode s with
  | case1 s hcomment token rest comments heq ih =>
    obtain ⟨skipped, hall, hlen, hcode, hsplit⟩ := ih
    rw [heq] at hlen hcode hsplit
    refine ⟨(Lexer.readToken s).1 :: skipped, List.forall_mem_cons.mpr ⟨hcomment, hall⟩, ?_, hcode, ?_⟩
    · rw [List.length_cons, hlen]
    · rw [Lexer.tokensFrom, if_neg (by rw [hcomment]; decide), hsplit, List.cons_append]
  | case2 s hcode =>
    refine ⟨[], by simp, rfl, hcode, ?_⟩
    rw [Lexer.tokensFrom]
    split
    · rfl
    · rfl

/-- The tokens that are still to be taken from the scanner. There are none behind the end token. -/
def unread (src : TokenSource) : List Token :=
  if src.peeked.any (·.kind = .eof) then [] else Lexer.tokensFrom src.scanner

/-- The code tokens that are still to come, and the end token behind them. -/
def upcoming (src : TokenSource) : List Token :=
  src.peeked.toList ++ src.unread.filter (·.kind ≠ .comment)

def countInAll (src : TokenSource) : Nat := src.count + src.unread.countP (·.kind ≠ .eof)

def commentsInAll (src : TokenSource) : Nat := src.comments + src.unread.countP (·.kind = .comment)

/-- What a look ahead leaves as it is. -/
structure LooksAhead (src next : TokenSource) : Prop where
  token : next.token = src.token
  upcoming : next.upcoming = src.upcoming
  count : next.countInAll = src.countInAll
  comments : next.commentsInAll = src.commentsInAll

variable {src : TokenSource}

theorem peek_of_peeked {t : Token} (h : src.peeked = some t) : src.peek = (t, src) := by simp [peek, h]

theorem peek_peeked (src : TokenSource) : src.peek.2.peeked = some src.peek.1 := by
  unfold peek
  split
  · assumption
  · rfl

theorem peek_peek (src : TokenSource) : src.peek.2.peek = src.peek := peek_of_peeked (peek_peeked src)

theorem scan_peek (src : TokenSource) : src.peek.2.scan = src.scan := by simp only [scan, peek_peek]

/-- The first look ahead takes the comments and the next code token from the scanner, and counts them. -/
theorem peek_unread (hp : src.peeked = none) : ∃ skipped : List Token,
    (∀ t ∈ skipped, t.kind = .comment) ∧ src.peek.1.kind ≠ .comment ∧ src.peek.2.token = src.token ∧
      src.unread = skipped ++ src.peek.1 :: src.peek.2.unread ∧
      src.peek.2.comments = src.comments + skipped.length ∧
      src.peek.2.count = src.count + skipped.length + if src.peek.1.kind = .eof then 0 else 1 := by
  obtain ⟨skipped, hall, hlen, hcode, hsplit⟩ := tokensFrom_nextCode src.scanner
  have hread : src.unread = Lexer.tokensFrom src.scanner := by simp [unread, hp]
  refine ⟨skipped, hall, ?_⟩
  rw [hread, hsplit, hlen]
  simp only [peek, hp, unread, Option.any_some, decide_eq_true_eq]
  refine ⟨hcode, trivial, trivial, trivial, ?_⟩
  split
  · rfl
  · exact (Nat.add_assoc _ _ _).symm

theorem peek_looksAhead (src : TokenSource) : src.LooksAhead src.peek.2 := by
  cases hp : src.peeked with
  | some t =>
    rw [peek_of_peeked hp]
    exact ⟨rfl, rfl, rfl, rfl⟩
  | none =>
    obtain ⟨skipped, hall, hcode, htoken, hunread, hcomments, hcount⟩ := peek_unread hp
    have hnone : skipped.filter (·.kind ≠ .comment) = [] :=
      List.filter_eq_nil_iff.mpr fun u hu => by simp [hall u hu]
    have hread : skipped.countP (·.kind ≠ .eof) = skipped.length :=
      List.countP_eq_length.mpr fun u hu => by simp [hall u hu]
    have hskipped : skipped.countP (·.kind = .comment) = skipped.length :=
      List.countP_eq_length.mpr fun u hu => by simp [hall u hu]
    refine ⟨htoken, ?_, ?_, ?_⟩
    · rw [upcoming, upcoming, hunread, hp, peek_peeked, List.filter_append, hnone,
        List.filter_cons_of_pos (by simpa using hcode)]
      rfl
    · rw [countInAll, countInAll, hunread, hcount, List.countP_append, List.countP_cons, hread]
      by_cases he : src.peek.1.kind = .eof
      · simp only [he, if_true, decide_false, ne_eq, not_true_eq_false, Bool.false_eq_true, if_false]
        omega
      · simp only [he, if_false, ne_eq, not_false_eq_true, decide_true, if_true]
        omega
    · rw [commentsInAll, commentsInAll, hunread, hcomments, List.countP_append, List.countP_cons, hskipped,
        if_neg (by simpa using hcode)]
      omega

theorem peek_of_upcoming {t : Token} {rest : List Token} (h : src.upcoming = t :: rest) : src.peek.1 = t := by
  rw [← (peek_looksAhead src).upcoming, upcoming, peek_peeked] at h
  exact (List.cons.inj h).1

/-- A scan makes the next code token current and goes past it. -/
theorem scan_of_code {t : Token} {rest : List Token} (h : src.upcoming = t :: rest) (ht : t.kind ≠ .eof) :
    src.scan.1 = true ∧ src.scan.2.token = some t ∧ src.scan.2.upcoming = rest ∧
      src.scan.2.countInAll = src.countInAll ∧ src.scan.2.commentsInAll = src.commentsInAll := by
  have hpeek := peek_of_upcoming h
  have hahead := peek_looksAhead src
  have hpeeked : src.peek.2.peeked = some t := hpeek ▸ peek_peeked src
  have hscan : src.scan = (true, { src.peek.2 with token := some t, peeked := none }) := by
    rw [← hpeek]
    exact if_neg (hpeek.symm ▸ ht)
  -- The token was taken from the scanner and counted when it was looked at.
  have hunread : src.scan.2.unread = src.peek.2.unread := by simp [hscan, unread, hpeeked, ht]
  have hupcoming : t :: src.peek.2.unread.filter (·.kind ≠ .comment) = t :: rest := by
    rw [← h, ← hahead.upcoming, upcoming, hpeeked]
    rfl
  refine ⟨by rw [hscan], by rw [hscan], ?_, ?_, ?_⟩
  · rw [upcoming, hunread, (List.cons.inj hupcoming).2, hscan]
    rfl
  · rw [← hahead.count, countInAll, hunread, hscan]
    rfl
  · rw [← hahead.comments, commentsInAll, hunread, hscan]
    rfl

/-- A scan makes the end token current and stays in front of it. -/
theorem scan_of_end {t : Token} {rest : List Token} (h : src.upcoming = t :: rest) (ht : t.kind = .eof) :
    src.scan = (false, { src.peek.2 with token := some t }) := by
  have hpeek := peek_of_upcoming h
  rw [← hpeek]
  exact if_pos (hpeek.symm ▸ ht)

/-- What can be asked of a token source. -/
inductive Operation where
  | peek | scan | isEof
  deriving DecidableEq

def Operation.perform (src : TokenSource) : Operation → TokenSource
  | .peek => src.peek.2
  | .scan => src.scan.2
  | .isEof => src.isEof.2

theorem Operation.perform_of_ne_scan {op : Operation} (h : op ≠ .scan) (src : TokenSource) :
    op.perform src = src.peek.2 := by
  cases op with
  | peek => rfl
  | isEof => rfl
  | scan => exact absurd rfl h

/-- A source with what its scans have answered so far, and the tokens that those with the answer yes have
made current. -/
structure Reading where
  source : TokenSource
  answers : List Bool
  scanned : List Token

namespace Reading

def ofSpan (text : Bytes) (span : Span) : Reading := ⟨.ofSpan text span.start span.stop, [], []⟩

def follow (r : Reading) : Operation → Reading
  | .scan => ⟨r.source.scan.2, r.answers ++ [r.source.scan.1],
      r.scanned ++ if r.source.scan.1 then r.source.scan.2.token.toList else []⟩
  | op => { r with source := op.perform r.source }

def followAll (r : Reading) (ops : List Operation) : Reading := ops.foldl follow r

end Reading

/-- Where a source has come to after a number of scans, in the tokens of its span, which have `code` among them
and end with `last`. -/
structure Account (tokens code : List Token) (last : Token) (scans : Nat) (r : Reading) : Prop where
  code_eq : code = Parse.codeTokens tokens
  last_kind : last.kind = .eof
  scanned : r.scanned = code.take scans
  answers : r.answers = (List.range scans).map fun i => decide (i < code.length)
  upcoming : r.source.upcoming = code.drop scans ++ [last]
  count : r.source.countInAll = tokens.countP (·.kind ≠ .eof)
  comments : r.source.commentsInAll = tokens.countP (·.kind = .comment)
  ended : code.length < scans → r.source.token = some last ∧ r.source.peeked = some last

namespace Account

variable {tokens code : List Token} {last : Token} {scans : Nat} {r : Reading}

theorem ofSpan (text : Bytes) (span : Span) :
    Account (Lexer.tokens text span.start span.stop) (Parse.codeTokens (Lexer.tokens text span.start span.stop))
      (Lexer.endToken (span.clamp text).stop) 0 (.ofSpan text span) where
  code_eq := rfl
  last_kind := rfl
  scanned := rfl
  answers := rfl
  upcoming := Lexer.filter_tokens text span
  count := Nat.zero_add _
  comments := Nat.zero_add _
  ended h := absurd h (Nat.not_lt_zero _)

theorem kind_ne_eof (h : Account tokens code last scans r) {t : Token} (ht : t ∈ code) : t.kind ≠ .eof := by
  rw [h.code_eq] at ht
  have hkind := List.of_mem_filter ht
  simp only [Bool.and_eq_true, bne_iff_ne] at hkind
  exact hkind.2

/-- A code token comes next, or the end token alone is left. -/
theorem upcoming_cases (h : Account tokens code last scans r) :
    (∃ hlt : scans < code.length, r.source.upcoming = code[scans] :: (code.drop (scans + 1) ++ [last])) ∨
      code.length ≤ scans ∧ r.source.upcoming = [last] := by
  rw [h.upcoming]
  by_cases hlt : scans < code.length
  · exact .inl ⟨hlt, by rw [List.drop_eq_getElem_cons hlt, List.cons_append]⟩
  · have hle := Nat.le_of_not_lt hlt
    exact .inr ⟨hle, by rw [List.drop_eq_nil_of_le hle, List.nil_append]⟩

theorem peek_eq (h : Account tokens code last scans r) : r.source.peek.1 = code.getD scans last := by
  rcases h.upcoming_cases with ⟨hlt, hupcoming⟩ | ⟨hle, hupcoming⟩
  · rw [peek_of_upcoming hupcoming]
    simp [hlt]
  · rw [peek_of_upcoming hupcoming]
    simp [hle]

theorem isEof_eq (h : Account tokens code last scans r) :
    r.source.isEof.1 = decide (code.length ≤ scans) := by
  change (r.source.peek.1.kind == .eof) = _
  rcases h.upcoming_cases with ⟨hlt, hupcoming⟩ | ⟨hle, hupcoming⟩
  · rw [peek_of_upcoming hupcoming, decide_eq_false (Nat.not_le.mpr hlt)]
    exact beq_eq_false_iff_ne.mpr (h.kind_ne_eof (List.getElem_mem hlt))
  · rw [peek_of_upcoming hupcoming, decide_eq_true hle, h.last_kind]
    rfl

theorem peek (h : Account tokens code last scans r) :
    Account tokens code last scans { r with source := r.source.peek.2 } := by
  have hahead := peek_looksAhead r.source
  refine ⟨h.code_eq, h.last_kind, h.scanned, h.answers, hahead.upcoming.trans h.upcoming,
    hahead.count.trans h.count, hahead.comments.trans h.comments, fun hend => ?_⟩
  obtain ⟨htoken, hpeeked⟩ := h.ended hend
  exact ⟨hahead.token.trans htoken, by rw [peek_of_peeked hpeeked]; exact hpeeked⟩

theorem answers_succ (h : Account tokens code last scans r) {found : Bool}
    (hfound : found = decide (scans < code.length)) :
    r.answers ++ [found] = (List.range (scans + 1)).map fun i => decide (i < code.length) := by
  rw [List.range_succ, List.map_append, ← h.answers, hfound]
  rfl

theorem scan (h : Account tokens code last scans r) : Account tokens code last (scans + 1) (r.follow .scan) := by
  rcases h.upcoming_cases with ⟨hlt, hupcoming⟩ | ⟨hle, hupcoming⟩
  · obtain ⟨hfound, htoken, hrest, hcount, hcomments⟩ :=
      scan_of_code hupcoming (h.kind_ne_eof (List.getElem_mem hlt))
    refine ⟨h.code_eq, h.last_kind, ?_, h.answers_succ (hfound.trans (decide_eq_true hlt).symm), hrest,
      hcount.trans h.count, hcomments.trans h.comments, fun hend => absurd hend (Nat.not_lt.mpr hlt)⟩
    simp only [Reading.follow, hfound, htoken, h.scanned]
    exact List.take_append_getElem hlt
  · have hscan := scan_of_end hupcoming h.last_kind
    have hpeeked : r.source.peek.2.peeked = some last := by
      rw [peek_peeked, peek_of_upcoming hupcoming]
    have hfollow : r.follow .scan
        = ⟨{ r.source.peek.2 with token := some last }, r.answers ++ [false], r.scanned⟩ := by
      simp [Reading.follow, hscan]
    have hpeek := h.peek
    have hle' := Nat.le_succ_of_le hle
    rw [hfollow]
    refine ⟨h.code_eq, h.last_kind, ?_, h.answers_succ (decide_eq_false (Nat.not_lt.mpr hle)).symm, ?_, hpeek.count,
      hpeek.comments, fun _ => ⟨rfl, hpeeked⟩⟩
    · rw [h.scanned, List.take_of_length_le hle, List.take_of_length_le hle']
    · rw [List.drop_eq_nil_of_le hle']
      exact (peek_looksAhead r.source).upcoming.trans hupcoming

theorem follow (h : Account tokens code last scans r) (op : Operation) :
    Account tokens code last (scans + [op].count .scan) (r.follow op) := by
  cases op with
  | peek => exact h.peek
  | scan => exact h.scan
  | isEof => exact h.peek

theorem followAll (h : Account tokens code last scans r) (ops : List Operation) :
    Account tokens code last (scans + ops.count .scan) (r.followAll ops) := by
  induction ops generalizing scans r with
  | nil => exact h
  | cons op ops ih =>
    have hrest := ih (h.follow op)
    rwa [Nat.add_assoc, ← List.count_append] at hrest

/-- A scan has answered no only if there was no code token left for it. -/
theorem ended_of_failed (h : Account tokens code last scans r) (hfailed : false ∈ r.answers) :
    code.length < scans := by
  rw [h.answers] at hfailed
  obtain ⟨i, hi, hlt⟩ := List.mem_map.mp hfailed
  have hscans := List.mem_range.mp hi
  have hnot := of_decide_eq_false hlt
  omega

/-- At the end all tokens have been counted, and it stays the end. -/
theorem at_end (h : Account tokens code last scans r) (hend : code.length < scans) :
    r.source.scan.1 = false ∧ r.source.token = some last ∧
      r.source.count = tokens.countP (·.kind ≠ .eof) ∧ r.source.comments = tokens.countP (·.kind = .comment) := by
  obtain ⟨htoken, hpeeked⟩ := h.ended hend
  have hunread : r.source.unread = [] := by simp [unread, hpeeked, h.last_kind]
  have hupcoming : r.source.upcoming = [last] := by simp [TokenSource.upcoming, hpeeked, hunread]
  have hcount := h.count
  have hcomments := h.comments
  rw [countInAll, hunread] at hcount
  rw [commentsInAll, hunread] at hcomments
  exact ⟨congrArg Prod.fst (scan_of_end hupcoming h.last_kind), htoken, hcount, hcomments⟩

end Account

/-- The tokens that the scans make current are the code tokens of the span, in their order, each of them once,
and when there are none left every scan answers no. What is asked between two scans shows the next token and
does not change what the second one does. The first scan that answers no finds every token counted. -/
theorem scanned_account (text : Bytes) (span : Span) (ops : List Operation) :
    let tokens := Lexer.tokens text span.start span.stop
    let code := Parse.codeTokens tokens
    let last := Lexer.endToken (span.clamp text).stop
    let scans := ops.count .scan
    let r := (Reading.ofSpan text span).followAll ops
    let src := r.source
    r.scanned = code.take scans ∧
    r.answers = (List.range scans).map (fun i => decide (i < code.length)) ∧
    (src.peek.1 = code.getD scans last ∧ src.isEof.1 = decide (code.length ≤ scans)) ∧
    (∀ op ≠ Operation.scan, (op.perform src).scan = src.scan ∧ (op.perform src).token = src.token) ∧
    (false ∈ r.answers → src.scan.1 = false ∧ src.token = some last ∧
      src.count = tokens.countP (·.kind ≠ .eof) ∧ src.comments = tokens.countP (·.kind = .comment)) := by
  intro tokens code last scans r src
  have h : Account tokens code last scans r := by
    have hall := (Account.ofSpan text span).followAll ops
    rwa [Nat.zero_add] at hall
  refine ⟨h.scanned, h.answers, ⟨h.peek_eq, h.isEof_eq⟩, fun op hop => ?_,
    fun hfailed => h.at_end (h.ended_of_failed hfailed)⟩
  rw [Operation.perform_of_ne_scan hop]
  exact ⟨scan_peek src, (peek_looksAhead src).token⟩

def commented : Bytes := utf8 "-a//x\n(1)/*y*/z"

def commentedOperations : List Operation :=
  [.isEof, .scan, .peek, .peek, .scan, .scan, .isEof, .peek, .scan, .peek, .scan, .isEof, .scan, .peek]

theorem scanned_account_commented :
    let r := (Reading.ofSpan commented ⟨1, 14⟩).followAll commentedOperations
    r.scanned.map (·.text) = [utf8 "a", utf8 "(", utf8 "1", utf8 ")"] ∧
      r.answers = [true, true, true, true, false, false] ∧
      (Operation.peek ≠ .scan ∧ (Operation.peek.perform r.source).scan = r.source.scan) ∧
      false ∈ r.answers ∧ r.source.scan.1 = false ∧ r.source.token = some ⟨.eof, [], ⟨14, 14⟩⟩ ∧
      r.source.count = 6 ∧ r.source.comments = 2 := by
  intro r
  obtain ⟨hscanned, hanswers, -, hlooks, hend⟩ := scanned_account commented ⟨1, 14⟩ commentedOperations
  have hcode : (Parse.codeTokens (Lexer.tokens commented 1 14)).map (·.text)
      = [utf8 "a", utf8 "(", utf8 "1", utf8 ")"] := by decide +kernel
  have hlen : (Parse.codeTokens (Lexer.tokens commented 1 14)).length = 4 := by
    simpa using congrArg List.length hcode
  have hall : r.answers = [true, true, true, true, false, false] := hanswers.trans (by rw [hlen]; decide)
  have hfailed : false ∈ r.answers := by simp [hall]
  obtain ⟨hscan, htoken, hcount, hcomments⟩ := hend hfailed
  refine ⟨?_, hall, ⟨by decide, (hlooks .peek (by decide)).1⟩, hfailed, hscan, htoken, hcount.trans ?_,
    hcomments.trans ?_⟩
  · rw [show r.scanned = _ from hscanned, List.take_of_length_le (hlen.le.trans (by decide)), hcode]
  · decide +kernel
  · decide +kernel

end TokenSource

end HostScript
