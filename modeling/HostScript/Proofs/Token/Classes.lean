import HostScript.Proofs.Token.Tiling

/-!
What the tokens of each kind look like. The classes are stated over the characters of a token and
those that follow it in the span, without the counts by which the lexer moves.
-/

set_option autoImplicit false

namespace HostScript

def Bytes.chars (bs : Bytes) : List Char := bs.runes.map Rune.char

namespace Lexer

/-- Whatever comes next does not satisfy the predicate. -/
def EndsBefore (p : Char → Bool) (next : List Char) : Prop := ∀ c ∈ next.head?, p c = false

structure IsIdentifier (cs next : List Char) : Prop where
  spelling : ∃ c body, cs = c :: body ∧ isWordStart c = true ∧ ∀ d ∈ body, isWord d = true
  longest : EndsBefore isWord next

structure IsDigits (cs : List Char) : Prop where
  ne_nil : cs ≠ []
  digits : ∀ c ∈ cs, isDigit c = true

inductive IsNumber (cs next : List Char) : Prop where
  | whole : IsDigits cs → EndsBefore isDigit next →
      (∀ d rest, next = '.' :: d :: rest → isDigit d = false) → IsNumber cs next
  | fraction {front back : List Char} : cs = front ++ '.' :: back → IsDigits front → IsDigits back →
      EndsBefore isDigit next → IsNumber cs next

/-- No closing mark of a block comment occurs in the characters. -/
def Unclosed (cs : List Char) : Prop := ¬ ['*', '/'] <:+: cs

inductive IsComment (cs next : List Char) : Prop where
  | line {body : List Char} : cs = '/' :: '/' :: body → '\n' ∉ body →
      EndsBefore (· != '\n') next → IsComment cs next
  -- The body may end in an asterisk of its own, so it is the mark's asterisk that is left in place.
  | block {body : List Char} : cs = '/' :: '*' :: (body ++ ['*', '/']) → Unclosed (body ++ ['*']) →
      IsComment cs next

structure IsOpenComment (cs next : List Char) : Prop where
  spelling : ∃ body, cs = '/' :: '*' :: body ∧ Unclosed body
  reaches_end : next = []

/-- The characters that no backslash protects. -/
def bare : List Char → List Char
  | [] => []
  | [c] => [c]
  | c :: d :: cs => if c = '\\' then bare cs else c :: bare (d :: cs)

/-- A literal ends at the first quote that is not protected. -/
structure IsQuoted (quote : Char) (body : List Char) : Prop where
  one_line : '\n' ∉ body
  inner : quote ∉ bare body
  closing : quote ∈ bare (body ++ [quote])

structure IsOpenQuoted (quote : Char) (body next : List Char) : Prop where
  one_line : '\n' ∉ body
  inner : quote ∉ bare body
  reaches_end : EndsBefore (· != '\n') next

theorem bare_cons {c : Char} (h : c ≠ '\\') (cs : List Char) : bare (c :: cs) = c :: bare cs := by
  cases cs with
  | nil => rfl
  | cons d cs => rw [bare, if_neg h]

theorem bare_escape (d : Char) (cs : List Char) : bare ('\\' :: d :: cs) = bare cs := by
  rw [bare, if_pos rfl]

theorem endsBefore_run (p : Char → Bool) (rs : List Rune) :
    EndsBefore p ((rs.drop (Scanner.run p rs)).map Rune.char) := by
  obtain ⟨_, hstop⟩ := Scanner.run_spec p rs
  intro c hc
  cases hd : rs.drop (Scanner.run p rs) with
  | nil => simp [hd] at hc
  | cons r ts =>
    rw [hd] at hc
    cases Option.mem_some.mp hc
    exact hstop r ts hd

theorem run_chars (p : Char → Bool) (rs : List Rune) :
    ∀ c ∈ (rs.take (Scanner.run p rs)).map Rune.char, p c = true := by
  intro c hc
  obtain ⟨r, hr, rfl⟩ := List.mem_map.mp hc
  exact (Scanner.run_spec p rs).1 r hr

theorem unclosed_cons {c : Char} {cs : List Char} :
    Unclosed (c :: cs) ↔ ¬ (c = '*' ∧ cs.head? = some '/') ∧ Unclosed cs := by
  rw [Unclosed, List.infix_cons_iff, not_or, Unclosed, List.cons_prefix_cons]
  cases cs with
  | nil => simp
  | cons d cs => simp [eq_comm]

theorem commentLength?_cons (r : Rune) (rs : List Rune) :
    commentLength? (r :: rs) =
      if r.char = '*' ∧ (rs.map Rune.char).head? = some '/' then some 2
      else (commentLength? rs).map (· + 1) := by
  cases rs with
  | nil => simp [commentLength?]
  | cons q qs =>
    by_cases hr : r.char = '*'
    · simp [commentLength?, hr]
    · simp [commentLength?, hr]

theorem commentLength?_none {rs : List Rune} (h : commentLength? rs = none) :
    Unclosed (rs.map Rune.char) := by
  induction rs with
  | nil => simp [Unclosed]
  | cons r rs ih =>
    rw [commentLength?_cons] at h
    split at h
    · cases h
    · rename_i hmark
      exact unclosed_cons.mpr ⟨hmark, ih (by simpa using h)⟩

theorem commentLength?_some {rs : List Rune} {n : Nat} (h : commentLength? rs = some n) :
    ∃ body, (rs.take n).map Rune.char = body ++ ['*', '/'] ∧ Unclosed (body ++ ['*']) := by
  induction rs generalizing n with
  | nil => cases h
  | cons r rs ih =>
    rw [commentLength?_cons] at h
    split at h
    · rename_i hmark
      cases h
      cases rs with
      | nil => simp at hmark
      | cons q qs =>
        have hq : q.char = '/' := by simpa using hmark.2
        exact ⟨[], by simp [hmark.1, hq], fun h => absurd h.length_le (by decide)⟩
    · rename_i hmark
      obtain ⟨m, hm, rfl⟩ := Option.map_eq_some_iff.mp h
      obtain ⟨body, htake, hbody⟩ := ih hm
      refine ⟨r.char :: body, by simp [htake], ?_⟩
      refine unclosed_cons.mpr ⟨fun hstart => hmark ⟨hstart.1, ?_⟩, hbody⟩
      -- What follows the first character of the body follows it in the comment as well.
      cases body with
      | nil => exact absurd hstart.2 (by decide)
      | cons b body =>
        cases rs with
        | nil => simp at htake
        | cons q qs =>
          cases m with
          | zero => simp at htake
          | succ m =>
            have hq : q.char = b := by simpa using (List.cons.inj htake).1
            simpa [hq] using hstart.2

/-- What the lexer passes over between two quotes: plain characters, and backslashes each with the
character it protects. -/
inductive Passed (quote : Char) : List Char → Prop where
  | nil : Passed quote []
  | plain {c : Char} {cs : List Char} : c ≠ '\n' → c ≠ quote → c ≠ '\\' → Passed quote cs →
      Passed quote (c :: cs)
  | escape {c : Char} {cs : List Char} : c ≠ '\n' → Passed quote cs → Passed quote ('\\' :: c :: cs)

theorem Passed.not_newline {quote : Char} {cs : List Char} (h : Passed quote cs) : '\n' ∉ cs := by
  induction h with
  | nil => simp
  | plain hn _ _ _ ih => simp [hn.symm, ih]
  | escape hn _ ih => simp [hn.symm, ih]

theorem Passed.bare_append {quote : Char} {cs : List Char} (h : Passed quote cs) (ds : List Char) :
    bare (cs ++ ds) = bare cs ++ bare ds := by
  induction h with
  | nil => rfl
  | plain _ _ hb _ ih => simp only [List.cons_append, bare_cons hb, ih]
  | escape _ _ ih => simp only [List.cons_append, bare_escape, ih]

theorem Passed.quote_not_mem {quote : Char} {cs : List Char} (h : Passed quote cs) :
    quote ∉ bare cs := by
  induction h with
  | nil => simp [bare]
  | plain _ hq hb _ ih => simp [bare_cons hb, hq.symm, ih]
  | escape _ _ ih => simpa only [bare_escape] using ih

/-- How a literal goes on after its opening quote: up to a closing quote, or up to the end of the line,
where a backslash may be left that protects nothing. -/
theorem quotedLength_spec (quote : Char) (rs : List Rune) :
    ∃ body, Passed quote body ∧
      (if (quotedLength quote rs).2 then
        (rs.take (quotedLength quote rs).1).map Rune.char = body ++ [quote]
      else
        ((rs.take (quotedLength quote rs).1).map Rune.char = body ∨
          '\\' ≠ quote ∧ (rs.take (quotedLength quote rs).1).map Rune.char = body ++ ['\\']) ∧
        EndsBefore (· != '\n') ((rs.drop (quotedLength quote rs).1).map Rune.char)) := by
  fun_induction quotedLength quote rs with
  | case1 => exact ⟨[], .nil, by simp [EndsBefore]⟩
  | case2 r rs hn => exact ⟨[], .nil, by simp [EndsBefore, hn]⟩
  | case3 r rs hn hq => exact ⟨[], .nil, by simp [hq]⟩
  | case4 r hn hq hb s rs hs =>
    have hquote : '\\' ≠ quote := hb ▸ hq
    exact ⟨[], .nil, by simp [EndsBefore, hs, hb, hquote]⟩
  | case5 r hn hq hb s rs hs n closed heq ih =>
    obtain ⟨body, hbody, htaken⟩ := ih
    refine ⟨'\\' :: s.char :: body, .escape hs hbody, ?_⟩
    simpa [heq, hb] using htaken
  | case6 r hn hq hb =>
    have hquote : '\\' ≠ quote := hb ▸ hq
    exact ⟨[], .nil, by simp [EndsBefore, hb, hquote]⟩
  | case7 r rs hn hq hb n closed heq ih =>
    obtain ⟨body, hbody, htaken⟩ := ih
    refine ⟨r.char :: body, .plain hn hq hb hbody, ?_⟩
    simpa [heq] using htaken

theorem quotedLength_closed {quote : Char} {rs : List Rune} {n : Nat}
    (h : quotedLength quote rs = (n, true)) :
    ∃ body, (rs.take n).map Rune.char = body ++ [quote] ∧ IsQuoted quote body := by
  obtain ⟨body, hbody, htaken⟩ := quotedLength_spec quote rs
  simp only [h, if_true] at htaken
  refine ⟨body, htaken, hbody.not_newline, hbody.quote_not_mem, ?_⟩
  simp [hbody.bare_append, bare]

theorem quotedLength_open {quote : Char} {rs : List Rune} {n : Nat}
    (h : quotedLength quote rs = (n, false)) :
    IsOpenQuoted quote ((rs.take n).map Rune.char) ((rs.drop n).map Rune.char) := by
  obtain ⟨body, hbody, htaken⟩ := quotedLength_spec quote rs
  simp only [h, Bool.false_eq_true, if_false] at htaken
  obtain ⟨htaken | ⟨hq, htaken⟩, hend⟩ := htaken
  · rw [htaken]
    exact ⟨hbody.not_newline, hbody.quote_not_mem, hend⟩
  · rw [htaken]
    refine ⟨by simp [hbody.not_newline], ?_, hend⟩
    simp [hbody.bare_append, hbody.quote_not_mem, bare, hq.symm]

/-- A slash is an operator only where it begins no comment. -/
structure IsOperator (cs next : List Char) : Prop where
  spelling : ∃ c ∈ operators, cs = [c]
  no_comment : cs = ['/'] → EndsBefore (fun c => c == '/' || c == '*') next

/-- The class of a token of a kind, by its text, its characters and the characters that follow it. -/
def InClass (text : Bytes) (cs next : List Char) : TokenKind → Prop
  | .identifier => IsIdentifier cs next
  | .number => IsNumber cs next
  | .comment => IsComment cs next
  | .string => ∃ body, cs = '"' :: (body ++ ['"']) ∧ IsQuoted '"' body
  | .char => ∃ body, cs = '\'' :: (body ++ ['\'']) ∧ IsQuoted '\'' body
  | .operator => IsOperator cs next
  | .error =>
    text = utf8 unterminatedComment ∧ IsOpenComment cs next ∨
      text = utf8 unterminatedString ∧ (∃ body, cs = '"' :: body ∧ IsOpenQuoted '"' body next) ∨
      text = utf8 unterminatedChar ∧ ∃ body, cs = '\'' :: body ∧ IsOpenQuoted '\'' body next
  | .invalid => ∃ c, cs = [c] ∧ isSpace c = false ∧ Foreign c
  | .eof => cs = [] ∧ next = []
  | kind => ∃ c, cs = [c] ∧ single? c = some kind

theorem inClass_single {c : Char} {kind : TokenKind} (h : single? c = some kind) (text : Bytes)
    (next : List Char) : InClass text [c] next kind := by
  have hc : ∃ d, [c] = [d] ∧ single? d = some kind := ⟨c, rfl, h⟩
  unfold single? at h
  split at h <;> simp only [Option.some.injEq, reduceCtorEq] at h <;> subst h <;> exact hc

theorem isDigits_run {c : Char} (h : isDigit c = true) (rs : List Rune) :
    IsDigits (c :: (rs.take (Scanner.run isDigit rs)).map Rune.char) :=
  ⟨by simp, List.forall_mem_cons.mpr ⟨h, run_chars isDigit rs⟩⟩

theorem fraction_split {rest rs : List Rune} {p d : Rune} {n : Nat} (h : rest.drop n = p :: d :: rs)
    (m : Nat) :
    rest.take (n + 2 + m) = rest.take n ++ p :: d :: rs.take m ∧
      rest.drop (n + 2 + m) = rs.drop m := by
  have hm : n + 2 + m = n + (m + 2) := by omega
  rw [hm, List.take_add, ← List.drop_drop, h]
  exact ⟨rfl, rfl⟩

/-- Every rule of the grammar makes a token of its class, and a longest one. -/
theorem Lexes.inClass {c : Char} {rest : List Rune} {x : Lexeme} (h : Lexes c rest x)
    (hc : isSpace c = false) {text : Bytes} (ht : ∀ m ∈ x.message, text = utf8 m) :
    InClass text (c :: (rest.take x.more).map Rune.char) ((rest.drop x.more).map Rune.char)
      x.kind := by
  cases h with
  | single hk => exact inClass_single hk text _
  | @lineComment r rs hslash hrest hr =>
    subst hslash hrest
    simp only [Nat.add_comm 1, List.take_succ_cons, List.map_cons, List.drop_succ_cons, hr]
    refine .line rfl (fun hmem => ?_) (endsBefore_run _ rs)
    simpa using run_chars _ rs _ hmem
  | @blockComment r rs n hslash hrest hr hn =>
    subst hslash hrest
    simp only [Nat.add_comm 1, List.take_succ_cons, List.map_cons, hr]
    obtain ⟨body, htake, hbody⟩ := commentLength?_some hn
    exact .block (by rw [htake]) hbody
  | @openComment r rs hslash hrest hr hn =>
    subst hslash hrest
    simp only [Nat.add_comm 1, List.take_succ_cons, List.map_cons, List.drop_succ_cons, hr,
      List.take_length, List.drop_length]
    exact Or.inl ⟨ht _ rfl, ⟨_, rfl, commentLength?_none hn⟩, rfl⟩
  | slash hslash hnext =>
    subst hslash
    refine ⟨⟨'/', by decide, rfl⟩, fun _ d hd => ?_⟩
    cases rest with
    | nil => simp at hd
    | cons r rs =>
      cases Option.mem_some.mp hd
      simpa using hnext r rs rfl
  | quoted hl hn =>
    obtain ⟨body, htake, hbody⟩ := quotedLength_closed hn
    cases hl <;> exact ⟨body, by rw [htake], hbody⟩
  | openQuoted hl hn =>
    have hbody := quotedLength_open hn
    cases hl with
    | string => exact Or.inr (Or.inl ⟨ht _ rfl, _, rfl, hbody⟩)
    | char => exact Or.inr (Or.inr ⟨ht _ rfl, _, rfl, hbody⟩)
  | whole hd hn hnext =>
    subst hn
    refine .whole (isDigits_run hd rest) (endsBefore_run _ rest) fun d ds hds => ?_
    obtain ⟨p, ps, hdrop, hp, hps⟩ := List.map_eq_cons_iff.mp hds
    obtain ⟨q, qs, rfl, rfl, _⟩ := List.map_eq_cons_iff.mp hps
    exact hnext p q qs hdrop hp
  | @fraction p d rs n hd hn hdrop hp hf =>
    obtain ⟨htake, hleft⟩ := fraction_split hdrop (Scanner.run isDigit rs)
    simp only [htake, hleft, List.map_append, List.map_cons, hp]
    subst hn
    exact .fraction rfl (isDigits_run hd rest) (isDigits_run hf rs) (endsBefore_run _ rs)
  | identifier hw => exact ⟨⟨c, _, rfl, hw, run_chars isWord rest⟩, endsBefore_run isWord rest⟩
  | operator ho hs =>
    refine ⟨⟨c, ho, rfl⟩, fun hslash => ?_⟩
    exact absurd (List.cons.inj hslash).1 hs
  | invalid hf => exact ⟨c, rfl, hc, hf⟩

/-- No other rule begins with a character that begins no token. -/
theorem Lexes.kind_of_foreign {c : Char} {rest : List Rune} {x : Lexeme} (h : Lexes c rest x)
    (hf : Foreign c) : x.kind = .invalid := by
  have hslash : c ≠ '/' := fun hc => hf.not_operator (hc ▸ by decide)
  cases h with
  | single hk => exact absurd (hf.not_single ▸ hk) (by simp)
  | lineComment hc => exact absurd hc hslash
  | blockComment hc => exact absurd hc hslash
  | openComment hc => exact absurd hc hslash
  | slash hc => exact absurd hc hslash
  | quoted hl =>
    cases hl with
    | string => exact absurd rfl hf.not_quote.1
    | char => exact absurd rfl hf.not_quote.2
  | openQuoted hl =>
    cases hl with
    | string => exact absurd rfl hf.not_quote.1
    | char => exact absurd rfl hf.not_quote.2
  | whole hd => exact absurd (hf.not_digit ▸ hd) (by simp)
  | fraction hd => exact absurd (hf.not_digit ▸ hd) (by simp)
  | identifier hw => exact absurd (hf.not_wordStart ▸ hw) (by simp)
  | operator ho => exact absurd ho hf.not_operator
  | invalid => rfl

theorem Taken.inClass {text : Bytes} {first last : Int} {t : Token} {r : Rune} {rest : List Rune}
    (h : Taken text first last t r rest) :
    InClass t.text (t.span.source text).chars (Span.source ⟨t.span.stop, last⟩ text).chars t.kind := by
  rw [Bytes.chars, Bytes.chars, h.taken, h.left, h.kind]
  refine (lexeme_lexes r.char rest).inClass h.visible fun m hm => ?_
  rw [h.text_eq, Option.mem_def.mp hm]
  rfl

/-- Every token of a span is of its class and as long as the class allows, and the invalid ones are
those that begin with a character that begins no other token. -/
theorem tokens_inClass (text : Bytes) (span : Span) :
    ∀ t ∈ tokens text span.start span.stop,
      InClass t.text (t.span.source text).chars
        (Span.source ⟨t.span.stop, (span.clamp text).stop⟩ text).chars t.kind ∧
      (t.kind = .invalid ↔ ∃ c, (t.span.source text).chars.head? = some c ∧ Foreign c) := by
  intro t ht
  rcases mem_tokensFrom (Scanner.ofSpan_reads text span.start span.stop) ht with
    rfl | ⟨first, r, rest, htaken⟩
  · have hnil : (Span.source ⟨(span.clamp text).stop, (span.clamp text).stop⟩ text).chars = [] := by
      rw [Span.source_empty, Bytes.chars, Bytes.runes, Bytes.runesAfter, List.map_nil]
    refine ⟨⟨hnil, hnil⟩, fun hk => absurd hk (by simp [endToken]), ?_⟩
    rintro ⟨c, hc, _⟩
    exact absurd (hnil ▸ hc) (by simp)
  · refine ⟨htaken.inClass, fun hk => ?_, ?_⟩
    · have hclass := htaken.inClass
      rw [hk] at hclass
      obtain ⟨c, hcs, _, hf⟩ := hclass
      exact ⟨c, by rw [hcs]; rfl, hf⟩
    · rintro ⟨c, hc, hf⟩
      rw [Bytes.chars, htaken.taken] at hc
      cases Option.some.inj hc
      rw [htaken.kind]
      exact (lexeme_lexes r.char rest).kind_of_foreign hf

/-- A quote that a backslash protects does not close the literal, which then ends with its line. -/
theorem tokens_inClass_openString :
    let text := utf8 "a=\"b\\\"c\n1"
    let t : Token := ⟨.error, utf8 unterminatedString, ⟨2, 7⟩⟩
    t ∈ tokens text 0 9 ∧
      InClass t.text (t.span.source text).chars (Span.source ⟨7, 9⟩ text).chars .error ∧
      (t.kind = .invalid ↔ ∃ c, (t.span.source text).chars.head? = some c ∧ Foreign c) := by
  intro text t
  have ht : t ∈ tokens text 0 9 := by decide +kernel
  exact ⟨ht, tokens_inClass text ⟨0, 9⟩ t ht⟩

end Lexer

end HostScript
