import HostScript.Proofs.Cursor.Words
import HostScript.Proofs.Parse.Ranges
import HostScript.Proofs.Token.Lookahead
import HostScript.Server.State

/-!
The number of an include under the cursor. The scanner of blocks reads tokens forward and the cursor
looks around itself at bytes. Where only blanks and tabs stand between keyword and number, both find the
same number.
-/

set_option autoImplicit false

namespace HostScript

namespace Bytes

theorem digits_of_number? {bs : Bytes} {n : Nat} (h : number? bs = some n) :
    bs ≠ [] ∧ ∀ b ∈ bs, isDigit b = true := by
  unfold number? at h
  split at h
  · rename_i hd
    simpa [isDigits] using hd
  · cases h

theorem char_of_isDigit {b : UInt8} (h : isDigit b = true) :
    HostScript.isDigit (Char.ofNat b.toNat) = true :=
  forall_ascii (P := fun b => isDigit b = true → HostScript.isDigit (Char.ofNat b.toNat) = true)
    (by decide +kernel) (ascii_of_isDigit h) h

theorem isAsciiWord_of_digits {bs : Bytes} (h : ∀ b ∈ bs, isDigit b = true) : bs.IsAsciiWord :=
  fun b hb => ⟨ascii_of_isDigit (h b hb), by simp [isWord, char_of_isDigit (h b hb)]⟩

theorem not_isDigit_of_head {bs : Bytes} (h : ∀ r ∈ bs.head?, isWord r.char = false) :
    ∀ b ∈ List.head? bs, isDigit b = false := by
  intro b hb
  obtain ⟨more, rfl⟩ := List.head?_eq_some_iff.mp hb
  by_contra hd
  have hd : isDigit b = true := by simpa using hd
  have hhead : headRune b more = ⟨Char.ofNat b.toNat, [b]⟩ := by
    simp [headRune, wellFormedHead?, ascii_of_isDigit hd]
  have hword := h _ rfl
  rw [hhead, isWord, char_of_isDigit hd, Bool.or_true] at hword
  cases hword

theorem gap_eq {text gap more : Bytes} {d : UInt8} {a m n : Nat} (htext : text.drop a = gap ++ d :: more)
    (hgap : ∀ b ∈ gap, b < 0x80 ∧ isSpace (Char.ofNat b.toNat) = true) (hd : d < 0x80)
    (hvisible : isSpace (Char.ofNat d.toNat) = false) (hle : a ≤ m) (hblank : IsBlank (text.slice a m))
    (hlt : m < n) (hfirst : ∀ r ∈ (runes (text.slice m n)).head?, isSpace r.char = false) :
    m = a + gap.length := by
  rcases Nat.lt_trichotomy m (a + gap.length) with hm | hm | hm
  · -- The rune would be one of the gap.
    obtain ⟨b, back, hb⟩ : ∃ b back, gap.drop (m - a) = b :: back := by
      refine List.exists_cons_of_ne_nil fun hnil => ?_
      have hlen := List.drop_eq_nil_iff.mp hnil
      omega
    have hdrop : text.drop m = b :: (back ++ d :: more) := by
      rw [← Nat.add_sub_of_le hle, ← List.drop_drop, htext, List.drop_append_of_le_length (by omega), hb,
        List.cons_append]
    obtain ⟨hascii, hspace⟩ := hgap b (List.mem_of_mem_drop (hb ▸ List.mem_cons_self))
    obtain ⟨k, hk⟩ : ∃ k, n - m = k + 1 := ⟨n - m - 1, by omega⟩
    rw [slice, hdrop, hk, List.take_succ_cons, runes_cons_ascii hascii] at hfirst
    exact absurd (hfirst _ rfl) (by simp [hspace])
  · exact hm
  · -- The gap would hold a visible rune.
    obtain ⟨k, hk⟩ : ∃ k, m - a = gap.length + (k + 1) := ⟨m - a - gap.length - 1, by omega⟩
    have hslice : text.slice a m = gap ++ d :: more.take k := by
      rw [slice, htext, hk, List.take_length_add_append, List.take_succ_cons]
    rw [IsBlank, hslice, runes_append_ascii hd] at hblank
    have hspace := hblank ⟨Char.ofNat d.toNat, [d]⟩ (by simp)
    exact absurd hspace (by simp [hvisible])

end Bytes

theorem Lexer.lexeme_of_isDigit {c : Char} (h : isDigit c = true) (rest : List Rune) :
    (lexeme c rest).kind = .number := by
  have hword : isWord c = true := by simp [isWord, h]
  have hother : single? c = none ∧ c ≠ '/' ∧ c ≠ '"' ∧ c ≠ '\'' :=
    forall_isWord
      (P := fun c => isDigit c = true → single? c = none ∧ c ≠ '/' ∧ c ≠ '"' ∧ c ≠ '\'')
      (by decide +kernel) hword h
  obtain ⟨hsingle, hslash, hstring, hchar⟩ := hother
  have hlexeme : lexeme c rest = number rest := by
    simp [lexeme, hsingle, hslash, hstring, hchar, h]
  rw [hlexeme, number]
  split
  · split <;> rfl
  · rfl

theorem Cursor.endsWithInclude {front gap : Bytes} (hf : ∀ b ∈ front.getLast?, b ∈ delimiters) (hne : gap ≠ [])
    (hgap : ∀ b ∈ gap, b = Bytes.blank ∨ b = Bytes.tab) :
    EndsWithInclude (front ++ utf8 includeKeyword ++ gap) := by
  refine ⟨front, gap, List.append_assoc _ _ _, hne, hgap, fun r hr => ?_⟩
  obtain rfl | ⟨before, b, rfl⟩ := List.eq_nil_or_concat front
  · cases hr
  · rw [List.concat_eq_append] at hf hr
    obtain ⟨hascii, hplain⟩ := delimiters_ascii b (hf b (by simp))
    rw [Bytes.runes_append_ascii hascii, List.getLast?_append_of_ne_nil _ (List.cons_ne_nil _ _)] at hr
    obtain rfl := Option.some.inj hr
    exact hplain

namespace Parse

variable {doc : Document} {block : Block}

/-- What stands between two tokens in a row. -/
theorem blank_between {pre more : List Token} {t u : Token}
    (hts : bodyTokens doc block = pre ++ t :: u :: more) {m n : Nat} (hm : t.span.stop = m)
    (hn : u.span.start = n) : m ≤ n ∧ Bytes.IsBlank (doc.text.slice m n) := by
  have htile := Lexer.tokensFrom_tiling (Scanner.ofSpan_reads doc.text block.bodyStart block.bodyEnd)
  rw [show Lexer.tokensFrom (Scanner.ofSpan doc.text block.bodyStart block.bodyEnd) = _ from hts] at htile
  constructor
  · have hordered := (List.pairwise_append.mp htile.ordered).2.1
    have hle := (List.pairwise_cons.mp hordered).1 u List.mem_cons_self
    omega
  · obtain ⟨_, hgap, _⟩ := List.isChain_append_cons_cons.mp htile.gaps
    rw [hm, hn] at hgap
    exact hgap

theorem first_rune {t : Token} (ht : t ∈ bodyTokens doc block) (hk : t.kind ≠ .eof) {m n : Nat}
    (hm : t.span.start = m) (hn : t.span.stop = n) : m < n ∧ ∃ r rest, isSpace r.char = false ∧
      t.kind = (Lexer.lexeme r.char rest).kind ∧ (doc.text.slice m n).runes.head? = some r := by
  have hreads := Scanner.ofSpan_reads doc.text block.bodyStart block.bodyEnd
  rcases Lexer.mem_tokensFrom hreads ht with rfl | ⟨_, r, rest, htaken⟩
  · exact absurd rfl hk
  · have hlt := htaken.nonempty
    have hrunes := htaken.taken
    rw [Span.source, hm, hn] at hrunes
    exact ⟨by omega, r, rest, htaken.visible, htaken.kind, by
      rw [show (doc.text.slice m n).runes = _ from hrunes]; rfl⟩

/-- The first visible character behind a token begins the next one. -/
theorem number_behind (hb : block ∈ Block.scan doc) {pre more : List Token} {t u : Token}
    (hts : bodyTokens doc block = pre ++ t :: u :: more) (hk : u.kind ≠ .eof) {a : Nat}
    (ha : t.span.stop = a) {gap back : Bytes} {d : UInt8} (htext : doc.text.drop a = gap ++ d :: back)
    (hgap : ∀ b ∈ gap, b = Bytes.blank ∨ b = Bytes.tab) (hd : Bytes.isDigit d = true) :
    u.kind = .number ∧ u.span.start = (a + gap.length : Nat) := by
  have hu : u ∈ bodyTokens doc block := hts ▸ (by simp)
  obtain ⟨⟨m, hm, _⟩, ⟨n, hn, _, _, hboundary⟩, _⟩ := Block.token_admitted hb hu
  obtain ⟨hle, hblank⟩ := blank_between hts ha hm
  obtain ⟨hlt, r, rest, hvisible, hkind, hfirst⟩ := first_rune hu hk hm hn
  have hascii := Bytes.ascii_of_isDigit hd
  have hdigit := Bytes.char_of_isDigit hd
  have hspace : ∀ b ∈ gap, b < 0x80 ∧ isSpace (Char.ofNat b.toNat) = true := by
    intro b hb
    rcases hgap b hb with rfl | rfl <;> decide
  have hstart : m = a + gap.length :=
    Bytes.gap_eq htext hspace hascii (isSpace_of_isWord (by simp [isWord, hdigit])) hle hblank hlt
      fun q hq => by
        rw [hfirst] at hq
        exact Option.some.inj hq ▸ hvisible
  have hrune : r = ⟨Char.ofNat d.toNat, [d]⟩ := by
    obtain ⟨k, hk⟩ : ∃ k, n - m = k + 1 := ⟨n - m - 1, by omega⟩
    rw [Bytes.slice, hstart, ← List.drop_drop, htext, List.drop_left, ← hstart, hk, List.take_succ_cons,
      Bytes.runes_cons_ascii hascii] at hfirst
    exact (Option.some.inj hfirst).symm
  rw [hkind, hrune, Lexer.lexeme_of_isDigit hdigit, hm, hstart]
  exact ⟨rfl, rfl⟩

end Parse

/-- How an include is written: its keyword, behind a delimiter or at the beginning of the text, then
blanks and tabs, then its number, which no word character follows. -/
structure Include.Written (doc : Document) (i : Include) (start : Nat) (gap rest : Bytes) : Prop where
  offset : i.offset = start
  text : doc.text.drop start = utf8 includeKeyword ++ (gap ++ (i.arg ++ rest))
  before : ∀ b ∈ (doc.text.take start).getLast?, b ∈ Cursor.delimiters
  gap_ne : gap ≠ []
  gap_blank : ∀ b ∈ gap, b = Bytes.blank ∨ b = Bytes.tab
  after : ∀ r ∈ rest.head?, isWord r.char = false

namespace Include

variable {doc : Document} {block : Block} {i : Include} {n start : Nat} {gap rest : Bytes}

theorem targetOf_eq_some {arg : Token} (h : targetOf arg = some n) :
    arg.kind = .number ∧ arg.text.number? = some n := by
  unfold targetOf at h
  split at h
  · exact ⟨‹_›, h⟩
  · cases h

theorem Written.ranges (hw : i.Written doc start gap rest) (hb : block ∈ Block.scan doc)
    (hi : i ∈ block.includes) (ht : i.target = some n) :
    let first := start + (utf8 includeKeyword).length + gap.length
    i.arg.number? = some n ∧
      i.keywordRange = doc.range start (start + (utf8 includeKeyword).length : Nat) ∧
      i.range = doc.range first (first + i.arg.length : Nat) := by
  intro first
  rw [Block.includes_eq hb] at hi
  obtain ⟨pre, keyword, tail, arg, hts, hkind, hkeyword, harg, rfl⟩ := Block.mem_includesOf hi
  obtain ⟨hnumber, hvalue⟩ := targetOf_eq_some ht
  have hargText : (ofTokens doc keyword arg).arg = arg.text := by simp [ofTokens, hnumber]
  have htarget : (targetOf arg).isSome = true := Option.isSome_of_eq_some ht
  obtain ⟨d, more, hd⟩ := List.exists_cons_of_ne_nil (Bytes.digits_of_number? hvalue).1
  have hdigit := (Bytes.digits_of_number? hvalue).2 d (hd ▸ List.mem_cons_self)
  have hbody : Parse.bodyTokens doc block = pre ++ keyword :: tail := by
    rw [← hts, Block.bodyTokens]
    split
    · rfl
    · rename_i hempty
      rw [Block.bodyTokens, if_neg hempty] at hts
      simp at hts
  have hmem : keyword ∈ Parse.bodyTokens doc block := hbody ▸ (by simp)
  have hstart : keyword.span.start = start := hw.offset
  obtain ⟨_, ⟨a, ha, _⟩, _⟩ := Block.token_admitted hb hmem
  obtain ⟨_, hstop⟩ := Block.token_text hb hmem (by simp [hkind]) (by simp [hkind])
    (by simp [hkind]) hstart ha
  rw [hkeyword] at hstop
  obtain ⟨t, later, rfl⟩ : ∃ t later, tail = t :: later :=
    List.exists_cons_of_ne_nil fun hnil => by simp [hnil] at harg
  have hgap : doc.text.drop a = gap ++ d :: (more ++ rest) := by
    rw [← hstop, ← List.drop_drop, hw.text, List.drop_left, hargText, hd, List.cons_append]
  -- The argument is the next token unless that is a comment, and it is a number.
  have hfirst (h : t.kind ≠ .comment) : t = arg := by simpa [h] using harg
  have heof : t.kind ≠ .eof := by
    intro h
    rw [← hfirst (by simp [h]), h] at hnumber
    cases hnumber
  obtain ⟨hkind', hbegin⟩ := Parse.number_behind hb hbody heof ha hgap hw.gap_blank hdigit
  obtain rfl := hfirst (by simp [hkind'])
  have hmem' : t ∈ Parse.bodyTokens doc block := hbody ▸ (by simp)
  obtain ⟨_, ⟨b, hb', _⟩, _⟩ := Block.token_admitted hb hmem'
  obtain ⟨_, hend⟩ :=
    Block.token_text hb hmem' (by simp [hkind']) (by simp [hkind']) (by simp [hkind']) hbegin hb'
  rw [← hstop] at ha hbegin hend
  refine ⟨by rw [hargText]; exact hvalue, ?_, ?_⟩
  · rw [ofTokens, hstart, ha]
  · rw [hargText]
    simp only [ofTokens, htarget, if_true, hbegin, hb', ← hend]
    rfl

theorem Written.text_eq (hw : i.Written doc start gap rest) :
    doc.text = doc.text.take start ++ (utf8 includeKeyword ++ (gap ++ (i.arg ++ rest))) ∧
      (doc.text.take start).length = start := by
  refine ⟨by rw [← hw.text, List.take_append_drop], ?_⟩
  have hlen := congrArg List.length hw.text
  have hkeyword : (utf8 includeKeyword).length = 13 := by decide
  rw [List.length_drop, List.length_append, hkeyword] at hlen
  rw [List.length_take]
  omega

theorem Written.atOffset_keyword (hw : i.Written doc start gap rest) (ha : i.arg.number? = some n) {o : Nat}
    (hlow : start ≤ o) (hhigh : o < start + (utf8 includeKeyword).length) :
    let first := start + (utf8 includeKeyword).length + gap.length
    ∃ c, Cursor.atOffset doc.text o
      = { kind := .includeScript, text := i.arg, atCursor := c, start := first
          stop := first + i.arg.length } := by
  intro first
  obtain ⟨hne, hdigits⟩ := Bytes.digits_of_number? ha
  obtain ⟨htext, hlen⟩ := hw.text_eq
  have hkeyword : (utf8 includeKeyword).IsAsciiWord := by decide +kernel
  have hafter : ∀ r ∈ Bytes.head? (gap ++ (i.arg ++ rest)), isWord r.char = false := by
    obtain ⟨b, more, hgap⟩ := List.exists_cons_of_ne_nil hw.gap_ne
    intro r hr
    rw [hgap] at hr
    rw [← Option.some.inj hr]
    rcases hw.gap_blank b (hgap ▸ List.mem_cons_self) with rfl | rfl <;> rfl
  obtain ⟨k, rfl⟩ := Nat.exists_eq_add_of_le hlow
  have hdrop : doc.text.drop (start + k) = (utf8 includeKeyword).drop k ++ gap ++ (i.arg ++ rest) := by
    rw [← List.drop_drop, hw.text, List.drop_append_of_le_length (by omega), List.append_assoc]
  have hnodigit : ∀ b ∈ (utf8 includeKeyword).drop k ++ gap, Bytes.isDigit b = false := by
    intro b hb
    rcases List.mem_append.mp hb with hb | hb
    · have hletters : ∀ b ∈ utf8 includeKeyword, Bytes.isDigit b = false := by
        decide +kernel
      exact hletters b (List.mem_of_mem_drop hb)
    · rcases hw.gap_blank b hb with rfl | rfl <;> decide
  have hfirst : Cursor.FirstDigits doc.text (start + k) ((utf8 includeKeyword).drop k ++ gap) i.arg rest :=
    ⟨hdrop, hnodigit, hne, hdigits, Bytes.not_isDigit_of_head hw.after⟩
  have hnext : Cursor.nextDigits? doc.text (start + k) = some (first, first + i.arg.length) := by
    rw [hfirst.nextDigits?]
    simp only [List.length_append, List.length_drop, first]
    congr 2 <;> omega
  have hslice : doc.text.slice first (first + i.arg.length) = i.arg := by
    rw [Bytes.slice, ← List.drop_drop, ← List.drop_drop, hw.text, List.drop_left, List.drop_left,
      Nat.add_sub_cancel_left, List.take_left]
  have hcursor := Cursor.atOffset_word hw.before hkeyword hafter (o := start + k) (by omega) (by omega)
  simp only [← htext, Cursor.plainAt, hnext, hslice, beq_self_eq_true, if_true] at hcursor
  exact ⟨_, hcursor⟩

theorem Written.atOffset_number (hw : i.Written doc start gap rest) (ha : i.arg.number? = some n) {o : Nat}
    (hlow : start + (utf8 includeKeyword).length + gap.length ≤ o)
    (hhigh : o < start + (utf8 includeKeyword).length + gap.length + i.arg.length) :
    let first := start + (utf8 includeKeyword).length + gap.length
    ∃ c, Cursor.atOffset doc.text o
      = { kind := .includeScript, text := i.arg, atCursor := c, start := first
          stop := first + i.arg.length } := by
  intro first
  obtain ⟨hne, hdigits⟩ := Bytes.digits_of_number? ha
  obtain ⟨htext, hlen⟩ := hw.text_eq
  let before := doc.text.take start ++ utf8 includeKeyword ++ gap
  have hbefore : before.length = first := by simp only [before, first, List.length_append, hlen]
  have htext' : doc.text = before ++ (i.arg ++ rest) := by simp only [before, List.append_assoc]; exact htext
  have hlast : ∀ b ∈ before.getLast?, b ∈ Cursor.delimiters := by
    intro b hb
    rw [List.getLast?_append_of_ne_nil _ hw.gap_ne] at hb
    rcases hw.gap_blank b (List.mem_of_getLast? hb) with rfl | rfl <;> decide
  have hother : (i.arg == utf8 includeKeyword) = false := by
    rw [beq_eq_false_iff_ne]
    intro heq
    rw [heq] at hdigits
    exact absurd hdigits (by decide)
  have hall : i.arg.isDigits = true := by
    simpa [Bytes.isDigits, hne] using hdigits
  have hfollows : Cursor.followsInclude doc.text first = true := by
    rw [htext', ← hbefore]
    exact Cursor.followsInclude_eq_true.mpr (Cursor.endsWithInclude hw.before hw.gap_ne hw.gap_blank)
  have hcursor := Cursor.atOffset_word hlast (Bytes.isAsciiWord_of_digits hdigits) hw.after (o := o)
    (by omega) (by omega)
  simp only [← htext', Cursor.plainAt, hbefore, hother, hall, hfollows, Bool.and_self, Bool.false_eq_true, if_true,
    if_false] at hcursor
  exact ⟨_, hcursor⟩

/-- The scanner of blocks and the cursor agree on an include: from everywhere in the keyword and in the
number the cursor finds that number, which is the one the scanner has, and so the script it names. -/
theorem cursor_agrees (hb : block ∈ Block.scan doc) (hi : i ∈ block.includes) (ht : i.target = some n)
    (hw : i.Written doc start gap rest) :
    let keywordEnd := start + (utf8 includeKeyword).length
    let first := keywordEnd + gap.length
    let last := first + i.arg.length
    i.keywordRange = doc.range start keywordEnd ∧ i.range = doc.range first last ∧
      ∀ o : Nat, start ≤ o ∧ o < keywordEnd ∨ first ≤ o ∧ o < last →
        (∃ c, Cursor.atOffset doc.text o
          = { kind := .includeScript, text := i.arg, atCursor := c, start := first, stop := last }) ∧
        ∀ p, doc.offsetAt p = some o → doc.scriptNumberAt? p = i.target := by
  intro keywordEnd first last
  obtain ⟨hvalue, hkeyword, hnumber⟩ := hw.ranges hb hi ht
  refine ⟨hkeyword, hnumber, fun o ho => ?_⟩
  have hcursor : ∃ c, Cursor.atOffset doc.text o
      = { kind := .includeScript, text := i.arg, atCursor := c, start := first, stop := last } := by
    rcases ho with ⟨hlow, hhigh⟩ | ⟨hlow, hhigh⟩
    · exact hw.atOffset_keyword hvalue hlow hhigh
    · exact hw.atOffset_number hvalue hlow hhigh
  refine ⟨hcursor, fun p hp => ?_⟩
  obtain ⟨c, hc⟩ := hcursor
  have hat : Cursor.atPosition doc p = Cursor.atOffset doc.text o := by rw [Cursor.atPosition, hp]
  rw [Document.scriptNumberAt?, hat, hc, ht]
  exact hvalue

def bracketed : Document := .ofText "a" (utf8 "SCRIPT:1,A\n(includescript \t42)\nENDSCRIPT\n")

theorem cursor_agrees_bracketed :
    ∃ block ∈ Block.scan bracketed, ∃ i ∈ block.includes, i.target = some 42 ∧
      i.Written bracketed 12 [Bytes.blank, Bytes.tab] (utf8 ")\nENDSCRIPT\n") ∧
      i.range = bracketed.range 27 29 ∧
      (Cursor.atOffset bracketed.text 20).kind = .includeScript ∧
      bracketed.scriptNumberAt? ⟨1, 9⟩ = some 42 := by
  let block : Block := .close bracketed ⟨0, .script, utf8 "1,A"⟩ 31 40 true
  let i : Include := ⟨some 42, utf8 "42", bracketed.range 27 29, bracketed.range 12 25, 12⟩
  have hscan : Block.scan bracketed = [block] := by decide +kernel
  have hincludes : block.includes = [i] := by decide +kernel
  have hb : block ∈ Block.scan bracketed := hscan ▸ List.mem_singleton_self _
  have hi : i ∈ block.includes := hincludes ▸ List.mem_singleton_self _
  have hw : i.Written bracketed 12 [Bytes.blank, Bytes.tab] (utf8 ")\nENDSCRIPT\n") :=
    ⟨rfl, by decide +kernel, by decide +kernel, by decide, by decide +kernel, by decide +kernel⟩
  obtain ⟨_, hrange, hcursor⟩ := cursor_agrees hb hi (n := 42) rfl hw
  obtain ⟨⟨c, hc⟩, hnumber⟩ := hcursor 20 (Or.inl (by decide))
  refine ⟨block, hb, i, hi, rfl, hw, hrange, ?_, hnumber ⟨1, 9⟩ (by decide +kernel)⟩
  have hkind := congrArg Cursor.kind hc
  exact hkind

end Include

end HostScript
