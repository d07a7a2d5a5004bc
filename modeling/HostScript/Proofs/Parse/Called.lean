import HostScript.Proofs.Block.Rename
import HostScript.Proofs.Parse.Rename
import HostScript.Proofs.Text.Encoding

/-!
The name of a call in its document. It stands behind a dot in the body of the block, and another
identifier in its place leaves the blocks as they are, and the calls of the block but for that name.
-/

set_option autoImplicit false

namespace HostScript

namespace Bytes

def dotRune : Rune := ⟨'.', [dot]⟩

theorem eq_dotRune {bs : Bytes} {r : Rune} (hr : r ∈ runes bs) (h : r.char = '.') : r = dotRune := by
  have hbytes := bytes_of_ascii hr (a := dot) (by decide) (by decide) h
  obtain ⟨char, bytes⟩ := r
  simp only at h hbytes
  rw [h, hbytes]
  rfl

theorem notMem_identifier {b : UInt8} (hb : b < 0x80) (hw : isWord (Char.ofNat b.toNat) = false)
    {name : List Rune} {next : List Char} (h : Lexer.IsIdentifier (name.map Rune.char) next)
    (hr : runes (Rune.join name) = name) : b ∉ Rune.join name := by
  intro hmem
  obtain ⟨r, hrune, hchar⟩ := exists_rune_of_mem hb hmem
  obtain ⟨c, cs, hspell, hc, hcs⟩ := h.spelling
  have hword : isWord r.char = true := by
    have hin : r.char ∈ c :: cs := hspell ▸ List.mem_map_of_mem (hr ▸ hrune)
    cases List.mem_cons.mp hin with
    | inl heq => rw [heq]; exact isWord_of_isWordStart hc
    | inr hin => exact hcs _ hin
  rw [hchar, hw] at hword
  cases hword

end Bytes

namespace Parse

open Lexer

def nameStart (b : Block) (before : List Rune) : Nat := b.bodyStart + Rune.sizes before + 1

/-- A name in the body of a block. It is a token, and only what stands behind it depends on it. -/
structure Called (d : Document) (b : Block) (before old after : List Rune) : Prop where
  runes : (d.text.slice b.bodyStart b.bodyEnd).runes = before ++ Bytes.dotRune :: (old ++ after)
  identifier : IsIdentifier (old.map Rune.char) (after.map Rune.char)
  code : ∀ t ∈ codeTokens (bodyTokens d b), t.span.start < t.span.stop ∧
    (t.span.stop ≤ nameStart b before ∨ t = identifierToken (nameStart b before) old ∨
      (nameStart b before + Rune.sizes old : Nat) ≤ t.span.start ∧
        (t.span.start = (nameStart b before + Rune.sizes old : Nat) → t.kind ≠ .dot))
  renamed : ∀ (r : Renaming) (new : List Rune), r.start = nameStart b before →
    r.stop = r.start + Rune.sizes old → r.name = Rune.join new →
    IsIdentifier (new.map Rune.char) (after.map Rune.char) →
    Yields b.bodyStart (before ++ Bytes.dotRune :: (new ++ after)) ((bodyTokens d b).map r.token)

section

variable {d : Document} {b : Block} (hb : b ∈ Block.scan d)

include hb

theorem body_bounds : b.bodyStart ≤ b.bodyEnd ∧ b.bodyEnd ≤ d.text.length := by
  obtain ⟨_, h, rfl, he⟩ := Block.exists_beginsAt hb
  obtain ⟨-, -, hle, hstop, -, hlen⟩ := he.bounds
  exact ⟨hle, Nat.le_trans hstop hlen⟩

theorem body_yields : Yields b.bodyStart (d.text.slice b.bodyStart b.bodyEnd).runes (bodyTokens d b) := by
  obtain ⟨hle, hlen⟩ := body_bounds hb
  exact Yields.tokens hle hlen

omit hb in
theorem codeTokens_ordered : (codeTokens (bodyTokens d b)).Pairwise (fun t u => t.span.stop ≤ u.span.start) ∧
    ∀ t ∈ codeTokens (bodyTokens d b), t.span.start < t.span.stop := by
  have htile := tokensFrom_tiling (Scanner.ofSpan_reads d.text b.bodyStart b.bodyEnd)
  refine ⟨htile.ordered.filter _, fun t ht => ?_⟩
  obtain ⟨ht, hk⟩ := List.mem_filter.mp ht
  exact htile.nonempty t ht (by simp at hk; exact hk.2)

omit hb in
theorem isIdentifier_text {t : Token} (ht : t ∈ bodyTokens d b) (hk : t.kind = .identifier) :
    ∃ next, IsIdentifier t.text.toText.toList next := by
  rcases mem_tokensFrom (Scanner.ofSpan_reads d.text b.bodyStart b.bodyEnd) ht with rfl | ⟨_, r, rest, htaken⟩
  · cases hk
  · have hclass := htaken.inClass
    rw [hk, ← htaken.text_eq_source (by simp [hk]) (by simp [hk])] at hclass
    rw [Bytes.toText, String.toList_ofList]
    exact ⟨_, hclass⟩

omit hb in
theorem isIdentifier_call {c : Call} (hc : c ∈ (structureOf d b).calls) :
    (∃ next, IsIdentifier c.space.toText.toList next) ∧ ∃ next, IsIdentifier c.name.toText.toList next := by
  obtain ⟨pre, space, dot, name, paren, post, hcode, hstands⟩ :=
    (walk_names d b (bodyTokens d b)).stand (spelling c) (List.mem_map_of_mem hc)
  have hmem {t : Token} (ht : t ∈ pre ++ space :: dot :: name :: paren :: post) : t ∈ bodyTokens d b :=
    List.mem_of_mem_filter (hcode ▸ ht)
  have hspelling := hstands.eq
  simp only [spelling, Spelling.mk.injEq] at hspelling
  rw [hspelling.1, hspelling.2.1]
  exact ⟨isIdentifier_text (hmem (by simp)) hstands.space_kind,
    isIdentifier_text (hmem (by simp)) hstands.name_kind⟩

/-- Code tokens that touch have no other token between them. -/
theorem bodyTokens_of_touch {pre post : List Token} {first second : Token}
    (h : codeTokens (bodyTokens d b) = pre ++ first :: second :: post)
    (htouch : first.span.stop = second.span.start) :
    ∃ front back, bodyTokens d b = front ++ first :: second :: back := by
  obtain ⟨front, rest, htokens, -, hrest⟩ := List.filter_eq_append_iff.mp h
  obtain ⟨gap, back, rfl, -, -, hback⟩ := List.filter_eq_cons_iff.mp hrest
  obtain ⟨between, back, rfl, -, -, -⟩ := List.filter_eq_cons_iff.mp hback
  have hyields := body_yields hb
  have hpos : ∀ r ∈ (d.text.slice b.bodyStart b.bodyEnd).runes, 0 < r.size := fun r => Bytes.size_pos_of_mem_runes
  cases between with
  | nil => exact ⟨front ++ gap, back, by simp [htokens]⟩
  | cons u between =>
    -- A token between them would end where it begins.
    have hsecond : bodyTokens d b = (front ++ gap ++ first :: u :: between) ++ second :: back := by
      simp [htokens]
    have hbetween : bodyTokens d b = (front ++ gap ++ [first]) ++ u :: (between ++ second :: back) := by
      simp [htokens]
    have hlow := (hbetween ▸ hyields).before hpos first (by simp)
    have hhigh := (hsecond ▸ hyields).before hpos u (by simp)
    omega

omit hb in
/-- The other code tokens lie in front of a name or behind it, and a parenthesis is the first behind it. -/
theorem codeTokens_around {pre post : List Token} {name paren : Token}
    (h : codeTokens (bodyTokens d b) = pre ++ name :: paren :: post) (hparen : paren.kind = .parenOpen)
    {t : Token} (ht : t ∈ codeTokens (bodyTokens d b)) : t.span.start < t.span.stop ∧
      (t.span.stop ≤ name.span.start ∨ t = name ∨
        name.span.stop ≤ t.span.start ∧ (t.span.start = name.span.stop → t.kind ≠ .dot)) := by
  obtain ⟨hordered, hnonempty⟩ := codeTokens_ordered (d := d) (b := b)
  refine ⟨hnonempty t ht, ?_⟩
  rw [h] at hordered hnonempty ht
  obtain ⟨-, hbehind, hbefore⟩ := List.pairwise_append.mp hordered
  obtain ⟨hbehind, hrest⟩ := List.pairwise_cons.mp hbehind
  rcases List.mem_append.mp ht with ht | ht
  · exact Or.inl (hbefore t ht name List.mem_cons_self)
  · rcases List.mem_cons.mp ht with rfl | ht
    · exact Or.inr (Or.inl rfl)
    · refine Or.inr (Or.inr ⟨hbehind t ht, fun hstart => ?_⟩)
      rcases List.mem_cons.mp ht with rfl | ht
      · simp [hparen]
      · have hbegin := hbehind paren List.mem_cons_self
        have hend := (List.pairwise_cons.mp hrest).1 t ht
        have hlt := hnonempty paren (by simp)
        omega

theorem exists_called {c : Call} (hc : c ∈ (structureOf d b).calls) : ∃ before old after,
    Called d b before old after ∧ c.name = Rune.join old ∧ c.nameRange
      = d.range (nameStart b before) (nameStart b before + Rune.sizes old : Nat) := by
  obtain ⟨pre, space, dot, name, paren, post, hcode, hstands⟩ :=
    (walk_names d b (bodyTokens d b)).stand (spelling c) (List.mem_map_of_mem hc)
  have htouch : codeTokens (bodyTokens d b) = (pre ++ [space]) ++ dot :: name :: (paren :: post) := by
    simpa using hcode
  obtain ⟨front, back, htokens⟩ := bodyTokens_of_touch hb htouch hstands.dot_stop
  obtain ⟨hle, hlen⟩ := body_bounds hb
  have hpos : ∀ r ∈ (d.text.slice b.bodyStart b.bodyEnd).runes, 0 < r.size := fun r => Bytes.size_pos_of_mem_runes
  have hyields := body_yields hb
  obtain ⟨k, hstart, lead, ⟨tail, hlead⟩, rfl⟩ := tokens_start_isBoundary hle hlen
    (t := name) (by rw [← bodyTokens, htokens]; simp)
  rw [htokens, ← hlead] at hyields
  rw [← hlead] at hpos
  obtain ⟨old, after, rfl, ⟨before, q, rfl, hq⟩, hident, hname, hrenamed⟩ := hyields.rename hpos
    hstands.dot_kind hstands.name_kind hstands.dot_stop (by omega)
  have hqmem : q ∈ (d.text.slice b.bodyStart b.bodyEnd).runes := by
    rw [← hlead]
    simp
  obtain rfl : q = Bytes.dotRune := Bytes.eq_dotRune hqmem hq
  have hsizes : b.bodyStart + Rune.sizes (before ++ [Bytes.dotRune]) = nameStart b before := by
    rw [Rune.sizes_append, nameStart, Nat.add_assoc]
    rfl
  rw [hsizes] at hname hrenamed
  have hspelling := hstands.eq
  simp only [spelling, Spelling.mk.injEq] at hspelling
  refine ⟨before, old, after, ⟨by simp [← hlead], hident, ?_, ?_⟩, ?_, ?_⟩
  · have hcode' : codeTokens (bodyTokens d b) = (pre ++ [space, dot]) ++ name :: paren :: post := by
      simpa using hcode
    have haround {t : Token} (ht : t ∈ codeTokens (bodyTokens d b)) :=
      codeTokens_around hcode' hstands.paren_kind ht
    rw [hname] at haround
    exact fun t ht => haround ht
  · intro r new hstart hstop hnew hnewIdent
    have hall := hrenamed r new hstart hstop hnew hnewIdent
    rw [htokens]
    simpa using hall
  · rw [hspelling.2.1, hname]
    rfl
  · rw [hspelling.2.2, hname]
    rfl

end

def frontText (d : Document) (b : Block) (before : List Rune) : Bytes :=
  d.text.take b.bodyStart ++ Rune.join before

def backText (d : Document) (b : Block) (after : List Rune) : Bytes :=
  Rune.join after ++ d.text.drop b.bodyEnd

theorem length_frontText {d : Document} {b : Block} (hb : b ∈ Block.scan d) (before : List Rune) :
    (frontText d b before).length + 1 = nameStart b before := by
  obtain ⟨hle, hlen⟩ := body_bounds hb
  rw [frontText, List.length_append, Rune.length_join, List.length_take_of_le (Nat.le_trans hle hlen)]
  rfl

theorem isIdentifier_encoded {name : String} {next next' : List Char} (h : IsIdentifier name.toList next')
    (hnext : EndsBefore isWord next) :
    IsIdentifier ((name.toList.map Bytes.encoded).map Rune.char) next := by
  have hchars : (name.toList.map Bytes.encoded).map Rune.char = name.toList := by
    rw [List.map_map]
    exact List.map_id _
  rw [hchars]
  exact ⟨h.spelling, hnext⟩

theorem utf8_eq_join (name : String) : utf8 name = Rune.join (name.toList.map Bytes.encoded) := by
  rw [← Bytes.runes_utf8, Bytes.join_runes]

theorem newline_notMem_utf8 {name : String} {next : List Char} (h : IsIdentifier name.toList next) :
    Bytes.newline ∉ utf8 name := by
  have hname := isIdentifier_encoded h h.longest
  rw [utf8_eq_join]
  exact Bytes.notMem_identifier (by decide) (by decide) hname (by rw [← utf8_eq_join, Bytes.runes_utf8])

namespace Called

variable {d e : Document} {b : Block} {before old after : List Rune} (h : Called d b before old after)

include h

theorem runes_old : (Rune.join old).runes = old := by
  have hsplit : (d.text.slice b.bodyStart b.bodyEnd).runes = (before ++ [Bytes.dotRune]) ++ (old ++ after) := by
    simp [h.runes]
  have hrest := (Bytes.runes_join hsplit).2
  exact (Bytes.runes_join hrest).1

theorem newline_notMem : Bytes.newline ∉ Rune.join old :=
  Bytes.notMem_identifier (by decide) (by decide) h.identifier h.runes_old

theorem return_notMem : Bytes.carriageReturn ∉ Rune.join old :=
  Bytes.notMem_identifier (by decide) (by decide) h.identifier h.runes_old

theorem runes_before : (Rune.join before).runes = before := (Bytes.runes_join h.runes).1

theorem runes_after : (Rune.join after).runes = after := by
  have hsplit : (d.text.slice b.bodyStart b.bodyEnd).runes = (before ++ Bytes.dotRune :: old) ++ after := by
    simp [h.runes]
  exact (Bytes.runes_join hsplit).2

theorem slice_eq : d.text.slice b.bodyStart b.bodyEnd
    = Rune.join before ++ Bytes.dot :: (Rune.join old ++ Rune.join after) := by
  rw [← Bytes.join_runes (d.text.slice b.bodyStart b.bodyEnd), h.runes]
  simp [Rune.join, Bytes.dotRune]

theorem sizes_old_pos : 0 < Rune.sizes old := by
  obtain ⟨c, cs, hspell, -, -⟩ := h.identifier.spelling
  obtain ⟨q, qs, hold, -, -⟩ := List.map_eq_cons_iff.mp hspell
  have hqmem : q ∈ (d.text.slice b.bodyStart b.bodyEnd).runes := by simp [h.runes, hold]
  have hq : 0 < q.size := Bytes.size_pos_of_mem_runes hqmem
  rw [hold, Rune.sizes]
  omega

def replacing {name : String} (hn : IsIdentifier name.toList []) : Renaming where
  start := nameStart b before
  stop := nameStart b before + Rune.sizes old
  name := utf8 name
  start_lt_stop := Nat.lt_add_of_pos_right h.sizes_old_pos
  name_ne_nil := by
    obtain ⟨c, cs, hspell, -, -⟩ := hn.spelling
    intro hnil
    have hempty : name = "" := by rw [← Bytes.toText_utf8 name, hnil]; rfl
    rw [hempty] at hspell
    cases hspell

variable (hb : b ∈ Block.scan d)

include hb

theorem text_eq : d.text = frontText d b before ++ Bytes.dot :: (Rune.join old ++ backText d b after) := by
  obtain ⟨hle, hlen⟩ := body_bounds hb
  have hdrop : d.text.drop b.bodyStart = d.text.slice b.bodyStart b.bodyEnd ++ d.text.drop b.bodyEnd := by
    rw [Bytes.slice, ← Nat.add_sub_of_le hle, Nat.add_sub_cancel_left, ← List.drop_drop, List.take_append_drop]
  rw [h.slice_eq] at hdrop
  conv_lhs => rw [← List.take_append_drop b.bodyStart d.text, hdrop]
  simp [frontText, backText]

theorem bodyEnd_eq : b.bodyEnd = nameStart b before + Rune.sizes old + Rune.sizes after := by
  obtain ⟨hle, hlen⟩ := body_bounds hb
  have hl := Bytes.length_slice d.text b.bodyStart hlen
  rw [h.slice_eq] at hl
  simp only [List.length_append, List.length_cons, Rune.length_join] at hl
  simp only [nameStart]
  omega

theorem start_isBoundary : d.text.IsBoundary (nameStart b before) := by
  have hprefix : Bytes.IsBoundary (d.text.slice b.bodyStart b.bodyEnd) (Rune.sizes before + 1) :=
    ⟨before ++ [Bytes.dotRune], ⟨old ++ after, by simp [h.runes]⟩, by rw [Rune.sizes_append]; rfl⟩
  have hslice := Bytes.isBoundary_of_slice (bodyStart_isBoundary hb) (bodyEnd_isBoundary hb) (body_bounds hb).1 hprefix
  rwa [← Nat.add_assoc] at hslice

theorem stop_isBoundary : d.text.IsBoundary (nameStart b before + Rune.sizes old) := by
  have hprefix : Bytes.IsBoundary (d.text.slice b.bodyStart b.bodyEnd) (Rune.sizes before + 1 + Rune.sizes old) :=
    ⟨before ++ Bytes.dotRune :: old, ⟨after, by simp [h.runes]⟩, by
      rw [Rune.sizes_append, Nat.add_assoc]; rfl⟩
  have hslice := Bytes.isBoundary_of_slice (bodyStart_isBoundary hb) (bodyEnd_isBoundary hb) (body_bounds hb).1 hprefix
  rwa [← Nat.add_assoc, ← Nat.add_assoc] at hslice

section Replaced

variable {name : String} (hn : IsIdentifier name.toList [])
  (he : e.text = frontText d b before ++ Bytes.dot :: (utf8 name ++ backText d b after))

include hn he

/-- The block of a document with another name. It has the same tokens but for that name. -/
theorem exists_replaced : ∃ pre post pre' t post', Block.scan d = pre ++ b :: post ∧
    Block.scan e = pre' ++ t :: post' ∧ pre'.map (Block.content e) = pre.map (Block.content d) ∧
    post'.map (Block.content e) = post.map (Block.content d) ∧ t.header = b.header ∧
    t.terminated = b.terminated ∧ bodyTokens e t = (bodyTokens d b).map (h.replacing hn).token := by
  have hfront := length_frontText hb before
  have hend := h.bodyEnd_eq hb
  have hnew := isIdentifier_encoded hn h.identifier.longest
  obtain ⟨pre, post, pre', t, post', hscan, hscan', hpre, hpost, hheader, hterm, hstart, k, hk, hk'⟩ :=
    Block.scan_renamed hb (h.text_eq hb) he h.newline_notMem
      (newline_notMem_utf8 hn) (by simp only [nameStart] at hfront; omega) (by omega)
  refine ⟨pre, post, pre', t, post', hscan, hscan', hpre, hpost, hheader, hterm, ?_⟩
  have ht : t ∈ Block.scan e := by simp [hscan']
  have hyields := body_yields ht
  have hslice : e.text.slice t.bodyStart t.bodyEnd
      = Rune.join before ++ Bytes.dot :: (utf8 name ++ Rune.join after) := by
    obtain ⟨hle, hlen⟩ := body_bounds hb
    have htake : (d.text.take b.bodyStart).length = b.bodyStart := List.length_take_of_le (Nat.le_trans hle hlen)
    have hbody : e.text = d.text.take b.bodyStart
        ++ ((Rune.join before ++ Bytes.dot :: (utf8 name ++ Rune.join after)) ++ d.text.drop b.bodyEnd) := by
      simp [he, frontText, backText]
    have hstop : t.bodyEnd = (d.text.take b.bodyStart).length
        + (Rune.join before ++ Bytes.dot :: (utf8 name ++ Rune.join after)).length := by
      simp only [List.length_append, List.length_cons, Rune.length_join, htake] at hk ⊢
      simp only [nameStart] at hfront hend
      omega
    rw [hbody, hstop, show t.bodyStart = (d.text.take b.bodyStart).length by rw [hstart, htake],
      Bytes.slice_append_middle]
  have hrunes : (e.text.slice t.bodyStart t.bodyEnd).runes
      = before ++ Bytes.dotRune :: (name.toList.map Bytes.encoded ++ after) := by
    rw [hslice, Bytes.runes_append_ascii (by decide), Bytes.runes_utf8_append, h.runes_before, h.runes_after]
    rfl
  rw [hrunes, hstart] at hyields
  exact hyields.unique (h.renamed (h.replacing hn) _ rfl rfl (utf8_eq_join name) hnew)

theorem lineAt_replaced {o : Nat} (ho : (h.replacing hn).Clear o) :
    e.lineAt ((h.replacing hn).offset o) = d.lineAt o := by
  have hfront := length_frontText hb before
  rcases ho with ho | ho
  · rw [Renaming.offset_of_le _ ho]
    have ho : (o : Int) ≤ nameStart b before := ho
    have hd : d.text = (frontText d b before ++ [Bytes.dot]) ++ (Rune.join old ++ backText d b after) := by
      simpa using h.text_eq hb
    have he : e.text = (frontText d b before ++ [Bytes.dot]) ++ (utf8 name ++ backText d b after) := by
      simpa using he
    refine (Document.lineAt_front hd he ?_).symm
    simp only [List.length_append, List.length_singleton]
    omega
  · have ho : ((nameStart b before + Rune.sizes old : Nat) : Int) ≤ o := ho
    obtain ⟨k, rfl⟩ := Nat.exists_eq_add_of_le (Int.ofNat_le.mp ho)
    have hback := (h.replacing hn).offset_stop_add (Int.natCast_nonneg k)
    -- Both documents end with one text, behind as many newlines.
    let rest := Document.ofText "" (backText d b after)
    have hd' : d.text = (frontText d b before ++ Bytes.dot :: Rune.join old) ++ rest.text := by
      simpa [rest, Document.ofText] using h.text_eq hb
    have he' : e.text = (frontText d b before ++ Bytes.dot :: utf8 name) ++ rest.text := by
      simpa [rest, Document.ofText] using he
    have hline := Document.lineAt_back hd' k
    have hline' := Document.lineAt_back he' k
    have hlen : (frontText d b before ++ Bytes.dot :: Rune.join old).length = nameStart b before + Rune.sizes old := by
      simp only [List.length_append, List.length_cons, Rune.length_join]
      omega
    have hlen' : (frontText d b before ++ Bytes.dot :: utf8 name).length = nameStart b before + (utf8 name).length := by
      simp only [List.length_append, List.length_cons]
      omega
    have hplain {word : Bytes} (hw : Bytes.newline ∉ word) :
        (frontText d b before ++ Bytes.dot :: word).count Bytes.newline
          = (frontText d b before ++ [Bytes.dot]).count Bytes.newline := by
      rw [List.append_cons, List.count_append, List.count_eq_zero.mpr hw, Nat.add_zero]
    rw [hlen, hplain h.newline_notMem] at hline
    rw [hlen', hplain (newline_notMem_utf8 hn)] at hline'
    rw [hline, ← hline']
    exact congrArg e.lineAt hback

theorem fits : ∀ t ∈ codeTokens (bodyTokens d b), (h.replacing hn).Fits d e t := by
  intro t ht
  obtain ⟨hlt, hcases⟩ := h.code t ht
  have hpos := h.sizes_old_pos
  obtain ⟨o, ho, -, -, hboundary⟩ := bodyWords_inside hb t ((codeTokens_sublist d b).subset ht)
  have hclear : (h.replacing hn).Clear t.span.start := by
    rcases hcases with hle | heq | ⟨hle, -⟩
    · exact Or.inl (Int.le_trans (Int.le_of_lt hlt) hle)
    · exact Or.inl (Int.le_of_eq (by rw [heq]; rfl))
    · exact Or.inr hle
  refine ⟨hclear, ?_, ?_, fun hplace => ?_, fun hstart => ?_, fun hstart => ?_⟩
  · rcases hcases with hle | heq | ⟨hle, -⟩
    · exact Or.inl hle
    · exact Or.inr (Int.le_of_eq (by rw [heq]; rfl))
    · exact Or.inr (Int.le_trans hle (Int.le_of_lt hlt))
  · rw [ho] at hclear ⊢
    exact h.lineAt_replaced hb hn he hclear
  · rw [place, ho] at hplace
    rw [ho, hboundary.eq_of_positionAt_eq (d.isBoundary_of_text (h.start_isBoundary hb)) hplace]
    rfl
  · have hstart : t.span.start = nameStart b before := hstart
    rcases hcases with hle | heq | ⟨hle, -⟩
    · omega
    · rw [heq]
      exact ⟨rfl, rfl⟩
    · omega
  · have hstart : t.span.start = (nameStart b before + Rune.sizes old : Nat) := hstart
    rcases hcases with hle | heq | ⟨-, hkind⟩
    · omega
    · rw [heq] at hstart
      simp only [identifierToken] at hstart
      omega
    · exact hkind hstart

/-- The calls of the block are the same but for the name. -/
theorem calls_replaced {t : Block} (ht : bodyTokens e t = (bodyTokens d b).map (h.replacing hn).token) :
    (structureOf e t).calls.map outline = (structureOf d b).calls.map ((h.replacing hn).outline d) := by
  have hwalk := walk_renamed b t (h.fits hb hn he)
  rw [← ht] at hwalk
  exact hwalk

end Replaced

end Called

end Parse

end HostScript
