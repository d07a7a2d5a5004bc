import HostScript.Proofs.Block.Role
import HostScript.Proofs.Token.Spans
import HostScript.Server.Cache

/-!
A block is determined by its text, by where it stands and by the URI of its document. Its end tells
how its last line ends, and what follows is of no account, although the line that terminates a block
may end with a carriage return that is no part of the block.
-/

set_option autoImplicit false

namespace HostScript

namespace Block

section Tokens

variable {d e : Document} {start stop : Nat} (hs : d.SameBetween e start stop)

include hs

theorem ofTokens_congr {keyword arg : Token} (hk : Lexer.Within start stop keyword)
    (ha : Lexer.Within start stop arg) :
    Include.ofTokens d keyword arg = Include.ofTokens e keyword arg := by
  simp only [Include.ofTokens, hs.range hk.start_inside hk.stop_inside,
    hs.range ha.start_inside ha.stop_inside]

theorem includesOf_congr {tokens : List Token} (ht : ∀ t ∈ tokens, Lexer.Within start stop t) :
    includesOf d tokens = includesOf e tokens := by
  induction tokens with
  | nil => rfl
  | cons token rest ih =>
    have ih := ih fun t h => ht t (List.mem_cons_of_mem _ h)
    unfold includesOf
    rw [ih]
    cases hf : rest.find? (·.kind != .comment) with
    | none => rfl
    | some arg =>
      have ha := ht arg (List.mem_cons_of_mem _ (List.mem_of_find?_eq_some hf))
      simp only [ofTokens_congr hs (ht token List.mem_cons_self) ha]

theorem ofComment_congr {token : Token} (ht : Lexer.Within start stop token)
    (hl : token.span.stop = token.span.start + token.text.length) :
    Hook.ofComment d token = Hook.ofComment e token := by
  have hle (p : UInt8 → Bool) : (token.text.dropRightWhile p).length ≤ token.text.length := by
    have hd := (List.dropWhile_sublist (l := token.text.reverse) p).length_le
    simpa [Bytes.dropRightWhile] using hd
  have hin := ht.start_inside
  have hhigh := ht.stop_le
  have hb := hle fun b => b == Bytes.blank || b == Bytes.tab || b == Bytes.carriageReturn
  simp only [Hook.ofComment]
  rw [hs.range hin (by omega)]

theorem hooksOf_congr {tokens : List Token} (ht : ∀ t ∈ tokens, Lexer.Within start stop t)
    (hc : ∀ t ∈ tokens, t.kind = .comment → t.span.stop = t.span.start + t.text.length) :
    hooksOf d tokens = hooksOf e tokens := by
  refine List.map_congr_left fun t hm => ?_
  obtain ⟨hm, hk⟩ := List.mem_filter.mp hm
  simp only [Bool.and_eq_true, beq_iff_eq] at hk
  exact ofComment_congr hs (ht t hm) (hc t hm hk.1)

end Tokens

theorem bodyTokens_congr {d e : Document} {start stop bodyStart bodyEnd : Nat}
    (hs : d.SameBetween e start stop) (hlow : start ≤ bodyStart) (hhigh : bodyEnd ≤ stop) :
    bodyTokens d bodyStart bodyEnd = bodyTokens e bodyStart bodyEnd := by
  have hd := hs.stop_le
  unfold bodyTokens
  split
  · exact Lexer.tokens_congr (by omega) (Nat.le_trans hhigh hd.1) (Nat.le_trans hhigh hd.2)
      (hs.slice hlow (by omega) hhigh)
  · rfl

theorem bodyTokens_within {d : Document} {start stop bodyStart bodyEnd : Nat}
    (hlow : start ≤ bodyStart) (hhigh : bodyEnd ≤ stop) (hd : stop ≤ d.length) :
    ∀ t ∈ bodyTokens d bodyStart bodyEnd, Lexer.Within start stop t ∧
      (t.kind = .comment → t.span.stop = t.span.start + t.text.length) := by
  unfold bodyTokens
  split
  · intro t ht
    have hw := Lexer.tokens_within (by omega) (Nat.le_trans hhigh hd) t ht
    exact ⟨hw.mono hlow hhigh, Lexer.tokensFrom_comment _ t ht⟩
  · simp

theorem close_congr {d e : Document} {h : OpenBlock} {bodyEnd stop : Nat} {terminated : Bool}
    (hs : d.SameBetween e (d.lineStart h.line) stop) (hstart : d.lineStart h.line = e.lineStart h.line)
    (hend : d.lineEnd h.line = e.lineEnd h.line)
    (hbody : (close d h bodyEnd stop terminated).bodyStart
      = (close e h bodyEnd stop terminated).bodyStart)
    (hle : (close d h bodyEnd stop terminated).bodyStart ≤ bodyEnd) (hstop : bodyEnd ≤ stop) :
    close d h bodyEnd stop terminated = close e h bodyEnd stop terminated := by
  have hline := d.lineStart_le_lineEnd h.line
  have hheader := close_headerEnd_le d h bodyEnd stop terminated
  simp only [close] at hbody hle hheader
  have hwithin := bodyTokens_within (d := d) (Nat.le_trans hline hheader) hstop hs.stop_le.1
  have hrange := hs.range (a := d.lineStart h.line) (b := stop) (by omega) (by omega)
  have hheaderRange := hs.range (a := d.lineStart h.line) (b := d.lineEnd h.line) (by omega)
    (by omega)
  rw [← hend] at hbody
  simp only [close, hs.uri, ← hstart, ← hend, ← hbody, hrange, hheaderRange,
    ← bodyTokens_congr hs (Nat.le_trans hline hheader) hstop]
  rw [includesOf_congr hs fun t ht => (hwithin t ht).1,
    hooksOf_congr hs (fun t ht => (hwithin t ht).1) fun t ht => (hwithin t ht).2]

/-- What a block says of itself, given the text of the block alone. -/
structure Shown (d t : Document) (h : OpenBlock) (b : Block) : Prop where
  header : d.line h.line = t.line (0 : Nat)
  headerEnd : b.headerEnd = b.start + t.lineEnd (0 : Nat)
  bodyStart : b.bodyStart = b.start + if 1 < t.lineCount then t.lineStart (1 : Nat) else t.lineEnd (0 : Nat)
  terminated : b.terminated = true ↔ lineRole (t.line (t.lineCount - 1 : Nat)) = .terminator
  bodyEnd : b.bodyEnd = if b.terminated then b.start + t.lineStart (t.lineCount - 1 : Nat) else b.stop

theorem close_bodyStart {d t : Document} {h : OpenBlock} {bodyEnd stop : Nat} {terminated : Bool}
    (hs : d.Shows t (d.lineStart h.line) h.line) (hend : d.lineEnd h.line = d.lineStart h.line + t.lineEnd (0 : Nat))
    (hc : h.line + 1 < d.lineCount ↔ 1 < t.lineCount) :
    (close d h bodyEnd stop terminated).bodyStart = d.lineStart h.line
      + if 1 < t.lineCount then t.lineStart (1 : Nat) else t.lineEnd (0 : Nat) := by
  simp only [close, hc]
  split
  · rename_i hl
    rw [t.lineCount_eq] at hl
    exact hs.lineStart (n := 1) (by omega)
  · exact hend

/-- In the text of a block its last line is the one at which the block stops. -/
theorem Ends.shown {d t : Document} {h : OpenBlock} {b : Block} (he : Ends d h b)
    (hs : d.Shows t b.start h.line) (hl : b.start + t.length = b.stop) : Shown d t h b := by
  have hcount := t.lineCount_eq
  have hlast : t.lineCount - 1 = t.text.count Bytes.newline := by omega
  have hat : d.lineAt b.stop = h.line + (t.lineCount - 1) := by
    rw [← hl, hs.lineAt (Nat.le_refl _), Document.lineAt_eq_count, Document.length, List.take_length,
      hlast]
  have hstart : d.lineStart (h.line + (t.lineCount - 1) : Nat)
      = b.start + t.lineStart (t.lineCount - 1 : Nat) := hs.lineStart (by omega)
  have hstop : t.lineStop (t.lineCount - 1 : Nat) = t.length := t.lineStop_of_last (by omega)
  cases he with
  | @terminated m ho hr =>
    have hlt := ho.before
    have hm : m < d.lineCount := ((d.isTerminator_iff_role m).mpr hr).lt_lineCount
    obtain rfl : m = h.line + (t.lineCount - 1) := by rw [← hat]; exact (d.lineAt_lineEnd hm).symm
    obtain ⟨hend, hline⟩ := hs.line_eq (n := 0) (Or.inl (by omega))
    have hrole : lineRole (t.line (t.lineCount - 1 : Nat)) = .terminator := by
      rw [← t.lineRole_slice_lineStop (by omega), hstop, ← hs.slice (Nat.le_refl _), hl, ← hstart, ← hr,
        d.line_nat hm]
      rfl
    exact ⟨hline, hend, close_bodyStart hs hend (by omega), by simp [close, hrole],
      by simpa [close] using hstart⟩
  | @interrupted m kind fields ho hr =>
    have hlt := ho.before
    have hm : m < d.lineCount := ((d.isHeader_iff_role m).mpr ⟨kind, fields, hr⟩).lt_lineCount
    obtain rfl : m = h.line + (t.lineCount - 1) := by rw [← hat]; exact (d.lineAt_lineStart hm).symm
    obtain ⟨hend, hline⟩ := hs.line_eq (n := 0) (Or.inl (by omega))
    -- The text ends with a newline, so its last line is empty.
    have hempty : t.line (t.lineCount - 1 : Nat) = [] := by
      by_contra hne
      have hlong := (t.lineStart_lt_lineEnd hne).2
      have hle := t.lineEnd_le_length (t.lineCount - 1)
      simp only [cut, close] at hl hstart
      omega
    exact ⟨hline, hend, close_bodyStart hs hend (by omega),
      by rw [hempty]; simp [cut, close, show lineRole [] = .other by decide], rfl⟩
  | unfinished ho =>
    have hlt := ho.before
    have hend := hs.lineCount_of_end hl
    have hline {n : Nat} (hn : n < t.lineCount) := hs.line_eq (Or.inr ⟨hl, hn⟩)
    have hrole : lineRole (t.line (t.lineCount - 1 : Nat)) ≠ .terminator := by
      rw [← (hline (n := t.lineCount - 1) (by omega)).2]
      by_cases hz : t.lineCount - 1 = 0
      · simp [hz, ho.role]
      · rw [ho.plain _ (by omega) (by omega)]
        simp
    exact ⟨(hline (n := 0) (by omega)).2, (hline (n := 0) (by omega)).1,
      close_bodyStart hs (hline (n := 0) (by omega)).1 (by omega), by simp [cut, close, hrole], rfl⟩

theorem Ends.range_start {d : Document} {h : OpenBlock} {b : Block} (he : Ends d h b) :
    b.range.start = ⟨h.line, 0⟩ := by
  obtain ⟨hn, hs, _⟩ := he.bounds
  rw [he.eq_close]
  exact d.positionAt_lineStart hn

theorem Shown.terminated_eq {d e t : Document} {g h : OpenBlock} {b c : Block} (hb : Shown d t g b)
    (hc : Shown e t h c) : b.terminated = c.terminated := by
  rw [Bool.eq_iff_iff, hb.terminated, hc.terminated]

/-- Blocks with one text at one place of documents with one URI are the same block, and their
documents look the same there. -/
theorem eq_of_key_eq {d e : Document} {b c : Block} (hb : b ∈ scan d) (hc : c ∈ scan e)
    (hk : BlockKey.ofBlock d b = BlockKey.ofBlock e c) :
    b = c ∧ d.SameBetween e b.start b.stop := by
  obtain ⟨_, g, rfl, hg⟩ := exists_beginsAt hb
  obtain ⟨_, h, rfl, hh⟩ := exists_beginsAt hc
  obtain ⟨hgn, hgs, hgb, hge, hgle, hgl⟩ := hg.bounds
  obtain ⟨hhn, hhs, hhb, hhe, hhle, hhl⟩ := hh.bounds
  simp only [BlockKey.ofBlock, BlockKey.mk.injEq, hg.range_start, hh.range_start] at hk
  obtain ⟨huri, htext, hstart, hline⟩ := hk
  have hline : g.line = h.line := Int.ofNat.inj hline
  have hlb := Bytes.length_slice d.text b.start hgl
  have hlc := Bytes.length_slice e.text c.start hhl
  have hstop : b.stop = c.stop := by rw [htext] at hlb; omega
  -- Both documents show the text of the blocks.
  let t := Document.ofText d.uri (d.text.slice b.start b.stop)
  have hdt : d.Shows t b.start g.line := by
    have hs := d.shows_slice hgn (hgs ▸ hgle)
    rwa [← hgs] at hs
  have het : e.Shows t c.start h.line := by
    have hs := e.shows_slice hhn (hhs ▸ hhle)
    rwa [← hhs, ← htext, ← huri] at hs
  have hl : b.start + t.length = b.stop := by
    have ht : t.length = b.stop - b.start := hlb
    omega
  have hb := hg.shown hdt hl
  have hc := hh.shown het (by omega)
  have hterm := hb.terminated_eq hc
  have hopen : g = h := by
    have hr := hg.role
    rw [hb.header, ← hc.header, hh.role] at hr
    obtain ⟨hkind, hfields⟩ := LineRole.header.inj hr
    cases g
    cases h
    simp_all
  subst hopen
  have hsame : d.SameBetween e b.start b.stop := hl ▸ hdt.sameBetween huri (hstart ▸ het)
  have hbody : b.bodyEnd = c.bodyEnd := by rw [hb.bodyEnd, hc.bodyEnd, hterm, hstart, hstop]
  have hend : b.headerEnd = c.headerEnd := by rw [hb.headerEnd, hc.headerEnd, hstart]
  have hstartBody : b.bodyStart = c.bodyStart := by rw [hb.bodyStart, hc.bodyStart, hstart]
  refine ⟨?_, hsame⟩
  have hb := hg.eq_close
  have hc := hh.eq_close
  rw [← hbody, ← hstop, ← hterm] at hc
  have hdb : b.bodyStart = (close d g b.bodyEnd b.stop b.terminated).bodyStart :=
    congrArg Block.bodyStart hb
  have heb : c.bodyStart = (close e g b.bodyEnd b.stop b.terminated).bodyStart :=
    congrArg Block.bodyStart hc
  have hdend : b.headerEnd = d.lineEnd g.line := congrArg Block.headerEnd hb
  have heend : c.headerEnd = e.lineEnd g.line := congrArg Block.headerEnd hc
  rw [hb, hc]
  exact close_congr (hgs ▸ hsame) (by rw [← hgs, ← hhs, hstart]) (by rw [← hdend, ← heend, hend])
    (by rw [← hdb, ← heb, hstartBody]) (hdb ▸ hgb) hge

end Block

end HostScript
