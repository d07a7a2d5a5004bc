import HostScript.Proofs.Block.Layout
import HostScript.Proofs.Document.RoundTrip
import HostScript.Server.State

/-!
Lines and their blocks. A line belongs to one block at most, and the block found at a position is the
one its line belongs to. Only where a header cuts a block off, that block is found at the beginning of
the header, which is the line of another block.
-/

set_option autoImplicit false

namespace HostScript

namespace Document

/-- The block whose header is line `n` goes as far as line `m`. -/
inductive LastLine (d : Document) (n : Nat) : Nat → Prop where
  | terminator {m : Nat} : d.Closes n m → (∀ k, k < m → ¬ d.Closes n k) → LastLine d n m
  | header {m : Nat} : (∀ k, ¬ d.Closes n k) → d.NextHeader n (m + 1) → LastLine d n m
  | text : (∀ k, ¬ d.Closes n k) → (∀ m, n < m → ¬ d.IsHeader m) → LastLine d n d.lastLine

theorem LastLine.unique {d : Document} {n a b : Nat} (ha : d.LastLine n a) (hb : d.LastLine n b) :
    a = b := by
  cases ha with
  | terminator hca hfa =>
    cases hb with
    | terminator hcb hfb =>
      rcases Nat.lt_trichotomy a b with hlt | heq | hgt
      · exact absurd hca (hfb a hlt)
      · exact heq
      · exact absurd hcb (hfa b hgt)
    | header hn => exact absurd hca (hn a)
    | text hn => exact absurd hca (hn a)
  | header hn hnext =>
    cases hb with
    | terminator hcb => exact absurd hcb (hn b)
    | header _ hnext' => exact Nat.succ.inj (hnext.unique hnext')
    | text _ hnone => exact absurd hnext.isHeader (hnone _ hnext.after)
  | text hn hnone =>
    cases hb with
    | terminator hcb => exact absurd hcb (hn b)
    | header _ hnext => exact absurd hnext.isHeader (hnone _ hnext.after)
    | text => rfl

theorem LastLine.lt_header {d : Document} {n last k : Nat} (h : d.LastLine n last) (hk : d.IsHeader k)
    (hlt : n < k) : last < k := by
  cases h with
  | terminator hc =>
    rcases Nat.lt_trichotomy last k with hl | rfl | hgt
    · exact hl
    · exact absurd hk hc.isTerminator.not_isHeader
    · exact absurd hk (hc.noHeader k hlt hgt)
  | header _ hnext =>
    by_contra hle
    exact hnext.noHeader k hlt (by omega) hk
  | text _ hnone => exact absurd hk (hnone k hlt)

theorem offsetAt_bounds {d : Document} {p : Position} {o : Nat} (h : d.offsetAt p = some o) :
    ∃ n, p.line = (n : Nat) ∧ n < d.lineCount ∧ d.lineStart n ≤ o ∧ o ≤ d.lineEnd n ∧
      (o = d.lineStart n ↔ p.character = 0) := by
  obtain ⟨n, front, hn, hline, hfront, rfl, hcases⟩ := offsetAt_eq_some h
  have hlen : Rune.sizes front ≤ (d.line n).length := Bytes.IsBoundary.le_length ⟨front, hfront, rfl⟩
  have hle := d.lineStart_le_lineEnd n
  rw [d.length_line hn] at hlen
  refine ⟨n, hline, hn, Nat.le_add_right _ _, by omega, ?_⟩
  have hpos : ∀ r ∈ front, 0 < r.size := fun r hr => Bytes.size_pos_of_mem_runes (hfront.subset hr)
  cases front with
  | nil =>
    rcases hcases with hunits | ⟨before, c, hnil, _⟩
    · simpa [Rune.sizes, Rune.units] using hunits
    · simp at hnil
  | cons r rest =>
    have hsize := hpos r List.mem_cons_self
    have hunits := unitsOf_pos r.char
    have hchar : 0 < p.character := by
      rcases hcases with hall | ⟨before, c, _, hsplit⟩
      · rw [hall]
        simp only [Rune.units]
        omega
      · have hbetween := hsplit.between
        omega
    simp only [Rune.sizes]
    omega

section InLine

variable {d : Document} {line m o : Nat} (hlow : d.lineStart line ≤ o) (hhigh : o ≤ d.lineEnd line)

include hlow hhigh

theorem lineStart_le_iff (hm : m < d.lineCount) : d.lineStart m ≤ o ↔ m ≤ line := by
  constructor
  · intro hle
    by_contra hlt
    have hend := d.lineEnd_lt_lineStart (Nat.lt_of_not_le hlt) hm
    omega
  · intro hle
    exact Nat.le_trans (d.lineStart_mono hle) hlow

theorem le_lineEnd_iff (hline : line < d.lineCount) : o ≤ d.lineEnd m ↔ line ≤ m := by
  constructor
  · intro hle
    by_contra hlt
    have hend := d.lineEnd_lt_lineStart (Nat.lt_of_not_le hlt) hline
    omega
  · intro hle
    rcases Nat.lt_or_eq_of_le hle with hlt | rfl
    · have hend := d.lineEnd_le_lineStart hlt
      have hmono := d.lineStart_le_lineEnd m
      omega
    · exact hhigh

theorem le_lineStart_iff (hline : line < d.lineCount) :
    o ≤ d.lineStart m ↔ line < m ∨ line = m ∧ o = d.lineStart line := by
  rcases Nat.lt_trichotomy line m with hlt | rfl | hgt
  · have hend := d.lineEnd_le_lineStart hlt
    omega
  · omega
  · have hafter := d.lineStart_lt hgt hline
    omega

end InLine

end Document

namespace Block

/-- The line is one of the lines of the block. -/
def Covers (d : Document) (b : Block) (line : Nat) : Prop :=
  ∃ n last : Nat, b.start = d.lineStart n ∧ d.IsHeader n ∧ d.LastLine n last ∧
    n ≤ line ∧ line ≤ last

/-- The block has no terminator, and the header at the line cuts it off. -/
def CutAt (d : Document) (b : Block) (line : Nat) : Prop :=
  b.terminated = false ∧ ∃ n : Nat, b.start = d.lineStart n ∧ d.IsHeader n ∧ d.NextHeader n line

theorem line_eq_of_start {d : Document} {m n : Nat} (hm : d.IsHeader m) (hn : d.IsHeader n)
    (h : d.lineStart m = d.lineStart n) : m = n := by
  rcases Nat.lt_trichotomy m n with hlt | heq | hgt
  · exact absurd h (Nat.ne_of_lt (d.lineStart_lt hlt hn.lt_lineCount))
  · exact heq
  · exact absurd h.symm (Nat.ne_of_lt (d.lineStart_lt hgt hm.lt_lineCount))

theorem BeginsAt.covers_iff {d : Document} {n last line : Nat} {b : Block} (hb : BeginsAt d n b)
    (hl : d.LastLine n last) : b.Covers d line ↔ n ≤ line ∧ line ≤ last := by
  constructor
  · rintro ⟨n', last', hstart, hn', hlast', hlow, hhigh⟩
    obtain rfl := line_eq_of_start hb.isHeader hn' (hb.liesAt.start_eq.symm.trans hstart)
    obtain rfl := hl.unique hlast'
    exact ⟨hlow, hhigh⟩
  · rintro ⟨hlow, hhigh⟩
    exact ⟨n, last, hb.liesAt.start_eq, hb.isHeader, hl, hlow, hhigh⟩

theorem BeginsAt.cutAt_iff {d : Document} {n line : Nat} {b : Block} (hb : BeginsAt d n b) :
    b.CutAt d line ↔ b.terminated = false ∧ d.NextHeader n line := by
  constructor
  · rintro ⟨ht, n', hstart, hn', hnext⟩
    obtain rfl := line_eq_of_start hb.isHeader hn' (hb.liesAt.start_eq.symm.trans hstart)
    exact ⟨ht, hnext⟩
  · rintro ⟨ht, hnext⟩
    exact ⟨ht, n, hb.liesAt.start_eq, hb.isHeader, hnext⟩

theorem BeginsAt.not_closes {d : Document} {n : Nat} {b : Block} (hb : BeginsAt d n b)
    (ht : b.terminated = false) (k : Nat) : ¬ d.Closes n k := by
  intro hk
  have hterm := hb.liesAt.terminated_iff.mpr ⟨k, hk⟩
  rw [ht] at hterm
  cases hterm

/-- The last line of a block, and where its text stops, by the way in which it ends. -/
inductive Reaches (d : Document) (n : Nat) (b : Block) : Prop where
  | terminator {m : Nat} : d.LastLine n m → d.IsTerminator m → b.terminated = true →
      b.stop = d.lineEnd m → Reaches d n b
  | header {m : Nat} : d.LastLine n m → d.NextHeader n (m + 1) → b.terminated = false →
      b.stop = d.lineStart (m + 1 : Nat) → Reaches d n b
  | text : d.LastLine n d.lastLine → (∀ m, ¬ d.NextHeader n m) → b.terminated = false →
      b.stop = d.length → Reaches d n b

theorem BeginsAt.reaches {d : Document} {n : Nat} {b : Block} (hb : BeginsAt d n b) : b.Reaches d n := by
  have hbegins := hb
  obtain ⟨h, rfl, he⟩ := hbegins
  cases he with
  | @terminated m ho hr =>
    have hfirst : ∀ k, k < m → ¬ d.Closes h.line k := fun k hk hc =>
      ho.plain.not_isTerminator hc.after hk hc.isTerminator
    exact .terminator (.terminator (ho.closes hr) hfirst) (ho.closes hr).isTerminator rfl rfl
  | @interrupted m kind fields ho hr =>
    have hnext := ho.nextHeader hr
    obtain ⟨k, rfl⟩ : ∃ k, m = k + 1 := ⟨m - 1, by have := ho.before; omega⟩
    exact .header (.header (hb.not_closes rfl) hnext) hnext rfl rfl
  | unfinished ho =>
    have hnone : ∀ m, h.line < m → ¬ d.IsHeader m := fun m hm hh =>
      ho.plain.not_isHeader hm hh.lt_lineCount hh
    exact .text (.text (hb.not_closes rfl) hnone) (fun m hnext => hnone m hnext.after hnext.isHeader) rfl rfl

/-- A block holds the offsets of its lines, and where a header cuts it off also the beginning of that
header. -/
theorem BeginsAt.contains_iff {d : Document} {n line o : Nat} {b : Block} (hb : BeginsAt d n b)
    (hline : line < d.lineCount) (hlow : d.lineStart line ≤ o) (hhigh : o ≤ d.lineEnd line) :
    b.contains o = true ↔ b.Covers d line ∨ b.CutAt d line ∧ o = d.lineStart line := by
  have hbefore : b.start ≤ o ↔ n ≤ line := by
    rw [hb.liesAt.start_eq]
    exact Document.lineStart_le_iff hlow hhigh hb.isHeader.lt_lineCount
  have hcontains : b.contains o = true ↔ n ≤ line ∧ o ≤ b.stop := by
    simp only [contains, Bool.and_eq_true, decide_eq_true_eq, Int.ofNat_le, hbefore]
  rw [hcontains, hb.cutAt_iff]
  cases hb.reaches with
  | terminator hl _ ht hstop =>
    simp only [hb.covers_iff hl, ht, Bool.true_eq_false, false_and, or_false]
    rw [hstop]
    exact and_congr_right fun _ => Document.le_lineEnd_iff hlow hhigh hline
  | @header m hl hnext ht hstop =>
    have hcut : d.NextHeader n line ↔ line = m + 1 := ⟨fun hc => hc.unique hnext, fun heq => heq ▸ hnext⟩
    have hafter := hnext.after
    simp only [hb.covers_iff hl, ht, true_and, hcut]
    rw [hstop, Document.le_lineStart_iff hlow hhigh hline]
    omega
  | text hl hnone ht hstop =>
    have hend := d.lineEnd_le_length line
    have hlast := d.lastLine_succ
    simp only [hb.covers_iff hl, hnone line, and_false, false_and, or_false]
    omega

theorem CutAt.not_covers {d : Document} {b : Block} {line : Nat} (h : b.CutAt d line) :
    ¬ b.Covers d line := by
  rintro ⟨n, last, hstart, hn, hlast, _, hhigh⟩
  obtain ⟨_, m, hstart', hm, hnext⟩ := h
  obtain rfl := line_eq_of_start hn hm (hstart.symm.trans hstart')
  have hlt := hlast.lt_header hnext.isHeader hnext.after
  omega

theorem exists_beginsAt_of_isHeader {d : Document} {n : Nat} (h : d.IsHeader n) :
    ∃ b ∈ scan d, BeginsAt d n b := by
  have hf := scan_beginsAt d
  have hm : n ∈ d.headerLines :=
    List.mem_filter.mpr ⟨List.mem_range.mpr h.lt_lineCount, decide_eq_true h⟩
  obtain ⟨i, hi, rfl⟩ := List.mem_iff_getElem.mp hm
  exact ⟨_, List.getElem_mem (hf.length_eq ▸ hi), hf.get hi (hf.length_eq ▸ hi)⟩

theorem exists_covers {d : Document} {n : Nat} (h : d.IsHeader n) : ∃ b ∈ scan d, b.Covers d n := by
  obtain ⟨b, hb, hbegins⟩ := exists_beginsAt_of_isHeader h
  have hin : b.contains (d.lineStart n : Nat) = true := by
    have hl := hbegins.liesAt
    have hheader := hl.start_le_headerEnd
    have hbody := hl.headerEnd_le_bodyStart
    have hend := hl.bodyStart_le_bodyEnd
    have hstop := hl.bodyEnd_le_stop
    simp only [contains, ← hl.start_eq, Bool.and_eq_true, decide_eq_true_eq]
    omega
  have hiff := hbegins.contains_iff h.lt_lineCount (Nat.le_refl _) (d.lineStart_le_lineEnd n)
  rcases hiff.mp hin with hc | ⟨hc, _⟩
  · exact ⟨b, hb, hc⟩
  · exact absurd (hbegins.cutAt_iff.mp hc).2.after (Nat.lt_irrefl n)

theorem eq_of_covers {d : Document} {a b : Block} {line : Nat} (ha : a ∈ scan d) (hb : b ∈ scan d)
    (hca : a.Covers d line) (hcb : b.Covers d line) : a = b := by
  obtain ⟨m, lastA, hsa, hm, hla, hlowA, hhighA⟩ := hca
  obtain ⟨n, lastB, hsb, hn, hlb, hlowB, hhighB⟩ := hcb
  rcases Nat.lt_trichotomy m n with hlt | rfl | hgt
  · have hlast := hla.lt_header hn hlt
    omega
  · exact eq_of_start_eq ha hb (hsa.trans hsb.symm)
  · have hlast := hlb.lt_header hm hgt
    omega

end Block

section Position

variable {d : Document} {p : Position} {o : Nat} (h : d.offsetAt p = some o)

include h

theorem Document.blockAt?_eq (b : Block) : d.blockAt? p = some b ↔ Block.at? (Block.scan d) o = some b := by
  rw [blockAt?, h, Option.bind_some]

theorem Block.contains_iff {b : Block} (hb : b ∈ Block.scan d) : b.contains o = true ↔
    b.Covers d p.line.toNat ∨ b.CutAt d p.line.toNat ∧ p.character = 0 := by
  obtain ⟨n, hline, hn, hlow, hhigh, hzero⟩ := Document.offsetAt_bounds h
  obtain ⟨m, hb⟩ := exists_beginsAt hb
  rw [hline, Int.toNat_natCast, ← hzero]
  exact hb.contains_iff hn hlow hhigh

theorem Document.blockAt?_of_cutAt {a : Block} (ha : a ∈ Block.scan d) (hc : a.CutAt d p.line.toNat)
    (hp : p.character = 0) : d.blockAt? p = some a := by
  rw [blockAt?_eq h, Block.at?_eq_some_iff]
  refine ⟨ha, (Block.contains_iff h ha).mpr (Or.inr ⟨hc, hp⟩), fun b hb hlt => ?_⟩
  -- A block before that one stops where that one begins at the latest, which is before the header.
  obtain ⟨n, hline, hn, hlow, -, -⟩ := offsetAt_bounds h
  obtain ⟨_, m, hstart, hm, hnext⟩ := hc
  rw [hline, Int.toNat_natCast] at hnext
  have hstop := (Block.stop_le_start hb ha hlt).1
  have hbefore : d.lineStart m < d.lineStart n := d.lineStart_lt hnext.after hn
  refine Bool.eq_false_iff.mpr fun hin => ?_
  simp only [Block.contains, Bool.and_eq_true, decide_eq_true_eq] at hin
  omega

theorem Block.exists_contains_iff : (∃ b ∈ Block.scan d, b.contains o = true) ↔
    ∃ b ∈ Block.scan d, b.Covers d p.line.toNat := by
  constructor
  · rintro ⟨b, hb, hin⟩
    rcases (contains_iff h hb).mp hin with hc | ⟨⟨_, _, _, _, hnext⟩, _⟩
    · exact ⟨b, hb, hc⟩
    · exact exists_covers hnext.isHeader
  · rintro ⟨b, hb, hc⟩
    exact ⟨b, hb, (contains_iff h hb).mpr (Or.inl hc)⟩

/-- The block found at a position is the one its line belongs to, and none is found if there is none,
except that at the beginning of a header that cuts a block off that block is found. -/
theorem Document.blockAt?_covers_iff :
    ((∀ b, d.blockAt? p = some b ↔ b ∈ Block.scan d ∧ b.Covers d p.line.toNat) ↔
      ∀ a ∈ Block.scan d, a.CutAt d p.line.toNat → p.character ≠ 0) ∧
    (∀ a ∈ Block.scan d, a.CutAt d p.line.toNat → p.character = 0 → d.blockAt? p = some a) ∧
    (d.blockAt? p = none ↔ ∀ b ∈ Block.scan d, ¬ b.Covers d p.line.toNat) := by
  refine ⟨⟨fun hall a ha hc hp => ?_, fun hno b => ?_⟩, fun a => blockAt?_of_cutAt h, ?_⟩
  · exact hc.not_covers ((hall a).mp (blockAt?_of_cutAt h ha hc hp)).2
  · have hcovers {a : Block} (ha : a ∈ Block.scan d) (hin : a.contains o = true) :
        a.Covers d p.line.toNat := by
      rcases (Block.contains_iff h ha).mp hin with hc | ⟨hc, hp⟩
      · exact hc
      · exact absurd hp (hno a ha hc)
    rw [blockAt?_eq h, Block.at?_eq_some_iff]
    constructor
    · rintro ⟨hb, hin, _⟩
      exact ⟨hb, hcovers hb hin⟩
    · rintro ⟨hb, hc⟩
      refine ⟨hb, (Block.contains_iff h hb).mpr (Or.inl hc), fun a ha hlt => ?_⟩
      refine Bool.eq_false_iff.mpr fun hin => ?_
      rw [Block.eq_of_covers ha hb (hcovers ha hin) hc] at hlt
      exact Nat.lt_irrefl _ hlt
  · have hnone : d.blockAt? p = none ↔ ¬ ∃ b ∈ Block.scan d, b.contains o = true := by
      rw [blockAt?, h, Option.bind_some, Block.at?, List.find?_eq_none]
      simp
    rw [hnone, Block.exists_contains_iff h]
    simp

end Position

namespace Document

def headersInRow : Document := .ofText "a" (utf8 "SCRIPT:1,A\nSCRIPT:2,B\nENDSCRIPT\n")

def cutBlock : Block := .cut headersInRow ⟨0, .script, utf8 "1,A"⟩ 11

def cuttingBlock : Block := .close headersInRow ⟨1, .script, utf8 "2,B"⟩ 22 31 true

theorem headersInRow_scan : Block.scan headersInRow = [cutBlock, cuttingBlock] := by decide +kernel

theorem nextHeader_headersInRow : headersInRow.NextHeader 0 1 :=
  ⟨by decide, by decide +kernel, fun k hk hk' => by omega⟩

theorem cutBlock_cutAt : cutBlock.CutAt headersInRow 1 :=
  ⟨rfl, 0, rfl, by decide +kernel, nextHeader_headersInRow⟩

theorem cuttingBlock_covers : cuttingBlock.Covers headersInRow 1 := by
  obtain ⟨b, hb, hc⟩ := Block.exists_covers nextHeader_headersInRow.isHeader
  rw [headersInRow_scan] at hb
  rcases List.mem_cons.mp hb with rfl | hb
  · exact absurd hc cutBlock_cutAt.not_covers
  · rwa [List.mem_singleton.mp hb] at hc

theorem blockAt?_covers_iff_headersInRow :
    (headersInRow.offsetAt ⟨1, 0⟩ = some 11 ∧ headersInRow.blockAt? ⟨1, 0⟩ = some cutBlock) ∧
      headersInRow.offsetAt ⟨2, 9⟩ = some 31 ∧
      ∀ b, headersInRow.blockAt? ⟨2, 9⟩ = some b ↔
        b ∈ Block.scan headersInRow ∧ b.Covers headersInRow 2 := by
  have hheader : headersInRow.offsetAt ⟨1, 0⟩ = some 11 := by decide +kernel
  have hlast : headersInRow.offsetAt ⟨2, 9⟩ = some 31 := by decide +kernel
  have hcut : cutBlock ∈ Block.scan headersInRow := by simp [headersInRow_scan]
  refine ⟨⟨hheader, (blockAt?_covers_iff hheader).2.1 _ hcut cutBlock_cutAt rfl⟩, hlast, ?_⟩
  exact (blockAt?_covers_iff hlast).1.mpr fun _ _ _ => by decide

/-- At the beginning of its header another block is found. -/
theorem cuttingBlock_not_found :
    headersInRow.offsetAt ⟨1, 0⟩ = some 11 ∧ cuttingBlock ∈ Block.scan headersInRow ∧
      cuttingBlock.headerRange.start = ⟨1, 0⟩ ∧ cuttingBlock.Covers headersInRow 1 ∧
      ¬ cutBlock.Covers headersInRow 1 ∧ headersInRow.blockAt? ⟨1, 0⟩ = some cutBlock ∧
      ¬ ∀ b, headersInRow.blockAt? ⟨1, 0⟩ = some b ↔
        b ∈ Block.scan headersInRow ∧ b.Covers headersInRow 1 := by
  have hfound : headersInRow.blockAt? ⟨1, 0⟩ = some cutBlock := by decide +kernel
  refine ⟨by decide +kernel, by simp [headersInRow_scan], by decide +kernel, cuttingBlock_covers,
    cutBlock_cutAt.not_covers, hfound, fun hall => ?_⟩
  exact cutBlock_cutAt.not_covers ((hall cutBlock).mp hfound).2

end Document

end HostScript
