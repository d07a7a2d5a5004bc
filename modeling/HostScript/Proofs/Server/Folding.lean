import HostScript.Proofs.Block.Covering
import HostScript.Server.Folding

set_option autoImplicit false

namespace HostScript

namespace Document

variable {d : Document}

/-- The block whose header is line `n` goes as far as line `last`. A line without text that ends the
document does not count. -/
def LastText (d : Document) (n last : Nat) : Prop :=
  ∃ m, d.LastLine n m ∧
    (m = last ∧ d.lineStart m < d.length ∨ m = last + 1 ∧ d.lineStart m = d.length)

theorem LastText.unique {n a b : Nat} (ha : d.LastText n a) (hb : d.LastText n b) : a = b := by
  obtain ⟨m, hm, ha⟩ := ha
  obtain ⟨m', hm', hb⟩ := hb
  obtain rfl := hm.unique hm'
  omega

theorem LastText.lt_header {n last k : Nat} (h : d.LastText n last) (hk : d.IsHeader k) (hlt : n < k) :
    last < k := by
  obtain ⟨m, hm, hlast⟩ := h
  have hbefore := hm.lt_header hk hlt
  omega

theorem LastLine.bounds {n m : Nat} (h : d.LastLine n m) (hn : n < d.lineCount) :
    n ≤ m ∧ m < d.lineCount := by
  have hlast := d.lastLine_succ
  cases h with
  | terminator hc =>
    have hafter := hc.after
    exact ⟨by omega, hc.isTerminator.lt_lineCount⟩
  | header _ hnext =>
    have hafter := hnext.after
    have hlt := hnext.isHeader.lt_lineCount
    omega
  | text => omega

theorem lineStart_lt_length {n : Nat} (h : lineRole (d.line n) ≠ .other) : d.lineStart n < d.length :=
  Nat.lt_of_lt_of_le (d.lineStart_lt_lineEnd (d.line_ne_nil h)).2 (d.lineEnd_le_length n)

/-- A comment line that declares no hook. -/
def IsComment (d : Document) (n : Nat) : Prop :=
  utf8 "//" <+: (d.line n).trim ∧ ¬ utf8 "//ADDHOOK" <+: (d.line n).trim

/-- Of the lines from `first` on, those from `i` on and before `n` are comment lines, and the line
before them is none. There may be no such lines. -/
structure CommentsUpTo (d : Document) (first i n : Nat) : Prop where
  low : first ≤ i
  comments : ∀ k, i ≤ k → k < n → d.IsComment k
  before : ∀ k, first ≤ k → k + 1 = i → ¬ d.IsComment k

/-- The lines from `i` to `j` are a longest run of comment lines among those from `first` to `last`. -/
structure CommentRun (d : Document) (first last i j : Nat) : Prop extends
    d.CommentsUpTo first i (j + 1) where
  high : j ≤ last
  behind : ∀ k, k = j + 1 → k ≤ last → ¬ d.IsComment k

theorem CommentsUpTo.unique {first i i' n : Nat} (h : d.CommentsUpTo first i n)
    (h' : d.CommentsUpTo first i' n) (hi : i < n) (hi' : i' < n) : i = i' := by
  rcases Nat.lt_trichotomy i i' with hlt | heq | hgt
  · exact absurd (h.comments (i' - 1) (by omega) (by omega))
      (h'.before (i' - 1) (by have := h.low; omega) (by omega))
  · exact heq
  · exact absurd (h'.comments (i - 1) (by omega) (by omega))
      (h.before (i - 1) (by have := h'.low; omega) (by omega))

theorem CommentsUpTo.succ {first i n : Nat} (h : d.CommentsUpTo first i n) (hn : d.IsComment n) :
    d.CommentsUpTo first i (n + 1) where
  low := h.low
  comments k hk hlt := by
    rcases Nat.lt_or_eq_of_le (Nat.le_of_lt_succ hlt) with hlt | rfl
    · exact h.comments k hk hlt
    · exact hn
  before := h.before

theorem CommentsUpTo.anew {first n : Nat} (hle : first ≤ n) (hn : ¬ d.IsComment n) :
    d.CommentsUpTo first (n + 1) (n + 1) where
  low := by omega
  comments k hk hlt := by omega
  before k _ hk := by
    obtain rfl : k = n := by omega
    exact hn

end Document

/-- The block goes from line `first` to line `last`. -/
def Block.Spans (d : Document) (b : Block) (first last : Nat) : Prop :=
  b.start = d.lineStart first ∧ d.IsHeader first ∧ d.LastText first last

theorem Block.Spans.unique {d : Document} {b : Block} {first last first' last' : Nat}
    (h : b.Spans d first last) (h' : b.Spans d first' last') : first = first' ∧ last = last' := by
  obtain ⟨hstart, hheader, hlast⟩ := h
  obtain ⟨hstart', hheader', hlast'⟩ := h'
  obtain rfl := line_eq_of_start hheader hheader' (hstart.symm.trans hstart')
  exact ⟨rfl, hlast.unique hlast'⟩

namespace Folding

/-- What can be folded in a document. -/
inductive Foldable (d : Document) : FoldingRange → Prop where
  | region {b : Block} {first last : Nat} : b ∈ Block.scan d → b.Spans d first last → first < last →
      Foldable d ⟨.region, first, last⟩
  | comment {b : Block} {first last i j : Nat} : b ∈ Block.scan d → b.Spans d first last →
      d.CommentRun first last i j → i < j → Foldable d ⟨.comment, i, j⟩

variable {d : Document}

theorem isComment_iff (d : Document) (n : Nat) : isComment (d.line n) = true ↔ d.IsComment n := by
  simp only [isComment, Document.IsComment, Bytes.startsWith, Bool.and_eq_true, Bool.not_eq_true',
    ← Bool.not_eq_true, List.isPrefixOf_iff_prefix]

def linesFrom (d : Document) (n count : Nat) : List Bytes := (List.range' n count).map fun k : Nat => d.line k

theorem linesOf_eq {n last : Nat} (hlast : last < d.lineCount) :
    linesOf d n last = linesFrom d n (last + 1 - n) := by
  have hcount : (min ((last : Int) + 1) d.lineCount - n).toNat = last + 1 - n := by omega
  rw [linesOf, linesFrom, hcount, List.range'_eq_map_range, List.map_map]
  simp [Function.comp_def]

/-- What is known before line `n`: the run of comment lines that reaches up to there begins at `i`. -/
structure Pending (d : Document) (first i n : Nat) (run : Option Int) : Prop extends
    d.CommentsUpTo first i n where
  le : i ≤ n
  run_eq : run = if i < n then some (i : Int) else none

theorem Pending.start (d : Document) (first : Nat) : Pending d first first first none where
  low := Nat.le_refl _
  comments k hk hlt := by omega
  before k hk heq := by omega
  le := Nat.le_refl _
  run_eq := by rw [if_neg (Nat.lt_irrefl _)]

theorem Pending.comment {first i n : Nat} {run : Option Int} (h : Pending d first i n run)
    (hn : d.IsComment n) : Pending d first i (n + 1) (some (run.getD n)) where
  toCommentsUpTo := h.succ hn
  le := Nat.le_succ_of_le h.le
  run_eq := by
    have hle := h.le
    rw [if_pos (by omega), h.run_eq]
    split
    · rfl
    · obtain rfl : i = n := by omega
      rfl

theorem Pending.plain {first i n : Nat} {run : Option Int} (h : Pending d first i n run)
    (hn : ¬ d.IsComment n) : Pending d first (n + 1) (n + 1) none where
  toCommentsUpTo := .anew (Nat.le_trans h.low h.le) hn
  le := Nat.le_refl _
  run_eq := by rw [if_neg (Nat.lt_irrefl _)]

theorem Pending.flush {first i n : Nat} {run : Option Int} (h : Pending d first i n run) :
    (run.map fun first => runOf first (n - 1)).getD []
      = if i + 1 < n then [⟨.comment, (i : Int), (n : Int) - 1⟩] else [] := by
  rw [h.run_eq]
  split
  · rename_i hlt
    simp only [Option.map_some, Option.getD_some, runOf]
    congr 1
    simp only [eq_iff_iff]
    omega
  · rw [if_neg (by omega)]
    rfl

theorem Pending.mem_flush_iff {first i n : Nat} {run : Option Int} (h : Pending d first i n run) (last : Nat)
    (hn : n ≤ last + 1) (hend : n ≤ last → ¬ d.IsComment n) (r : FoldingRange) :
    r ∈ (run.map fun first => runOf first (n - 1)).getD [] ↔
      ∃ i' j : Nat, d.CommentRun first last i' j ∧ i' < j ∧ j + 1 = n ∧ r = ⟨.comment, i', j⟩ := by
  rw [h.flush]
  constructor
  · intro hr
    split at hr
    · rename_i hlt
      obtain rfl := List.mem_singleton.mp hr
      obtain ⟨j, rfl⟩ : ∃ j, n = j + 1 := ⟨n - 1, by omega⟩
      refine ⟨i, j, ⟨h.toCommentsUpTo, by omega, fun k hk hle => hk ▸ hend (hk ▸ hle)⟩, by omega, rfl, ?_⟩
      simp
    · cases hr
  · rintro ⟨i', j, hrun, hlt, rfl, rfl⟩
    have hle := h.le
    have hlow := h.low
    by_cases hi : i = j + 1
    · -- The line before the pending run would be a comment line.
      exact absurd (hrun.comments j (by omega) (by omega)) (h.before j (by have := hrun.low; omega) hi.symm)
    · obtain rfl := h.unique hrun.toCommentsUpTo (by omega) (by omega)
      rw [if_pos (by omega)]
      simp

/-- The lines from `n` on give the runs that end there or behind. -/
theorem mem_commentRuns_iff {first i n : Nat} {run : Option Int} (h : Pending d first i n run) (last : Nat)
    {count : Nat} (hn : n + count = last + 1) (r : FoldingRange) :
    r ∈ commentRuns n run (linesFrom d n count) ↔
      ∃ i' j : Nat, d.CommentRun first last i' j ∧ i' < j ∧ n ≤ j + 1 ∧ r = ⟨.comment, i', j⟩ := by
  induction count generalizing i n run with
  | zero =>
    rw [linesFrom, List.range'_zero, List.map_nil, commentRuns,
      h.mem_flush_iff last (by omega) (by omega)]
    constructor
    · rintro ⟨i', j, hrun, hlt, hj, rfl⟩
      exact ⟨i', j, hrun, hlt, by omega, rfl⟩
    · rintro ⟨i', j, hrun, hlt, hj, rfl⟩
      have hhigh := hrun.high
      exact ⟨i', j, hrun, hlt, by omega, rfl⟩
  | succ count ih =>
    have hcast : ((n : Int) + 1) = ((n + 1 : Nat) : Int) := by omega
    rw [linesFrom, List.range'_succ, List.map_cons, commentRuns, hcast]
    by_cases hc : d.IsComment n
    · rw [if_pos ((isComment_iff d n).mpr hc), ← linesFrom, ih (h.comment hc) (by omega)]
      constructor
      · rintro ⟨i', j, hrun, hlt, hj, rfl⟩
        exact ⟨i', j, hrun, hlt, by omega, rfl⟩
      · rintro ⟨i', j, hrun, hlt, hj, rfl⟩
        -- No run ends right before a comment line.
        have hne : n ≠ j + 1 := fun heq => hrun.behind n heq (by omega) hc
        exact ⟨i', j, hrun, hlt, by omega, rfl⟩
    · rw [if_neg (fun hin => hc ((isComment_iff d n).mp hin)), ← linesFrom, List.mem_append,
        h.mem_flush_iff last (by omega) (fun _ => hc), ih (h.plain hc) (by omega)]
      constructor
      · rintro (⟨i', j, hrun, hlt, hj, rfl⟩ | ⟨i', j, hrun, hlt, hj, rfl⟩)
        · exact ⟨i', j, hrun, hlt, by omega, rfl⟩
        · exact ⟨i', j, hrun, hlt, by omega, rfl⟩
      · rintro ⟨i', j, hrun, hlt, hj, rfl⟩
        rcases Nat.eq_or_lt_of_le hj with heq | hgt
        · exact Or.inl ⟨i', j, hrun, hlt, heq.symm, rfl⟩
        · exact Or.inr ⟨i', j, hrun, hlt, by omega, rfl⟩

theorem commentRuns_pairwise {first i n : Nat} {run : Option Int} (h : Pending d first i n run)
    (count : Nat) : (commentRuns n run (linesFrom d n count)).Pairwise fun r r' => r.last < r'.first := by
  induction count generalizing i n run with
  | zero =>
    rw [linesFrom, List.range'_zero, List.map_nil, commentRuns, h.flush]
    split <;> simp
  | succ count ih =>
    have hcast : ((n : Int) + 1) = ((n + 1 : Nat) : Int) := by omega
    rw [linesFrom, List.range'_succ, List.map_cons, commentRuns, hcast, ← linesFrom]
    by_cases hc : d.IsComment n
    · rw [if_pos ((isComment_iff d n).mpr hc)]
      exact ih (h.comment hc)
    · rw [if_neg (fun hin => hc ((isComment_iff d n).mp hin)), h.flush, List.pairwise_append]
      refine ⟨by split <;> simp, ih (h.plain hc), fun r hr r' hr' => ?_⟩
      -- Behind a line that is no comment all is as if the lines began there.
      have hend : n + 1 + count = n + count + 1 := by omega
      have hstart := mem_commentRuns_iff (.start d (n + 1)) (n + count) hend r'
      obtain ⟨i', j, hrun, -, -, rfl⟩ := hstart.mp hr'
      have hlow := hrun.low
      split at hr
      · obtain rfl := List.mem_singleton.mp hr
        simp only
        omega
      · cases hr

theorem exists_spans {b : Block} (hb : b ∈ Block.scan d) : ∃ first last : Nat, b.Spans d first last ∧
    first ≤ last ∧ last < d.lineCount ∧ b.range.start.line = first ∧ lastLine b = last := by
  obtain ⟨n, hbegins⟩ := Block.exists_beginsAt hb
  have hheader := hbegins.isHeader
  have hfirst := hbegins.liesAt.start_eq
  have hrange : b.range = d.range b.start b.stop := by
    obtain ⟨h, rfl, he⟩ := hbegins
    rw [he.eq_close]
    rfl
  have hstart : b.range.start = ⟨n, 0⟩ := by
    rw [hrange, hfirst]
    exact d.positionAt_lineStart hheader.lt_lineCount
  have hstop : b.range.stop = d.positionAt b.stop := by
    rw [hrange]
    rfl
  cases hbegins.reaches with
  | @terminator m hl hr ht hm =>
    obtain ⟨hle, hlt⟩ := hl.bounds hheader.lt_lineCount
    have htext : d.lineStart m < d.length :=
      Document.lineStart_lt_length (by simp [(d.isTerminator_iff_role m).mp hr])
    have hline : (d.positionAt (d.lineEnd m)).line = m := by
      have hclamp : d.clamp (d.lineEnd m) = d.lineEnd m := Nat.min_eq_left (d.lineEnd_le_length m)
      simp only [Document.positionAt, hclamp, d.lineAt_lineEnd hlt]
    refine ⟨n, m, ⟨hfirst, hheader, m, hl, .inl ⟨rfl, htext⟩⟩, hle, hlt, by rw [hstart], ?_⟩
    simp [lastLine, ht, hstop, hm, hline]
  | @header m hl hnext ht hm =>
    obtain ⟨hle, hlt⟩ := hl.bounds hheader.lt_lineCount
    have hnextLine := hnext.isHeader.lt_lineCount
    have htext : d.lineStart m < d.length :=
      Nat.lt_of_lt_of_le (d.lineStart_lt (Nat.lt_succ_self m) hnextLine) (d.lineStart_le_length _)
    refine ⟨n, m, ⟨hfirst, hheader, m, hl, .inl ⟨rfl, htext⟩⟩, hle, hlt, by rw [hstart], ?_⟩
    have hcut : (n : Int) < (m + 1 : Nat) := by omega
    simp only [lastLine, ht, hstop, hm, d.positionAt_lineStart hnextLine, hstart, hcut]
    simp
  | text hl hnone ht hm =>
    have hn := Document.lineStart_lt_length (d := d) (n := n) (by
      obtain ⟨kind, fields, hr⟩ := (d.isHeader_iff_role n).mp hheader
      simp [hr])
    obtain ⟨hle, hlt⟩ := hl.bounds hheader.lt_lineCount
    have hunits : Bytes.units (d.text.drop (d.lineStart d.lastLine)) = 0 ↔
        d.text.length ≤ d.lineStart d.lastLine := by rw [Bytes.units_eq_zero, List.drop_eq_nil_iff]
    by_cases hempty : d.lineStart d.lastLine = d.length
    · have hne : n ≠ d.lastLine := by
        rintro rfl
        omega
      refine ⟨n, d.lastLine - 1, ⟨hfirst, hheader, d.lastLine, hl, .inr ⟨by omega, hempty⟩⟩, by omega, by omega,
        by rw [hstart], ?_⟩
      have hcut : (n : Int) < d.lastLine := by omega
      have hzero := hunits.mpr (Nat.le_of_eq hempty.symm)
      simp only [lastLine, ht, hstop, hm, d.positionAt_length, hstart, hcut, hzero]
      simp
      omega
    · have htext := Nat.lt_of_le_of_ne (d.lineStart_le_length d.lastLine) hempty
      have hsome : Bytes.units (d.text.drop (d.lineStart d.lastLine)) ≠ 0 := fun hzero => by
        have hle := hunits.mp hzero
        unfold Document.length at htext
        omega
      refine ⟨n, d.lastLine, ⟨hfirst, hheader, d.lastLine, hl, .inl ⟨rfl, htext⟩⟩, hle, hlt, by rw [hstart], ?_⟩
      simp [lastLine, hstop, hm, d.positionAt_length, hsome]

theorem ofBlock_eq {b : Block} {first last : Nat} (hlt : last < d.lineCount)
    (hfirst : b.range.start.line = first) (hlast : lastLine b = last) : ofBlock d b
      = (if first < last then [⟨.region, (first : Int), (last : Int)⟩] else [])
        ++ commentRuns first none (linesFrom d first (last + 1 - first)) := by
  simp only [ofBlock, hfirst, hlast, linesOf_eq hlt, Int.ofNat_lt]

theorem mem_ofBlock_iff {b : Block} (hb : b ∈ Block.scan d) (r : FoldingRange) : r ∈ ofBlock d b ↔
    ∃ first last : Nat, b.Spans d first last ∧
      (first < last ∧ r = ⟨.region, first, last⟩ ∨
        ∃ i j : Nat, d.CommentRun first last i j ∧ i < j ∧ r = ⟨.comment, i, j⟩) := by
  obtain ⟨first, last, hspans, hle, hlt, hfirst, hlast⟩ := exists_spans hb
  rw [ofBlock_eq hlt hfirst hlast, List.mem_append,
    mem_commentRuns_iff (.start d first) last (by omega)]
  constructor
  · rintro (hr | ⟨i, j, hrun, hij, -, rfl⟩)
    · split at hr
      · rename_i hmore
        exact ⟨first, last, hspans, .inl ⟨hmore, List.mem_singleton.mp hr⟩⟩
      · cases hr
    · exact ⟨first, last, hspans, .inr ⟨i, j, hrun, hij, rfl⟩⟩
  · rintro ⟨first', last', hspans', hr⟩
    obtain ⟨rfl, rfl⟩ := hspans.unique hspans'
    rcases hr with ⟨hmore, rfl⟩ | ⟨i, j, hrun, hij, rfl⟩
    · exact .inl (by simp [hmore])
    · have hlow := hrun.low
      exact .inr ⟨i, j, hrun, hij, by omega, rfl⟩

theorem ofBlock_between {b : Block} (hb : b ∈ Block.scan d) {first last : Nat}
    (hspans : b.Spans d first last) {r : FoldingRange} (hr : r ∈ ofBlock d b) :
    first ≤ r.first ∧ r.last ≤ last := by
  obtain ⟨first', last', hspans', hr⟩ := (mem_ofBlock_iff hb r).mp hr
  obtain ⟨rfl, rfl⟩ := hspans.unique hspans'
  rcases hr with ⟨-, rfl⟩ | ⟨i, j, hrun, -, rfl⟩
  · exact ⟨Int.le_refl _, Int.le_refl _⟩
  · have hlow := hrun.low
    have hhigh := hrun.high
    simp only
    omega

theorem ofBlock_pairwise {b : Block} (hb : b ∈ Block.scan d) (kind : FoldingKind) :
    ((ofBlock d b).filter (·.kind = kind)).Pairwise fun r r' => r.last < r'.first := by
  obtain ⟨first, last, hspans, hle, hlt, hfirst, hlast⟩ := exists_spans hb
  rw [ofBlock_eq hlt hfirst hlast, List.filter_append]
  cases kind with
  | region =>
    have hnone : (commentRuns first none (linesFrom d first (last + 1 - first))).filter (·.kind = .region)
        = [] := by
      refine List.filter_eq_nil_iff.mpr fun r hr => ?_
      obtain ⟨i, j, -, -, -, rfl⟩ :=
        (mem_commentRuns_iff (.start d first) last (by omega) r).mp hr
      simp
    rw [hnone]
    split <;> simp
  | comment =>
    have hnone : (if first < last then [(⟨.region, first, last⟩ : FoldingRange)] else []).filter
        (·.kind = .comment) = [] := by split <;> simp
    rw [hnone, List.nil_append]
    exact (commentRuns_pairwise (.start d first) (last + 1 - first)).filter _

theorem mem_ofDocument_iff (d : Document) (r : FoldingRange) : r ∈ ofDocument d ↔ Foldable d r := by
  rw [ofDocument, List.mem_flatMap]
  constructor
  · rintro ⟨b, hb, hr⟩
    obtain ⟨first, last, hspans, ⟨hlt, rfl⟩ | ⟨i, j, hrun, hij, rfl⟩⟩ := (mem_ofBlock_iff hb r).mp hr
    · exact .region hb hspans hlt
    · exact .comment hb hspans hrun hij
  · intro hr
    cases hr with
    | region hb hspans hlt => exact ⟨_, hb, (mem_ofBlock_iff hb _).mpr ⟨_, _, hspans, .inl ⟨hlt, rfl⟩⟩⟩
    | comment hb hspans hrun hij =>
      exact ⟨_, hb, (mem_ofBlock_iff hb _).mpr ⟨_, _, hspans, .inr ⟨_, _, hrun, hij, rfl⟩⟩⟩

/-- Ranges of one kind come in the order of the text and share no line. -/
theorem ofDocument_pairwise (d : Document) (kind : FoldingKind) :
    ((ofDocument d).filter (·.kind = kind)).Pairwise fun r r' => r.last < r'.first := by
  have hblocks : (Block.scan d).Pairwise fun a b => a.start < b.start := Block.scan_starts_ascending d
  rw [ofDocument, List.filter_flatMap, List.pairwise_flatMap]
  refine ⟨fun b hb => ofBlock_pairwise hb kind, hblocks.imp_of_mem fun {a b} ha hb hlt r hr r' hr' => ?_⟩
  obtain ⟨m, last, hspans, -⟩ := exists_spans ha
  obtain ⟨n, last', hspans', -⟩ := exists_spans hb
  have hbefore := ofBlock_between ha hspans (List.mem_filter.mp hr).1
  have hbehind := ofBlock_between hb hspans' (List.mem_filter.mp hr').1
  have hmn : m < n := by
    by_contra hle
    have hmono := d.lineStart_mono (Nat.le_of_not_lt hle)
    rw [hspans.1, hspans'.1] at hlt
    omega
  have hlast := hspans.2.2.lt_header hspans'.2.1 hmn
  omega

end Folding

/-- What the server lists for an open document is what can be folded in it, each range once. Every block
has its lines, and neither two blocks nor two runs of comment lines share one. -/
theorem Server.foldingRanges_foldable {s : Server} {uri : String} {d : Document}
    (h : s.buffers.doc? uri = some d) :
    (∀ r, r ∈ s.foldingRanges uri ↔ Folding.Foldable d r) ∧
      (∀ b ∈ Block.scan d, ∃ first last, b.Spans d first last ∧ first ≤ last) ∧
      ∀ kind, ((s.foldingRanges uri).filter (·.kind = kind)).Pairwise fun r r' => r.last < r'.first := by
  rw [foldingRanges, h]
  refine ⟨Folding.mem_ofDocument_iff d, fun b hb => ?_, Folding.ofDocument_pairwise d⟩
  obtain ⟨first, last, hspans, hle, -⟩ := Folding.exists_spans hb
  exact ⟨first, last, hspans, hle⟩

/-- Two blocks without terminators. Comment lines end the first one, and the second one has a single one
beside a hook and a line without text at its end. -/
def twoOpenBlocks : Document :=
  .ofText "a" (utf8 "SCRIPT:1,A\n// a\n// b\nSCRIPT:2,B\n// c\n//ADDHOOK-2-H\n")

theorem Server.foldingRanges_foldable_twoOpenBlocks :
    let s : Server := { buffers := ⟨[⟨twoOpenBlocks, 1⟩], by simp⟩ }
    s.buffers.doc? "a" = some twoOpenBlocks ∧
      s.foldingRanges "a" = [⟨.region, 0, 2⟩, ⟨.comment, 1, 2⟩, ⟨.region, 3, 5⟩] ∧
      Folding.Foldable twoOpenBlocks ⟨.comment, 1, 2⟩ ∧ ¬ Folding.Foldable twoOpenBlocks ⟨.region, 0, 3⟩ := by
  intro s
  have hdoc : s.buffers.doc? "a" = some twoOpenBlocks := rfl
  have hranges : s.foldingRanges "a" = [⟨.region, 0, 2⟩, ⟨.comment, 1, 2⟩, ⟨.region, 3, 5⟩] := by
    decide +kernel
  have hiff := (foldingRanges_foldable hdoc).1
  refine ⟨hdoc, hranges, (hiff _).mp ?_, fun hfold => ?_⟩
  · rw [hranges]
    decide
  · have hin := (hiff _).mpr hfold
    rw [hranges] at hin
    exact absurd hin (by decide)

end HostScript
