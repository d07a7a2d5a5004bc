import HostScript.Proofs.Block.Insertion
import HostScript.Proofs.InsertPoint.Order

/-!
The place that is found for a new block. It is outside of all blocks, so a block put there is added to
the others, and it is between the blocks that go before the new one and those that go after it.
-/

set_option autoImplicit false

namespace HostScript

namespace InsertPoint

theorem trim_keyword {word : Bytes} (hw : word ∈ [utf8 BlockKind.script.keyword,
      utf8 BlockKind.insertion.keyword, utf8 terminatorKeyword]) (rest : Bytes) :
    Bytes.startsWith (Bytes.trim (word ++ rest)) (utf8 "//") = false := by
  have hhead : ∃ b tail, word = b :: tail ∧ b < 0x80 ∧ isSpace (Char.ofNat b.toNat) = false ∧ b ≠ 47 := by
    simp only [List.mem_cons, List.not_mem_nil, or_false] at hw
    rcases hw with rfl | rfl | rfl
    · exact ⟨83, _, rfl, by decide⟩
    · exact ⟨73, _, rfl, by decide⟩
    · exact ⟨69, _, rfl, by decide⟩
  obtain ⟨b, tail, rfl, ha, hs, hb⟩ := hhead
  obtain ⟨after, ht⟩ := Bytes.trim_cons_ascii ha hs (tail ++ rest)
  have hslash : utf8 "//" = [47, 47] := by decide
  rw [List.cons_append, ht, Bytes.startsWith, hslash, List.isPrefixOf_cons_cons, beq_false_of_ne (Ne.symm hb),
    Bool.false_and]

theorem lineRole_comment {line : Bytes} (h : isComment line = true) : lineRole line = .other := by
  rw [isComment, ← Bytes.trim_dropIndent] at h
  cases hr : lineRole line with
  | header kind fields =>
    rw [lineRole_header hr, trim_keyword (by cases kind <;> simp)] at h
    cases h
  | terminator =>
    obtain ⟨rest, hrest, _⟩ := (isTerminator_iff _).mp (lineRole_terminator hr)
    rw [hrest, trim_keyword (by simp)] at h
    cases h
  | other => rfl

/-- An offset at which no block is open, at the beginning of a line or behind the last one. -/
inductive Gap (d : Document) : Nat → Prop where
  | line {n : Nat} : n < d.lineCount → Block.ClearBefore d n → Gap d (d.lineStart n)
  | behind : d.lineStart d.lastLine < d.length → Gap d d.length

/-- A position outside of all blocks at which the block that is asked for belongs. -/
def IsPlace (d : Document) (number : Nat) (hook : Bytes) (p : Position) : Prop :=
  ∃ offset, d.offsetAt p = some offset ∧ Gap d offset ∧ Fits d (kindOf hook) ⟨number, hook⟩ offset

section Place

variable {d : Document} {number : Nat} {hook : Bytes}

abbrev sameKind (d : Document) (hook : Bytes) : List Block :=
  (Block.scan d).filter fun b => b.kind == kindOf hook && b.number.isSome

theorem mem_sameKind {b : Block} : b ∈ sameKind d hook ↔
    b ∈ Block.scan d ∧ ∃ k, keyOf? (kindOf hook) b.header = some k := by
  rw [sameKind, List.mem_filter, ← keyOf?_isSome, Option.isSome_iff_exists]

theorem sameKind_ascending (d : Document) (hook : Bytes) :
    (sameKind d hook).Pairwise fun a b => a.start < b.start :=
  (Block.scan_starts_ascending d).filter _

/-- Behind the last block that goes before the new one, and not behind a later block. -/
theorem fits_of_previous {previous : Block} {offset : Nat}
    (hp : ((sameKind d hook).filter (goesBefore number hook)).getLast? = some previous)
    (hlt : previous.start < offset)
    (hle : ∀ b ∈ Block.scan d, previous.start < b.start → offset ≤ b.start) :
    Fits d (kindOf hook) ⟨number, hook⟩ offset := by
  obtain ⟨front, hfront⟩ := List.getLast?_eq_some_iff.mp hp
  have hlast : ∀ b ∈ (sameKind d hook).filter (goesBefore number hook), b.start ≤ previous.start := by
    have ho := (sameKind_ascending d hook).filter (goesBefore number hook)
    rw [hfront, List.pairwise_append] at ho
    intro b hb
    rw [hfront] at hb
    rcases List.mem_append.mp hb with hb | hb
    · exact Nat.le_of_lt (ho.2.2 b hb previous (by simp))
    · exact Nat.le_of_eq (congrArg Block.start (List.mem_singleton.mp hb))
  have hmem : previous ∈ (sameKind d hook).filter (goesBefore number hook) := List.mem_of_getLast? hp
  obtain ⟨hsame, hbefore⟩ := List.mem_filter.mp hmem
  obtain ⟨hscan, q, hq⟩ := mem_sameKind.mp hsame
  refine ⟨fun b hb k hk hge => ?_, fun b hb k hk hlow => ?_⟩
  · rw [← goesBefore_eq hk]
    refine Bool.eq_false_iff.mpr fun hgoes => ?_
    have hbefore := hlast b (List.mem_filter.mpr ⟨mem_sameKind.mpr ⟨hb, k, hk⟩, hgoes⟩)
    omega
  · refine ⟨previous, hscan, q, hq, goesBefore_eq hq ▸ hbefore, ?_⟩
    refine Nat.le_of_not_lt fun hlater => ?_
    have hbehind := hle b hb hlater
    omega

theorem fits_of_first {offset : Nat}
    (hp : ((sameKind d hook).filter (goesBefore number hook)).getLast? = none)
    (hle : ∀ b ∈ sameKind d hook, offset ≤ b.start) : Fits d (kindOf hook) ⟨number, hook⟩ offset := by
  rw [List.getLast?_eq_none_iff, List.filter_eq_nil_iff] at hp
  refine ⟨fun b hb k hk _ => ?_, fun b hb k hk hlt => ?_⟩
  · rw [← goesBefore_eq hk]
    exact Bool.eq_false_iff.mpr (hp b (mem_sameKind.mpr ⟨hb, k, hk⟩))
  · have hbehind := hle b (mem_sameKind.mpr ⟨hb, k, hk⟩)
    omega

theorem head?_sameKind {next : Block} (hn : (sameKind d hook).head? = some next) :
    ∀ b ∈ sameKind d hook, next.start ≤ b.start := by
  obtain ⟨rest, hrest⟩ := List.head?_eq_some_iff.mp hn
  have ho := sameKind_ascending d hook
  rw [hrest, List.pairwise_cons] at ho
  intro b hb
  rw [hrest] at hb
  rcases List.mem_cons.mp hb with rfl | hb
  · exact Nat.le_refl _
  · exact Nat.le_of_lt (ho.1 b hb)

theorem aboveComments_le (d : Document) (n : Nat) : aboveComments d n ≤ n := by
  fun_induction aboveComments d n with
  | case1 => exact Nat.le_refl 0
  | case2 n _ ih => exact Nat.le_succ_of_le ih
  | case3 n => exact Nat.le_refl (n + 1)

theorem clearBefore_aboveComments {n : Nat} (hn : n ≤ d.lineCount) (hc : Block.ClearBefore d n) :
    Block.ClearBefore d (aboveComments d n) := by
  fun_induction aboveComments d n with
  | case1 => exact hc
  | case2 n h ih => exact ih (by omega) (Block.clearBefore_other (by omega) (lineRole_comment h) hc)
  | case3 n => exact hc

/-- A block that begins after a terminated one begins on a line behind the terminator. -/
theorem lineStart_le_of_later {a b : Block} (ha : a ∈ Block.scan d) (hb : b ∈ Block.scan d)
    (ht : a.terminated = true) (hlt : a.start < b.start) {m : Nat} (hs : a.stop = d.lineEnd m) :
    m + 1 < d.lineCount ∧ d.lineStart (m + 1 : Nat) ≤ b.start := by
  obtain ⟨_, h, rfl, he⟩ := Block.exists_beginsAt hb
  have hstop := (Block.stop_le_start ha hb hlt).2 ht
  rw [hs, he.bounds.2.1] at hstop
  have hm : m < h.line := by
    refine Nat.lt_of_not_le fun hle => ?_
    have hmono := d.lineStart_mono hle
    have hend := d.lineStart_le_lineEnd m
    omega
  have hline := he.bounds.1
  rw [he.bounds.2.1]
  exact ⟨by omega, d.lineStart_mono hm⟩

variable (ht : ∀ b ∈ Block.scan d, b.terminated = true)

include ht

theorem gap_length : Gap d d.length := by
  have hlast := d.lastLine_lt
  by_cases htext : d.lineStart d.lastLine < d.length
  · exact .behind htext
  · obtain ⟨hempty, _, hnil⟩ := d.lastLine_empty htext
    have hclear := Block.clearBefore_lineCount ht
    rw [← d.lastLine_succ] at hclear
    rw [← hempty]
    exact .line hlast (Block.clearBefore_other hlast (by rw [hnil]; decide) hclear)

theorem isPlace_length (hr : d.text.getLast? ≠ some Bytes.carriageReturn)
    (hf : Fits d (kindOf hook) ⟨number, hook⟩ d.length) :
    IsPlace d number hook (d.positionAt d.length) :=
  ⟨d.length, by rw [d.offsetAt_length, if_neg hr], gap_length ht, hf⟩

theorem isPlace_previous (hr : d.text.getLast? ≠ some Bytes.carriageReturn) {previous : Block}
    (hp : ((sameKind d hook).filter (goesBefore number hook)).getLast? = some previous) :
    IsPlace d number hook (if d.lineCount ≤ d.lineAt previous.stop + 1 then d.positionAt d.length
      else ⟨(d.lineAt previous.stop + 1 : Nat), 0⟩) := by
  obtain ⟨hscan, _⟩ := mem_sameKind.mp (List.mem_filter.mp (List.mem_of_getLast? hp)).1
  obtain ⟨_, h, rfl, he⟩ := Block.exists_beginsAt hscan
  have hterm := ht previous hscan
  cases he with
  | interrupted => exact absurd hterm (by simp [Block.cut, Block.close])
  | unfinished => exact absurd hterm (by simp [Block.cut, Block.close])
  | @terminated m ho hrole =>
    have hm : m < d.lineCount := ((d.isTerminator_iff_role m).mpr hrole).lt_lineCount
    have hlater := fun b hb hlt => lineStart_le_of_later (b := b) (m := m) hscan hb hterm hlt rfl
    have hline : d.lineAt (Block.close d h (d.lineStart m) (d.lineEnd m) true).stop = m :=
      d.lineAt_lineEnd hm
    rw [hline]
    split
    · refine isPlace_length ht hr (fits_of_previous hp (Block.start_lt_length hscan) ?_)
      intro b hb hlt
      have hnext := (hlater b hb hlt).1
      omega
    · have hnext : m + 1 < d.lineCount := by omega
      refine ⟨_, d.offsetAt_lineStart hnext, .line hnext (Block.clearBefore_terminator hrole),
        fits_of_previous hp ?_ fun b hb hlt => (hlater b hb hlt).2⟩
      exact d.lineStart_lt (Nat.lt_succ_of_lt ho.before) hnext

theorem isPlace_next (hp : ((sameKind d hook).filter (goesBefore number hook)).getLast? = none)
    {next : Block} (hn : (sameKind d hook).head? = some next) :
    IsPlace d number hook ⟨aboveComments d (d.lineAt next.start), 0⟩ := by
  obtain ⟨hscan, _⟩ := mem_sameKind.mp (List.mem_of_head? hn)
  obtain ⟨_, h, rfl, he⟩ := Block.exists_beginsAt hscan
  have hline := he.bounds.1
  have hstart := he.bounds.2.1
  have hle := aboveComments_le d h.line
  have hclear := clearBefore_aboveComments (Nat.le_of_lt hline) (Block.clearBefore_header ht he.role)
  rw [hstart, d.lineAt_lineStart hline]
  refine ⟨_, d.offsetAt_lineStart (by omega), .line (by omega) hclear, fits_of_first hp fun b hb => ?_⟩
  have hfirst := head?_sameKind hn b hb
  have hmono := d.lineStart_mono hle
  omega

/-- The position that is found for a new block is a place for it. -/
theorem isPlace_blockPosition (hr : d.text.getLast? ≠ some Bytes.carriageReturn) (number : Nat)
    (hook : Bytes) : IsPlace d number hook (blockPosition d (Block.scan d) number hook) := by
  unfold blockPosition
  simp only
  split
  · rename_i previous hp
    exact isPlace_previous ht hr hp
  · rename_i hp
    split
    · rename_i next hn
      exact isPlace_next ht hp hn
    · rename_i hn
      refine isPlace_length ht hr (fits_of_first hp fun b hb => ?_)
      rw [sameKind, List.head?_eq_none_iff.mp hn] at hb
      cases hb

end Place

def insertion (d : Document) (number : Nat) (hook : Bytes) (others : List Document) : TextEdit :=
  let p := (find d number hook others).script
  ⟨⟨p, p⟩, (if (d.offsetAt p).all (QuickFix.startsLine d) then [] else [Bytes.newline])
    ++ Block.emptyBlock (kindOf hook) number hook⟩

/-- The edit that defines a missing script puts it at the place that is found for it. -/
theorem definition?_edit {d : Document} {finding : GivenFinding} {fix : QuickFix}
    (h : QuickFix.definition? d finding = some fix) :
    ∃ number ≤ Bytes.numberLimit, (find d number [] []).present = false ∧
      fix.edit = insertion d number [] [] := by
  simp only [QuickFix.definition?, Option.bind_eq_bind, Option.bind_eq_some_iff] at h
  obtain ⟨start, _, stop, _, number, hnumber, h⟩ := h
  cases hp : (find d number [] []).present with
  | true =>
    rw [hp] at h
    cases h
  | false =>
    rw [hp] at h
    obtain rfl := Option.some.inj h
    refine ⟨number, Bytes.number?_le hnumber, hp, ?_⟩
    have hend : utf8 ",\n" = [44, Bytes.newline] := by decide
    have hnewline : utf8 "\n" = [Bytes.newline] := by decide
    simp only [QuickFix.lines, insertion]
    congr 1
    split
    · simp [Block.emptyBlock, Block.headerLine, Block.terminatorLine, hend, kindOf]
    · simp [Block.emptyBlock, Block.headerLine, Block.terminatorLine, hend, hnewline, kindOf]

theorem adds_of_gap {d e : Document} (ht : ∀ b ∈ Block.scan d, b.terminated = true) {offset : Nat}
    (hg : Gap d offset) {kind : BlockKind} {number : Nat} (hl : number ≤ Bytes.numberLimit)
    {name : Bytes} (hn : Block.IsName name)
    (he : e.text = d.text.take offset ++ ((if QuickFix.startsLine d offset then [] else [Bytes.newline])
      ++ Block.emptyBlock kind number name) ++ d.text.drop offset) :
    Block.Adds d e offset (.ofEmpty kind number name) := by
  cases hg with
  | line hline hc =>
    refine Block.adds_of_clearBefore hline hc hl hn ?_
    rw [he, d.startsLine_lineStart hline, if_pos rfl, List.nil_append, List.append_assoc]
  | behind htext =>
    refine Block.adds_at_length ht hl hn ?_
    rw [he, d.startsLine_length htext, Document.length, List.take_length, List.drop_length]
    simp

theorem find_of_not_present {d : Document} {number : Int} {hook : Bytes} {others : List Document}
    (h : (find d number hook others).present = false) :
    (find d number hook others).script = blockPosition d (Block.scan d) number hook ∧
      ∀ b ∈ Block.scan d, isWanted number hook b = false := by
  unfold find at h ⊢
  simp only at h ⊢
  split at h
  · cases h
  · rename_i hnone
    rw [List.find?_eq_none] at hnone
    exact ⟨rfl, fun b hb => Bool.eq_false_iff.mpr (hnone b (List.mem_append_left _ hb))⟩

def inserted (d : Document) (number : Nat) (hook : Bytes) (others : List Document) : Document :=
  (insertion d number hook others).apply d

theorem keyOf?_ofEmpty (number : Nat) (hook : Bytes) :
    keyOf? (kindOf hook) (Block.Content.ofEmpty (kindOf hook) number hook).header
      = some ⟨number, hook⟩ := by
  by_cases hs : kindOf hook = .script
  · simp [keyOf?, Block.Content.ofEmpty, hook_of_script hs]
  · simp [keyOf?, Block.Content.ofEmpty, hs]

/-- A document whose blocks are all terminated gets exactly the new block from the edit, and if the
blocks of its kind were in ascending order, they are so with it. -/
theorem inserted_contents {d : Document} (ht : ∀ b ∈ Block.scan d, b.terminated = true)
    (hr : d.text.getLast? ≠ some Bytes.carriageReturn) {number : Nat}
    (hl : number ≤ Bytes.numberLimit) {hook : Bytes} (hn : Block.IsName hook) {others : List Document}
    (hp : (find d number hook others).present = false) :
    (d.offsetAt (find d number hook others).script).isSome = true ∧
      (∃ before after, Block.contents d = before ++ after ∧
        Block.contents (inserted d number hook others)
          = before ++ .ofEmpty (kindOf hook) number hook :: after) ∧
      (Ascending (keys (kindOf hook) (Block.contents d)) →
        Ascending (keys (kindOf hook) (Block.contents (inserted d number hook others)))) ∧
      (StrictlyAscending (keys (kindOf hook) (Block.contents d)) →
        StrictlyAscending (keys (kindOf hook) (Block.contents (inserted d number hook others)))) := by
  obtain ⟨hscript, hwanted⟩ := find_of_not_present hp
  obtain ⟨offset, hoffset, hgap, hfits⟩ := isPlace_blockPosition ht hr number hook
  rw [← hscript] at hoffset
  have htext : (inserted d number hook others).text = d.text.take offset
      ++ ((if QuickFix.startsLine d offset then [] else [Bytes.newline])
        ++ Block.emptyBlock (kindOf hook) number hook) ++ d.text.drop offset := by
    simp only [inserted, insertion, TextEdit.apply, Document.ofText, Document.offsetNear, hoffset,
      Option.all_some, Option.getD_some]
  obtain ⟨before, after, hsplit, hbefore, hafter, hnew⟩ := adds_of_gap ht hgap hl hn htext
  have hkeys : keys (kindOf hook) (Block.contents (inserted d number hook others))
      = keys (kindOf hook) (before.map (·.content d))
        ++ ⟨number, hook⟩ :: keys (kindOf hook) (after.map (·.content d)) := by
    have hkey := List.filterMap_cons_some (f := fun c : Block.Content => keyOf? (kindOf hook) c.header)
      (l := after.map (·.content d)) (keyOf?_ofEmpty number hook)
    rw [hnew, keys, List.filterMap_append, hkey]
    rfl
  have habsent : ∀ b ∈ Block.scan d, keyOf? (kindOf hook) b.header ≠ some ⟨number, hook⟩ := by
    intro b hb hk
    exact Bool.false_ne_true ((hwanted b hb).symm.trans (isWanted_of_keyOf? hk))
  refine ⟨by simp [hoffset], ⟨_, _, ?_, hnew⟩, fun ha => ?_, fun ha => ?_⟩
  · rw [Block.contents, hsplit, List.map_append]
  · rw [hkeys]
    exact Fits.ascending_insert hsplit hbefore hafter hfits ha
  · rw [hkeys]
    exact Fits.strictlyAscending_insert hsplit hbefore hafter hfits habsent ha

def twoScripts : Document :=
  .ofText "file:///a.cpp" (utf8 "SCRIPT:1,A\nENDSCRIPT\n// B\nSCRIPT:3,B\nENDSCRIPT")

theorem inserted_contents_twoScripts :
    (∃ before after, Block.contents twoScripts = before ++ after ∧
      Block.contents (inserted twoScripts 2 [] []) = before ++ .ofEmpty .script 2 [] :: after) ∧
      StrictlyAscending (keys .script (Block.contents (inserted twoScripts 2 [] []))) := by
  have ht : ∀ b ∈ Block.scan twoScripts, b.terminated = true := by decide +kernel
  have hl : 2 ≤ Bytes.numberLimit := by decide
  have hn : Block.IsName [] := ⟨by simp, by simp, rfl⟩
  have hp : (find twoScripts (2 : Nat) [] []).present = false := by decide +kernel
  have h := inserted_contents ht (by decide) hl hn hp
  exact ⟨h.2.1, h.2.2.2 (by unfold StrictlyAscending; decide +kernel)⟩

end InsertPoint

end HostScript
