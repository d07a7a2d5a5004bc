import HostScript.Proofs.Block.Edits
import HostScript.Proofs.Text.Digits

set_option autoImplicit false

namespace HostScript

namespace Block

def headerLine (kind : BlockKind) (number : Nat) (name : Bytes) : Bytes :=
  utf8 kind.keyword ++ (utf8 (toString number) ++ 44 :: name)

/-- A block without text: its header line and its terminator line. -/
def emptyBlock (kind : BlockKind) (number : Nat) (name : Bytes) : Bytes :=
  headerLine kind number name ++ Bytes.newline :: terminatorLine

def Content.ofEmpty (kind : BlockKind) (number : Nat) (name : Bytes) : Content :=
  ⟨⟨kind, some number, utf8 (toString number), name, []⟩, [], true⟩

/-- A name that a header gives back as it is. -/
structure IsName (name : Bytes) : Prop where
  comma : 44 ∉ name
  newline : Bytes.newline ∉ name
  trimmed : name.trim = name

theorem keyword_cons (kind : BlockKind) : ∃ b rest, utf8 kind.keyword = b :: rest ∧
    (b == Bytes.blank || b == Bytes.tab) = false ∧ (b = 73 ↔ kind = .insertion) := by
  cases kind with
  | script => exact ⟨83, _, rfl, by decide, by decide⟩
  | insertion => exact ⟨73, _, rfl, by decide, by decide⟩

theorem lineRole_keyword (kind : BlockKind) (fields : Bytes) :
    lineRole (utf8 kind.keyword ++ fields) = .header kind fields := by
  have hindent : Bytes.dropIndent (utf8 kind.keyword ++ fields) = utf8 kind.keyword ++ fields := by
    obtain ⟨b, rest, hk, hb, _⟩ := keyword_cons kind
    rw [hk]
    exact List.dropWhile_cons_of_neg (by simp [hb])
  have hself : Bytes.after? (utf8 kind.keyword ++ fields) (utf8 kind.keyword) = some fields :=
    Bytes.after?_eq_some.mpr rfl
  cases kind with
  | insertion => simp only [lineRole, hindent, hself]
  | script =>
    have hother : Bytes.after? (utf8 BlockKind.script.keyword ++ fields) (utf8 BlockKind.insertion.keyword)
        = none := by
      refine Bytes.after?_eq_none.mpr ?_
      rintro ⟨tail, ht⟩
      exact absurd (List.cons.inj ht).1 (by decide)
    simp only [lineRole, hindent, hself, hother]

theorem senseOf_headerLine (kind : BlockKind) {number : Nat} (hn : number ≤ Bytes.numberLimit)
    {name : Bytes} (h : IsName name) :
    senseOf (headerLine kind number name) = .header (Content.ofEmpty kind number name).header := by
  have hfields : (Bytes.splitOn 44 (utf8 (toString number) ++ 44 :: name)).map Bytes.trim
      = [utf8 (toString number), name] := by
    rw [Bytes.splitOn_append (Bytes.notMem_utf8_toString number (by decide)),
      Bytes.splitOn_of_notMem h.comma]
    simp only [List.map_cons, List.map_nil, Bytes.trim_utf8_toString, h.trimmed]
  simp only [senseOf, headerLine, lineRole_keyword, Sense.ofRole, Header.ofFields, hfields,
    List.headD_cons, Bytes.number?_utf8_toString hn]
  rfl

theorem newline_notMem_headerLine (kind : BlockKind) (number : Nat) {name : Bytes} (h : IsName name) :
    Bytes.newline ∉ headerLine kind number name := by
  have hkeyword : Bytes.newline ∉ utf8 kind.keyword := by cases kind <;> decide
  simp only [headerLine, List.mem_append, List.mem_cons, not_or]
  exact ⟨hkeyword, Bytes.notMem_utf8_toString number (by decide), by decide, h.newline⟩

/-- Where nothing is open, the lines of a block without text are that block, and the lines after it
come further behind. -/
theorem passAll_emptyBlock (kind : BlockKind) {number : Nat} (hn : number ≤ Bytes.numberLimit)
    {name : Bytes} (h : IsName name) (offset : Nat) (rest : Bytes) :
    passAll offset (emptyBlock kind number name ++ rest).rawLines none
      = ⟨offset, .ofEmpty kind number name⟩
        :: passAll (offset + (emptyBlock kind number name).length) rest.rawLines none := by
  have hsense : senseOf (headerLine kind number name ++ [Bytes.newline]).lineText
      = .header (Content.ofEmpty kind number name).header := by
    rw [senseOf_lineText, Bytes.dropEnd_append, senseOf_headerLine kind hn h]
  have hlength : offset + (headerLine kind number name ++ [Bytes.newline]).length + terminatorLine.length
      = offset + (emptyBlock kind number name).length := by
    simp only [emptyBlock, List.length_append, List.length_cons, List.length_nil]
    omega
  rw [emptyBlock, List.append_assoc, List.cons_append,
    Bytes.rawLines_line (newline_notMem_headerLine kind number h), rawLines_terminatorLine,
    passAll_cons, passLine_header _ _ hsense, passAll_terminator senseOf_terminatorLine, ← emptyBlock,
    hlength]
  rfl

/-- No block is open before line `n`. -/
def ClearBefore (d : Document) (n : Nat) : Prop := (pass 0 (d.linesBefore n) none).2 = none

/-- The second document has all blocks of the first one and one block more. It stands between the
blocks that begin before the offset and the others. -/
def Adds (d e : Document) (offset : Nat) (new : Content) : Prop :=
  ∃ before after, scan d = before ++ after ∧ (∀ b ∈ before, b.start < offset) ∧
    (∀ b ∈ after, offset ≤ b.start) ∧
    contents e = before.map (content d) ++ new :: after.map (content d)

theorem start_lt_of_mem_pass {d : Document} {n : Nat} (hn : n < d.lineCount) {p : Placed}
    (h : p ∈ (pass 0 (d.linesBefore n) none).1) : p.start < d.lineStart n := by
  -- These are the blocks of the text before line `n`.
  have hall := scan_placed_take (e := .ofText d.uri (d.text.take (d.lineStart n))) hn
    (List.append_nil _).symm
  have hm := List.mem_append_left (passAll (d.lineStart n) (Bytes.rawLines [])
    (pass 0 (d.linesBefore n) none).2) h
  rw [← hall] at hm
  obtain ⟨b, hb, rfl⟩ := List.mem_map.mp hm
  have hlt := start_lt_length hb
  rwa [Document.length, Document.ofText, List.length_take_of_le (d.lineStart_le_length n)] at hlt

section EmptyBlock

variable {d e : Document} {kind : BlockKind} {number : Nat} {name : Bytes}

theorem adds_of_clearBefore {n : Nat} (hn : n < d.lineCount) (hc : ClearBefore d n)
    (hl : number ≤ Bytes.numberLimit) (hname : IsName name)
    (he : e.text = d.text.take (d.lineStart n)
      ++ (emptyBlock kind number name ++ d.text.drop (d.lineStart n))) :
    Adds d e (d.lineStart n) (.ofEmpty kind number name) := by
  have hd := scan_placed_split d hn
  have he := scan_placed_take hn he
  rw [hc] at hd he
  rw [passAll_emptyBlock kind hl hname] at he
  obtain ⟨before, after, hsplit, hbefore, hafter⟩ := List.map_eq_append_iff.mp hd
  refine ⟨before, after, hsplit, fun b hb => ?_, fun b hb => ?_, ?_⟩
  · exact start_lt_of_mem_pass hn (hbefore ▸ List.mem_map_of_mem hb)
  · exact le_start_of_mem_passAll (hafter ▸ List.mem_map_of_mem (f := placed d) hb)
  · rw [contents, map_content, map_content, map_content, he, hbefore, hafter, List.map_append,
      List.map_cons, passAll_content, passAll_content (d.lineStart n)]

theorem terminated_of_mem_placed (h : ∀ b ∈ scan d, b.terminated = true) {p : Placed}
    (hp : p ∈ (scan d).map (placed d)) : p.content.terminated = true := by
  obtain ⟨b, hb, rfl⟩ := List.mem_map.mp hp
  exact h b hb

theorem clearBefore_header (h : ∀ b ∈ scan d, b.terminated = true) {n : Nat} {fields : Bytes}
    (hr : lineRole (d.line n) = .header kind fields) : ClearBefore d n := by
  have hn : n < d.lineCount := ((d.isHeader_iff_role n).mpr ⟨kind, fields, hr⟩).lt_lineCount
  have hsense : senseOf (d.rawLine n).lineText = .header (.ofFields kind fields) := senseOf_rawLine hn hr
  have hd := scan_placed_split d hn
  rw [d.rawLines_drop_cons hn, passAll_header hsense] at hd
  unfold ClearBefore
  cases hc : (pass 0 (d.linesBefore n) none).2 with
  | none => rfl
  | some b =>
    have ht := terminated_of_mem_placed h (p := b.finish false) (by rw [hd, hc]; simp)
    exact absurd ht (by simp [Begun.finish])

theorem clearBefore_lineCount (h : ∀ b ∈ scan d, b.terminated = true) :
    ClearBefore d d.lineCount := by
  have hd := scan_placed d
  rw [d.rawLines_text, ← Document.linesBefore, passAll] at hd
  unfold ClearBefore
  cases hc : (pass 0 (d.linesBefore d.lineCount) none).2 with
  | none => rfl
  | some b =>
    have ht := terminated_of_mem_placed h (p := b.atEnd) (by simp [hd, hc])
    exact absurd ht (by simp [Begun.atEnd])

theorem pass_linesBefore_succ (d : Document) (n : Nat) :
    pass 0 (d.linesBefore (n + 1)) none
      = ((pass 0 (d.linesBefore n) none).1
          ++ (passLine (d.lineStart n) (d.rawLine n) (pass 0 (d.linesBefore n) none).2).1,
        (passLine (d.lineStart n) (d.rawLine n) (pass 0 (d.linesBefore n) none).2).2) := by
  rw [d.linesBefore_succ, pass_append, d.length_linesBefore, Nat.zero_add]
  simp [pass]

/-- A line that is neither header nor terminator leaves a block open. -/
theorem clearBefore_other {n : Nat} (hn : n < d.lineCount) (hr : lineRole (d.line n) = .other)
    (hc : ClearBefore d (n + 1)) : ClearBefore d n := by
  have hsense : senseOf (d.rawLine n).lineText = .other := senseOf_rawLine hn hr
  rw [ClearBefore, pass_linesBefore_succ, passLine_other _ _ hsense] at hc
  exact Option.map_eq_none_iff.mp hc

theorem clearBefore_terminator {n : Nat} (hr : lineRole (d.line n) = .terminator) :
    ClearBefore d (n + 1) := by
  have hn : n < d.lineCount := ((d.isTerminator_iff_role n).mpr hr).lt_lineCount
  have hsense : senseOf (d.rawLine n).lineText = .terminator := senseOf_rawLine hn hr
  rw [ClearBefore, pass_linesBefore_succ, passLine_terminator _ _ hsense]

theorem passLine_newline {raw : Bytes} (h : Bytes.newline ∉ raw) (offset : Nat) (current : Option Begun)
    (hc : (passLine offset raw current).2 = none) :
    passLine offset (raw ++ [Bytes.newline]) current = ((passLine offset raw current).1, none) := by
  have hsense : senseOf raw.lineText = senseOf (raw ++ [Bytes.newline]).lineText := by
    rw [Bytes.lineText_append_newline h]
  obtain ⟨hdone, hlike⟩ := passLine_like hsense offset current
  rw [hc] at hlike
  generalize passLine offset (raw ++ [Bytes.newline]) current = result at hdone hlike
  obtain ⟨done, next⟩ := result
  cases hlike
  rw [hdone]

theorem adds_at_length (h : ∀ b ∈ scan d, b.terminated = true) (hl : number ≤ Bytes.numberLimit)
    (hname : IsName name) (he : e.text = d.text ++ Bytes.newline :: emptyBlock kind number name) :
    Adds d e d.length (.ofEmpty kind number name) := by
  have hlast := d.lastLine_lt
  have hline := d.newline_notMem_slice hlast
  rw [← d.rawLine_of_last d.lastLine_succ] at hline
  have htext : d.text.take (d.lineStart d.lastLine) ++ d.rawLine d.lastLine = d.text := by
    rw [d.rawLine_lastLine, List.take_append_drop]
  rw [← htext, List.append_assoc] at he
  have hclear : (passLine (d.lineStart d.lastLine) (d.rawLine d.lastLine)
      (pass 0 (d.linesBefore d.lastLine) none).2).2 = none := by
    have hall := clearBefore_lineCount h
    rwa [← d.lastLine_succ, ClearBefore, pass_linesBefore_succ] at hall
  -- Both documents go through the last line, the second one with a newline behind it.
  have hd := scan_placed_take hlast htext.symm
  have he := scan_placed_take hlast he
  have hempty := passAll_emptyBlock kind hl hname (d.lineStart d.lastLine
    + (d.rawLine d.lastLine ++ [Bytes.newline]).length) []
  rw [List.append_nil, show Bytes.rawLines [] = [[]] from rfl, passAll_singleton_other (by decide)] at hempty
  rw [Bytes.rawLines_of_notMem hline, passAll_cons, hclear] at hd
  rw [Bytes.rawLines_line hline, passAll_cons, passLine_newline hline _ _ hclear, hempty] at he
  refine ⟨scan d, [], (List.append_nil _).symm, fun b hb => start_lt_length hb, by simp, ?_⟩
  rw [contents, map_content, map_content, he, hd]
  simp [passAll, pass]

end EmptyBlock

end Block

end HostScript
