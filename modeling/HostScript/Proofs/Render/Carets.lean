import HostScript.Proofs.Render.Columns
import HostScript.Proofs.Text.Encoding

/-!
The row of carets below the source line of a finding. It begins below the first marked character, whatever
tabs stand in front of it. Its length is the number of marked characters, so it ends with the marked text
unless there is a tab in it.
-/

set_option autoImplicit false

namespace HostScript

namespace Render

def blankRune : Rune := ⟨' ', [Bytes.blank]⟩

/-- The runes that a rune is shown as. -/
def shown (r : Rune) : List Rune := if r.char = '\t' then List.replicate 4 blankRune else [r]

def columns (text : Bytes) : Nat := (expandTabs text).runes.length

theorem tab_mem_iff (text : Bytes) : Bytes.tab ∈ text ↔ ∃ r ∈ text.runes, r.char = '\t' := by
  constructor
  · exact Bytes.exists_rune_of_mem (by decide)
  · rintro ⟨r, hr, hchar⟩
    have hbytes := Bytes.bytes_of_ascii hr (a := Bytes.tab) (by decide) (by decide) hchar
    rw [← Bytes.join_runes text]
    exact List.mem_flatMap.mpr ⟨r, hr, by simp [hbytes]⟩

theorem expandTabs_append (as bs : Bytes) : expandTabs (as ++ bs) = expandTabs as ++ expandTabs bs :=
  List.flatMap_append

theorem expandTabs_of_notMem {text : Bytes} (h : Bytes.tab ∉ text) : expandTabs text = text := by
  have hone : ∀ b ∈ text, (if b = Bytes.tab then List.replicate 4 Bytes.blank else [b]) = [b] :=
    fun b hb => if_neg (ne_of_mem_of_not_mem hb h)
  rw [expandTabs, List.flatMap_congr hone, List.flatMap_singleton']

theorem flatMap_shown_of_notMem {text : Bytes} (h : Bytes.tab ∉ text) :
    text.runes.flatMap shown = text.runes := by
  have hone : ∀ r ∈ text.runes, shown r = [r] :=
    fun r hr => if_neg fun heq => h ((tab_mem_iff text).mpr ⟨r, hr, heq⟩)
  rw [List.flatMap_congr hone, List.flatMap_singleton']

/-- Blanks in place of a tab change no rune beside it. -/
theorem runes_expandTabs (text : Bytes) : (expandTabs text).runes = text.runes.flatMap shown := by
  induction hn : text.length using Nat.strongRecOn generalizing text with
  | ind n ih =>
    by_cases h : Bytes.tab ∈ text
    · obtain ⟨front, rest, rfl, hfront⟩ := List.eq_append_cons_of_mem h
      have hlen : rest.length < n := by
        rw [← hn, List.length_append, List.length_cons]
        omega
      have htab : expandTabs (Bytes.tab :: rest)
          = Bytes.blank :: Bytes.blank :: Bytes.blank :: Bytes.blank :: expandTabs rest := rfl
      have hblank : Bytes.blank < 0x80 := by decide
      rw [expandTabs_append, expandTabs_of_notMem hfront, htab, Bytes.runes_append_ascii hblank,
        Bytes.runes_cons_ascii hblank, Bytes.runes_cons_ascii hblank, Bytes.runes_cons_ascii hblank,
        Bytes.runes_append_ascii (by decide), List.flatMap_append, List.flatMap_cons,
        flatMap_shown_of_notMem hfront, ih rest.length hlen rest rfl]
      rfl
    · rw [expandTabs_of_notMem h, flatMap_shown_of_notMem h]

theorem displayColumns_eq (rs : List Rune) : displayColumns rs = (rs.flatMap shown).length := by
  induction rs with
  | nil => rfl
  | cons r rs ih =>
    rw [displayColumns, ih, List.flatMap_cons, List.length_append, shown]
    split <;> rfl

theorem displayWidth_eq (text : Bytes) : displayWidth text = columns text := by
  rw [displayWidth, displayColumns_eq, columns, runes_expandTabs]

theorem length_flatMap_shown (rs : List Rune) :
    (rs.flatMap shown).length = rs.length + 3 * rs.countP fun r => r.char = '\t' := by
  induction rs with
  | nil => rfl
  | cons r rs ih =>
    rw [List.flatMap_cons, List.length_append, ih, List.countP_cons, List.length_cons, shown]
    by_cases h : r.char = '\t'
    · simp [h]
      omega
    · simp [h]
      omega

/-- The characters of a text are as many as its columns only if none of them is a tab. -/
theorem length_runes_eq_columns_iff (text : Bytes) :
    max 1 text.runes.length = max 1 (columns text) ↔ Bytes.tab ∉ text := by
  rw [columns, runes_expandTabs, length_flatMap_shown, tab_mem_iff]
  have hcount := List.countP_eq_zero (p := fun r : Rune => decide (r.char = '\t')) (l := text.runes)
  have hle := List.countP_le_length (p := fun r : Rune => decide (r.char = '\t')) (l := text.runes)
  simp only [decide_eq_true_eq] at hcount
  rw [← not_iff_not, not_not]
  constructor
  · intro h
    by_contra hnone
    have hzero := hcount.mpr fun r hr hchar => hnone ⟨r, hr, hchar⟩
    rw [hzero] at h
    exact h rfl
  · rintro ⟨r, hr, hchar⟩ heq
    have hpos : text.runes.countP (fun r => decide (r.char = '\t')) ≠ 0 := fun hzero => hcount.mp hzero r hr hchar
    omega

/-- The line on which the range begins, in front of the range, in the range and behind it. -/
structure Marks (d : Document) (range : Range) (before marked after : Bytes) : Prop where
  line_eq : d.line range.start.line = before ++ marked ++ after
  start_eq : d.offsetAt range.start = some (d.lineStart range.start.line + before.length)
  stop_eq : range.stop.line = range.start.line →
    d.offsetAt range.stop = some (d.lineStart range.start.line + before.length + marked.length)
  toEnd : range.stop.line ≠ range.start.line → after = []

/-- Both ends of the range are positions of the document, and the end is not in front of the start. -/
def Valid (d : Document) (range : Range) : Prop :=
  ∃ a b, d.offsetAt range.start = some a ∧ d.offsetAt range.stop = some b ∧ a ≤ b

theorem underline_of_runes {source : Bytes} {range : Range} {front more rest : List Rune}
    (hsource : source.runes = front ++ (more ++ rest))
    (hstart : byteColumn range.start.character 0 0 source.runes = Rune.sizes front)
    (hstop : range.stop.line = range.start.line →
      byteColumn range.stop.character 0 0 source.runes = Rune.sizes (front ++ more))
    (hend : range.stop.line ≠ range.start.line → rest = []) :
    underline source range = (columns (Rune.join front), max 1 (Rune.join more).runes.length) := by
  have hcolumn : (if range.stop.line = range.start.line then byteColumn range.stop.character 0 0 source.runes
      else source.length) = Rune.sizes (front ++ more) := by
    split
    · rename_i h
      exact hstop h
    · rename_i h
      rw [← Bytes.sizes_runes, hsource, hend h, List.append_nil]
  have hjoin : source = Rune.join front ++ (Rune.join more ++ Rune.join rest) := by
    rw [← Bytes.join_runes source, hsource, Rune.join_append, Rune.join_append]
  have htake : source.take (Rune.sizes front) = Rune.join front := by
    rw [hjoin, ← Rune.length_join, List.take_left]
  have hdrop : source.drop (Rune.sizes front) = Rune.join more ++ Rune.join rest := by
    rw [hjoin, ← Rune.length_join, List.drop_left]
  have hslice : source.slice (Rune.sizes front) (Rune.sizes (front ++ more)) = Rune.join more := by
    rw [Bytes.slice, hdrop, Rune.sizes_append, Nat.add_sub_cancel_left, ← Rune.length_join, List.take_left]
  have hle : Rune.sizes front ≤ Rune.sizes (front ++ more) := by
    rw [Rune.sizes_append]
    omega
  simp only [underline, hstart, hcolumn, displayWidth_eq, htake, Nat.max_eq_right hle, hslice]

theorem exists_marks {d : Document} {range : Range} (h : Valid d range) :
    ∃ before marked after, Marks d range before marked after ∧
      (d.line range.start.line).runes = before.runes ++ (marked.runes ++ after.runes) ∧
      underline (d.line range.start.line) range = (columns before, max 1 marked.runes.length) := by
  obtain ⟨a, b, ha, hb, hle⟩ := h
  obtain ⟨n, front, hn, hline, ⟨tail, htail⟩, rfl, hstart⟩ := byteColumn_of_offsetAt ha
  obtain ⟨m, upTo, hm, hstopLine, hupTo, rfl, hstop⟩ := byteColumn_of_offsetAt hb
  rw [hline]
  -- What the line still has behind the start, cut where the marked text ends.
  obtain ⟨more, rest, rfl, hsame, hother⟩ : ∃ more rest, tail = more ++ rest ∧
      (range.stop.line = n → upTo = front ++ more ∧ m = n) ∧ (range.stop.line ≠ n → rest = []) := by
    by_cases hlines : range.stop.line = n
    · obtain rfl : m = n := by omega
      obtain ⟨more, rfl⟩ := Rune.prefix_of_sizes_le (fun r => Bytes.size_pos_of_mem_runes) ⟨tail, htail⟩ hupTo
        (by omega)
      obtain ⟨rest, hrest⟩ := hupTo
      refine ⟨more, rest, ?_, fun _ => ⟨rfl, rfl⟩, fun hne => absurd hlines hne⟩
      rw [← htail, List.append_assoc, List.append_cancel_left_eq] at hrest
      exact hrest.symm
    · exact ⟨tail, [], by simp, fun h => absurd h hlines, fun _ => rfl⟩
  have hsource := htail.symm
  obtain ⟨hfront, hrest⟩ := Bytes.runes_join hsource
  obtain ⟨hmore, hrest⟩ := Bytes.runes_join hrest
  refine ⟨Rune.join front, Rune.join more, Rune.join rest, ⟨?_, ?_, fun h => ?_, fun h => ?_⟩, ?_, ?_⟩
  · rw [hline, ← Bytes.join_runes (d.line n), hsource, Rune.join_append, Rune.join_append, List.append_assoc]
  · rw [ha, hline, Rune.length_join]
  · obtain ⟨rfl, rfl⟩ := hsame (h.trans hline)
    rw [hb, hline, Rune.sizes_append, Rune.length_join, Rune.length_join, Nat.add_assoc]
  · rw [hother (hline ▸ h)]
    rfl
  · rw [hfront, hmore, hrest]
    exact hsource
  · refine underline_of_runes hsource hstart (fun h => ?_) fun h => hother (hline ▸ h)
    obtain ⟨rfl, rfl⟩ := hsame (h.trans hline)
    exact hstop

def gutter (p : Palette) (label : String) : String := " " ++ p.boldBlue ++ label ++ " |" ++ p.reset ++ "  "

def sourceRow (p : Palette) (line : Int) (text : Bytes) : Bytes :=
  utf8 (gutter p (toString (line + 1))) ++ text ++ utf8 "\n"

/-- Carets behind blanks, with a gutter as wide as that of the source row. -/
def caretRow (p : Palette) (line : Int) (before count : Nat) : Bytes :=
  utf8 (gutter p (spaces (toString (line + 1)).length) ++ spaces before ++ p.boldRed ++ carets count ++ p.reset
    ++ "\n")

theorem span_rows {p : Palette} {read : String → Option Bytes} {d : Diagnostic} {source : Bytes} {before count : Nat}
    (hsource : sourceLine? read (pathOfUri d.uri) d.range.start.line = some source)
    (hunderline : underline source d.range = (before, count)) :
    ∃ above below, span p read d = above ++ utf8 "\n" ++ sourceRow p d.range.start.line (expandTabs source)
      ++ caretRow p d.range.start.line before count ++ below := by
  simp only [span, hsource, hunderline, sourceRow, caretRow, gutter, utf8_append]
  exact ⟨utf8 ("  " ++ p.boldBlue ++ "-->" ++ p.reset ++ " " ++ pathOfUri d.uri ++ ":" ++ d.range.start.describe ++ "\n"
    ++ " " ++ p.boldBlue ++ spaces (toString (d.range.start.line + 1)).length ++ " |" ++ p.reset),
    utf8 (" " ++ p.boldBlue ++ spaces (toString (d.range.start.line + 1)).length ++ " |" ++ p.reset ++ "\n"),
    by simp only [utf8_append, List.append_assoc]⟩

theorem sourceLine?_eq {read : String → Option Bytes} {path : String} {text : Bytes} (hpath : path ≠ "")
    (hread : read path = some text) {n : Nat} (hn : n < (Document.ofText path text).lineCount) :
    sourceLine? read path n = some ((Document.ofText path text).line n) := by
  have hin : ¬ ((n : Int) < 0 ∨ path = "") := not_or.mpr ⟨by omega, hpath⟩
  simpa [sourceLine?, hin, hread] using hn

/-- The carets of a finding begin below the first marked character. They are as many as the marked
characters, and at least one, which is the displayed width of the marked text unless it has a tab. -/
theorem one_caretRow {p : Palette} {read : String → Option Bytes} {d : Diagnostic} {text : Bytes}
    (huri : d.uri ≠ "") (hpath : pathOfUri d.uri ≠ "") (hread : read (pathOfUri d.uri) = some text)
    (hvalid : Valid (.ofText (pathOfUri d.uri) text) d.range) :
    ∃ above below before marked after count,
      Marks (.ofText (pathOfUri d.uri) text) d.range before marked after ∧
      one p read d = above ++ utf8 "\n"
        ++ sourceRow p d.range.start.line (expandTabs before ++ expandTabs marked ++ expandTabs after)
        ++ caretRow p d.range.start.line (columns before) count ++ below ∧
      (expandTabs before ++ expandTabs marked ++ expandTabs after).runes
        = (expandTabs before).runes ++ (expandTabs marked).runes ++ (expandTabs after).runes ∧
      count = max 1 marked.runes.length ∧
      (count = max 1 (columns marked) ↔ Bytes.tab ∉ marked) := by
  obtain ⟨before, marked, after, hmarks, hrunes, hunderline⟩ := exists_marks hvalid
  obtain ⟨n, -, hn, hline, -⟩ := Document.offsetAt_eq_some hmarks.start_eq
  have hsource := sourceLine?_eq hpath hread hn
  rw [← hline] at hsource
  obtain ⟨above, below, hspan⟩ := span_rows (p := p) hsource hunderline
  refine ⟨header p d ++ above, below ++ utf8 (String.join (d.notes.map fun note =>
      "   " ++ p.boldCyan ++ "=" ++ p.reset ++ " note: " ++ note ++ "\n")), before, marked, after,
    max 1 marked.runes.length, hmarks, ?_, ?_, rfl, length_runes_eq_columns_iff marked⟩
  · rw [one, if_neg (by simpa using huri), hspan, hmarks.line_eq, expandTabs_append, expandTabs_append]
    simp only [List.append_assoc]
  · rw [hmarks.line_eq] at hrunes
    rw [← expandTabs_append, ← expandTabs_append, runes_expandTabs, hrunes]
    simp only [runes_expandTabs, List.flatMap_append, List.append_assoc]

def overTab : Diagnostic :=
  { uri := "file:///a.cpp", range := ⟨⟨0, 1⟩, ⟨1, 0⟩⟩, severity := some .error, message := utf8 "m" }

theorem one_caretRow_overTab :
    (overTab.uri ≠ "" ∧ pathOfUri overTab.uri ≠ "" ∧
      Valid (.ofText (pathOfUri overTab.uri) (utf8 "\t😀\tb\nc")) overTab.range) ∧
    ∃ above below before marked after count,
      Marks (.ofText (pathOfUri overTab.uri) (utf8 "\t😀\tb\nc")) overTab.range before marked after ∧
      one .colored (fun _ => some (utf8 "\t😀\tb\nc")) overTab = above ++ utf8 "\n"
        ++ sourceRow .colored 0 (expandTabs before ++ expandTabs marked ++ expandTabs after)
        ++ caretRow .colored 0 (columns before) count ++ below ∧
      (expandTabs before ++ expandTabs marked ++ expandTabs after).runes
        = (expandTabs before).runes ++ (expandTabs marked).runes ++ (expandTabs after).runes ∧
      count = max 1 marked.runes.length ∧
      (count = max 1 (columns marked) ↔ Bytes.tab ∉ marked) := by
  have hpath : pathOfUri overTab.uri ≠ "" := by decide +kernel
  have hvalid : Valid (.ofText (pathOfUri overTab.uri) (utf8 "\t😀\tb\nc")) overTab.range :=
    ⟨1, 8, by decide +kernel, by decide +kernel, by decide⟩
  exact ⟨⟨by decide, hpath, hvalid⟩, one_caretRow (by decide) hpath rfl hvalid⟩

/-- Three carets below a text that is displayed in six columns. -/
theorem onTab_short :
    let onTab : Diagnostic := { overTab with range := ⟨⟨0, 0⟩, ⟨0, 3⟩⟩ }
    let text := utf8 "a\tb\n"
    Marks (.ofText (pathOfUri onTab.uri) text) onTab.range [] (utf8 "a\tb") [] ∧ columns (utf8 "a\tb") = 6 ∧
      one .plain (fun _ => some text) onTab
        = utf8 "error: m\n  --> /a.cpp:1:1\n   |\n 1 |  a    b\n   |  ^^^\n   |\n" := by
  refine ⟨⟨by decide +kernel, by decide +kernel, fun _ => by decide +kernel, fun h => absurd rfl h⟩,
    by decide +kernel, by decide +kernel⟩

end Render

end HostScript
