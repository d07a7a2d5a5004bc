import HostScript.Proofs.Document.Accepted
import HostScript.Render

/-!
The byte column of a position in the text of its line. The document looks for the position in its whole text
and the column is counted in the line alone, but both count the same runes. Only a position that the document
refuses gets a column that no offset stands behind, the end of the line.
-/

set_option autoImplicit false

namespace HostScript

namespace Render

theorem byteColumn_stop {character : Int} {units : Nat} (h : character ≤ units) (column : Nat) (rs : List Rune) :
    byteColumn character units column rs = column := by
  cases rs with
  | nil => rfl
  | cons r rs => rw [byteColumn, if_pos h]

theorem byteColumn_skip {character : Int} (rs rest : List Rune) {units : Nat} (column : Nat)
    (h : (units + Rune.units rs : Nat) ≤ character) :
    byteColumn character units column (rs ++ rest)
      = byteColumn character (units + Rune.units rs) (column + Rune.sizes rs) rest := by
  induction rs generalizing units column with
  | nil => rfl
  | cons r rs ih =>
    have hpos := unitsOf_pos r.char
    rw [Rune.units] at h
    rw [List.cons_append, byteColumn, if_neg (by omega), ih _ (by omega), Rune.units, Rune.sizes,
      Nat.add_assoc, Nat.add_assoc]

/-- A character that begins in front of the wanted one is passed as a whole. -/
theorem byteColumn_behind {character : Int} (rs rest : List Rune) (c : Rune) {units : Nat} (column : Nat)
    (h : (units + Rune.units rs : Nat) < character) :
    byteColumn character units column (rs ++ c :: rest)
      = byteColumn character (units + Rune.units rs + unitsOf c.char) (column + Rune.sizes (rs ++ [c])) rest := by
  rw [byteColumn_skip rs (c :: rest) column (Int.le_of_lt h), byteColumn, if_neg (Int.not_le.mpr h),
    Rune.sizes_append, Nat.add_assoc column]
  rfl

/-- The column of a position of the document is its distance from the beginning of the line. -/
theorem byteColumn_of_offsetAt {d : Document} {p : Position} {o : Nat} (h : d.offsetAt p = some o) :
    ∃ n front, n < d.lineCount ∧ p.line = (n : Nat) ∧ front <+: (d.line n).runes ∧
      o = d.lineStart n + Rune.sizes front ∧
      byteColumn p.character 0 0 (d.line n).runes = Rune.sizes front := by
  obtain ⟨n, front, hn, hline, hfront, ho, hcharacter⟩ := Document.offsetAt_eq_some h
  refine ⟨n, front, hn, hline, hfront, ho, ?_⟩
  obtain ⟨rest, hrest⟩ := hfront
  rw [← hrest]
  obtain heq | ⟨before, c, rfl, hsplit⟩ := hcharacter
  · rw [byteColumn_skip front rest 0 (by omega), byteColumn_stop (by omega), Nat.zero_add]
  · have hbetween := hsplit.between
    have hpair := hsplit.pair
    rw [List.append_assoc, List.singleton_append, byteColumn_behind before rest c 0 (by omega),
      byteColumn_stop (by omega), Nat.zero_add]

/-- A position on a line that stands for no offset has the end of the line as its column. -/
theorem byteColumn_of_refused {d : Document} {n units : Nat} (hn : n < d.lineCount)
    (h : d.offsetAt ⟨n, units⟩ = none) :
    byteColumn units 0 0 (d.line n).runes = Rune.sizes (d.line n).runes := by
  by_cases hle : units ≤ Rune.units (d.line n).runes
  · obtain ⟨front, back, hruns, rfl | ⟨c, more, rfl, hc, rfl⟩⟩ := Rune.exists_units _ hle
    · rw [Document.offsetAt_of_units hn hruns] at h
      cases h
    · have hsplit : d.Splits ⟨n, (Rune.units front + 1 : Nat)⟩ front c := ⟨by simp [hruns], hc, rfl⟩
      have hlast : (d.line n).runes = front ++ [c] := by
        by_contra hne
        rw [hsplit.offsetAt_eq, if_neg hne] at h
        cases h
      rw [hlast, byteColumn_behind front [] c 0 (by omega)]
      exact Nat.zero_add _
  · have hskip : byteColumn units 0 0 ((d.line n).runes ++ []) = 0 + Rune.sizes (d.line n).runes :=
      byteColumn_skip (d.line n).runes [] 0 (by omega)
    rwa [List.append_nil, Nat.zero_add] at hskip

/-- A position of the document has its column where its offset is. A position on a line that has no offset has
its column at the end of the line. -/
theorem lineStart_add_byteColumn (d : Document) (p : Position) :
    (∀ o, d.offsetAt p = some o →
      o = d.lineStart p.line + byteColumn p.character 0 0 (d.line p.line).runes) ∧
    (0 ≤ p.line → p.line < d.lineCount → 0 ≤ p.character → d.offsetAt p = none →
      d.lineEnd p.line = d.lineStart p.line + byteColumn p.character 0 0 (d.line p.line).runes) := by
  refine ⟨fun o ho => ?_, fun hline hcount hcharacter hnone => ?_⟩
  · obtain ⟨n, front, -, hline, -, rfl, hcolumn⟩ := byteColumn_of_offsetAt ho
    rw [hline, hcolumn]
  · obtain ⟨line, character⟩ := p
    obtain ⟨n, rfl⟩ := Int.eq_ofNat_of_zero_le hline
    obtain ⟨units, rfl⟩ := Int.eq_ofNat_of_zero_le hcharacter
    have hn : n < d.lineCount := Int.ofNat_lt.mp hcount
    have hcolumn := byteColumn_of_refused hn hnone
    have hlen := d.length_line hn
    have hle := d.lineStart_le_lineEnd n
    rw [Bytes.sizes_runes, hlen] at hcolumn
    simp only
    omega

/-- A line that ends with an invalid byte and a character of two units, between lines that a carriage return
and a newline end. -/
def pairEnd : Document :=
  .ofText "a" (utf8 "a\r\n" ++ Rune.join [Document.invalidRune, Document.smileRune] ++ utf8 "\r\n")

theorem lineStart_add_byteColumn_pairEnd :
    (pairEnd.offsetAt ⟨1, 3⟩ = some 8 ∧ 8 = pairEnd.lineStart 1 + byteColumn 3 0 0 (pairEnd.line 1).runes) ∧
      (1 < pairEnd.lineCount ∧ pairEnd.offsetAt ⟨1, 2⟩ = none ∧
        pairEnd.lineEnd 1 = pairEnd.lineStart 1 + byteColumn 2 0 0 (pairEnd.line 1).runes) := by
  have hbehind : pairEnd.offsetAt ⟨1, 3⟩ = some 8 := by decide +kernel
  have hcount : 1 < pairEnd.lineCount := by decide +kernel
  have hrefused : pairEnd.offsetAt ⟨1, 2⟩ = none := by decide +kernel
  exact ⟨⟨hbehind, (lineStart_add_byteColumn pairEnd ⟨1, 3⟩).1 8 hbehind⟩, hcount, hrefused,
    (lineStart_add_byteColumn pairEnd ⟨1, 2⟩).2 (by decide) (Int.ofNat_lt.mpr hcount) (by decide) hrefused⟩

end Render

end HostScript
