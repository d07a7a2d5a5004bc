import HostScript.Proofs.Document.RoundTrip

set_option autoImplicit false

namespace HostScript

theorem Rune.exists_units (rs : List Rune) {n : Nat} (h : n ≤ units rs) :
    ∃ front back, rs = front ++ back ∧
      (units front = n ∨ ∃ c more, back = c :: more ∧ unitsOf c.char = 2 ∧ n = units front + 1) := by
  induction rs generalizing n with
  | nil => exact ⟨[], [], rfl, .inl (Nat.le_zero.mp h).symm⟩
  | cons r rs ih =>
    have hpos := unitsOf_pos r.char
    have htwo := unitsOf_le_two r.char
    simp only [units] at h
    by_cases hin : n < unitsOf r.char
    · refine ⟨[], r :: rs, rfl, ?_⟩
      rcases Nat.eq_zero_or_pos n with rfl | hn
      · exact .inl rfl
      · exact .inr ⟨r, rs, rfl, by omega, by simp only [units]; omega⟩
    · obtain ⟨front, back, rfl, hcases⟩ := ih (n := n - unitsOf r.char) (by omega)
      refine ⟨r :: front, back, rfl, ?_⟩
      rcases hcases with hall | ⟨c, more, hback, hc, hn⟩
      · exact .inl (by simp only [units]; omega)
      · exact .inr ⟨c, more, hback, hc, by simp only [units]; omega⟩

namespace Document

/-- Where a walk ends whose wanted units end within a character: behind it, unless it is the last one
before the stop. -/
theorem walkUnits_split {stop offset units : Nat} (before more ts : List Rune) {c : Rune}
    (hr : ∀ r ∈ before ++ c :: more, 0 < r.size) (hstop : offset + Rune.sizes (before ++ c :: more) = stop)
    (hc : unitsOf c.char = 2) :
    walkUnits stop (units + Rune.units before + 1) offset units (before ++ c :: more ++ ts)
      = if more = [] then none else some (offset + Rune.sizes (before ++ [c])) := by
  have hsize := hr c (by simp)
  simp only [Rune.sizes_append, Rune.sizes] at hstop
  have hbefore : ∀ r ∈ before, 0 < r.size := fun r hm => hr r (List.mem_append_left _ hm)
  rw [List.append_assoc, walkUnits_skip before _ hbefore offset units (by omega) (Nat.le_succ _),
    List.cons_append, walkUnits, if_pos (by omega), if_neg (by omega), hc, Rune.sizes_append]
  simp only [Rune.sizes, Nat.add_zero, ← Nat.add_assoc]
  cases more with
  | nil =>
    simp only [Rune.sizes] at hstop
    rw [show offset + Rune.sizes before + c.size = stop by omega, walkUnits_stop, if_neg (by omega), if_pos rfl]
  | cons a more =>
    have ha := hr a (by simp)
    simp only [Rune.sizes] at hstop
    rw [List.cons_append, walkUnits, if_pos (by omega), if_pos (by omega), if_neg (List.cons_ne_nil a more)]

/-- The position is in a line of the document, and the text of the line reaches to it. -/
structure Holds (d : Document) (p : Position) : Prop where
  line_nonneg : 0 ≤ p.line
  line_lt : p.line < d.lineCount
  character_nonneg : 0 ≤ p.character
  character_le : p.character ≤ (d.line p.line).units

/-- The position splits the character that ends its line. -/
def SplitsLast (d : Document) (p : Position) : Prop :=
  ∃ before c, d.Splits p before c ∧ (d.line p.line).runes = before ++ [c]

theorem Holds.exists_nat {d : Document} {p : Position} (h : d.Holds p) :
    ∃ n units : Nat, p = ⟨n, units⟩ ∧ n < d.lineCount ∧ units ≤ Rune.units (d.line n).runes := by
  obtain ⟨line, character⟩ := p
  obtain ⟨hline, hcount, hcharacter, hunits⟩ := h
  obtain ⟨n, rfl⟩ := Int.eq_ofNat_of_zero_le hline
  obtain ⟨units, rfl⟩ := Int.eq_ofNat_of_zero_le hcharacter
  exact ⟨n, units, rfl, Int.ofNat_lt.mp hcount, Int.ofNat_le.mp hunits⟩

/-- A position is looked for in the runes of its line. -/
theorem offsetAt_line (d : Document) {n : Nat} (hn : n < d.lineCount) (units : Nat) :
    d.offsetAt ⟨n, units⟩ = walkUnits (d.lineStart n + Rune.sizes (d.line n).runes) units (d.lineStart n) 0
      ((d.line n).runes ++ Bytes.runes (d.text.drop (d.lineEnd n))) := by
  have hlen := d.length_line hn
  have hle := d.lineStart_le_lineEnd n
  rw [d.offsetAt_eq hn, d.runes_drop_lineStart hn, Bytes.sizes_runes, hlen, Nat.add_sub_of_le hle]

theorem Splits.holds {d : Document} {p : Position} {before : List Rune} {c : Rune} (h : d.Splits p before c) :
    d.Holds p := by
  have hunits := Rune.units_le_of_prefix h.within
  have hbetween := h.between
  simp only [Rune.units_append, Rune.units, h.pair] at hunits
  have hin : ¬ (p.line < 0 ∨ (d.lineCount : Int) ≤ p.line) := by
    intro hout
    have hnil : d.line p.line = [] := if_pos (by simpa using hout)
    have hwithin := h.within
    rw [hnil] at hwithin
    exact absurd (List.prefix_nil.mp hwithin) (by simp)
  refine ⟨by omega, by omega, by omega, ?_⟩
  rw [Bytes.units]
  omega

/-- A position that splits a character stands for the offset behind it, unless the character ends the
line. -/
theorem Splits.offsetAt_eq {d : Document} {p : Position} {before : List Rune} {c : Rune}
    (h : d.Splits p before c) : d.offsetAt p = if (d.line p.line).runes = before ++ [c] then none
      else some (d.lineStart p.line + Rune.sizes (before ++ [c])) := by
  obtain ⟨n, units, rfl, hn, -⟩ := h.holds.exists_nat
  obtain ⟨more, hmore⟩ := h.within
  rw [List.append_assoc, List.singleton_append] at hmore
  have hbetween : units = 0 + Rune.units before + 1 := by
    have hint := h.between
    simp only at hint
    omega
  have hsize : ∀ r ∈ before ++ c :: more, 0 < r.size := fun r hr => Bytes.size_pos_of_mem_runes (hmore ▸ hr)
  rw [d.offsetAt_line hn, ← hmore, hbetween, walkUnits_split before more _ hsize rfl h.pair]
  simp

theorem offsetAt_of_units {d : Document} {n : Nat} (hn : n < d.lineCount) {front back : List Rune}
    (h : (d.line n).runes = front ++ back) :
    d.offsetAt ⟨n, Rune.units front⟩ = some (d.lineStart n + Rune.sizes front) := by
  have hsize : ∀ r ∈ front, 0 < r.size := fun r hr =>
    Bytes.size_pos_of_mem_runes (h ▸ List.mem_append_left back hr)
  have hle : d.lineStart n + Rune.sizes front ≤ d.lineStart n + Rune.sizes (front ++ back) := by
    rw [Rune.sizes_append]
    omega
  have hwalk := walkUnits_of_prefix front (back ++ Bytes.runes (d.text.drop (d.lineEnd n))) hsize _
    (d.lineStart n) 0 hle fun hlt hnil => ?_
  · rwa [Nat.zero_add, ← List.append_assoc, ← h, ← d.offsetAt_line hn] at hwalk
  · rw [Rune.sizes_append, (List.append_eq_nil_iff.mp hnil).1] at hlt
    exact absurd hlt (by simp [Rune.sizes])

/-- A position stands for an offset if the text of its line reaches to it and it does not split the
character that ends the line. One that splits another character stands for the offset behind it. -/
theorem offsetAt_isSome_iff (d : Document) (p : Position) :
    ((d.offsetAt p).isSome = true ↔ d.Holds p ∧ ¬ d.SplitsLast p) ∧
      ∀ before c, d.Splits p before c → ¬ d.SplitsLast p →
        d.offsetAt p = some (d.lineStart p.line + Rune.sizes (before ++ [c])) := by
  have hsplit (before : List Rune) (c : Rune) (hs : d.Splits p before c) (hlast : ¬ d.SplitsLast p) :
      d.offsetAt p = some (d.lineStart p.line + Rune.sizes (before ++ [c])) := by
    rw [hs.offsetAt_eq, if_neg fun heq => hlast ⟨before, c, hs, heq⟩]
  refine ⟨⟨fun hsome => ⟨?_, ?_⟩, fun ⟨hp, hlast⟩ => ?_⟩, hsplit⟩
  · obtain ⟨o, ho⟩ := Option.isSome_iff_exists.mp hsome
    obtain ⟨n, front, hn, hline, hfront, -, hall | ⟨before, c, -, hs⟩⟩ := offsetAt_eq_some ho
    · have hunits := Rune.units_le_of_prefix hfront
      refine ⟨by omega, by omega, by omega, ?_⟩
      rw [hline, hall, Bytes.units]
      exact Int.ofNat_le.mpr hunits
    · exact hs.holds
  · rintro ⟨before, c, hs, heq⟩
    rw [hs.offsetAt_eq, if_pos heq] at hsome
    cases hsome
  · obtain ⟨n, units, rfl, hn, hle⟩ := hp.exists_nat
    obtain ⟨front, back, hruns, rfl | ⟨c, more, rfl, hc, rfl⟩⟩ := Rune.exists_units _ hle
    · rw [offsetAt_of_units hn hruns]
      rfl
    · have hs : d.Splits ⟨n, (Rune.units front + 1 : Nat)⟩ front c :=
        ⟨by simp [hruns], hc, rfl⟩
      rw [hsplit front c hs hlast]
      rfl

def smilingEnd : Document := .ofText "a" (smileRune.bytes ++ utf8 "\n" ++ smileRune.bytes ++ utf8 "x")

theorem smilingEnd_splits :
    smilingEnd.Splits ⟨0, 1⟩ [] smileRune ∧ smilingEnd.SplitsLast ⟨0, 1⟩ ∧ smilingEnd.Splits ⟨1, 1⟩ [] smileRune :=
  have hsplit : smilingEnd.Splits ⟨0, 1⟩ [] smileRune := ⟨by decide +kernel, by decide, by decide⟩
  ⟨hsplit, ⟨[], smileRune, hsplit, by decide +kernel⟩, by decide +kernel, by decide, by decide⟩

theorem offsetAt_isSome_iff_smilingEnd :
    (smilingEnd.Holds ⟨1, 1⟩ ∧ ¬ smilingEnd.SplitsLast ⟨1, 1⟩ ∧ (smilingEnd.offsetAt ⟨1, 1⟩).isSome = true) ∧
      (smilingEnd.Splits ⟨1, 1⟩ [] smileRune ∧
        smilingEnd.offsetAt ⟨1, 1⟩ = some (smilingEnd.lineStart 1 + Rune.sizes [smileRune])) ∧
      smilingEnd.SplitsLast ⟨0, 1⟩ ∧ ¬ (smilingEnd.offsetAt ⟨0, 1⟩).isSome = true := by
  obtain ⟨-, hlast, hsplit⟩ := smilingEnd_splits
  have hwhole : ¬ smilingEnd.SplitsLast ⟨1, 1⟩ := by
    rintro ⟨before, c, hs, heq⟩
    rw [hs.unique hsplit] at heq
    exact absurd heq (by decide +kernel)
  obtain ⟨hsome, hbehind⟩ := offsetAt_isSome_iff smilingEnd ⟨1, 1⟩
  exact ⟨⟨hsplit.holds, hwhole, hsome.mpr ⟨hsplit.holds, hwhole⟩⟩, ⟨hsplit, hbehind [] smileRune hsplit hwhole⟩,
    hlast, fun h => ((offsetAt_isSome_iff smilingEnd ⟨0, 1⟩).1.mp h).2 hlast⟩

/-- The text of the line reaches to the position, but it is refused; in front of a letter it is not. -/
theorem smilingEnd_refused :
    smilingEnd.Holds ⟨0, 1⟩ ∧ smilingEnd.offsetAt ⟨0, 1⟩ = none ∧ smilingEnd.offsetAt ⟨1, 1⟩ = some 9 ∧
      ¬ ∀ p, (smilingEnd.offsetAt p).isSome = true ↔ smilingEnd.Holds p := by
  have hnone : smilingEnd.offsetAt ⟨0, 1⟩ = none := by decide +kernel
  have hholds := smilingEnd_splits.1.holds
  refine ⟨hholds, hnone, by decide +kernel, fun hall => ?_⟩
  have hsome := (hall ⟨0, 1⟩).mpr hholds
  rw [hnone] at hsome
  cases hsome

end Document

end HostScript
