import HostScript.Proofs.Document.Positions
import HostScript.Proofs.Text.Boundary

/-!
Offsets and positions determine each other. A position counts the code units of the runes of its line
that stand before it, so an offset between two runes is found again from its position. A position
within a character of two units has no offset of its own and gets the one behind the character.
-/

set_option autoImplicit false

namespace HostScript

namespace Document

theorem lineAt_bounds (d : Document) (o : Nat) : d.lineAt o < d.lineCount ∧ d.lineStart (d.lineAt o) ≤ o ∧
    (d.lineAt o + 1 < d.lineCount → o < d.lineStart (d.lineAt o + 1 : Nat)) := by
  -- The line is looked for upwards, from one that begins at the offset or before it.
  have hfind : ∀ count n, n + (count + 1) = d.lineCount → d.lineStart n ≤ o →
      ∃ m, m < d.lineCount ∧ d.lineStart m ≤ o ∧ (m + 1 < d.lineCount → o < d.lineStart (m + 1 : Nat)) := by
    intro count
    induction count with
    | zero => exact fun n hn hle => ⟨n, by omega, hle, fun hm => absurd hm (by omega)⟩
    | succ count ih =>
      intro n hn hle
      by_cases hnext : d.lineStart (n + 1 : Nat) ≤ o
      · exact ih (n + 1) (by omega) hnext
      · exact ⟨n, by omega, hle, fun _ => by omega⟩
  have hcount := d.lineCount_eq
  obtain ⟨m, hm, hle, hlt⟩ := hfind (d.lineCount - 1) 0 (by omega) (Nat.zero_le _)
  rw [d.lineAt_of_between hm hle hlt]
  exact ⟨hm, hle, hlt⟩

/-- The offset stands between two runes of its line, or at an end of it. -/
def IsBoundary (d : Document) (o : Nat) : Prop :=
  ∃ k, (d.rawLine (d.lineAt o)).IsBoundary k ∧ o = d.lineStart (d.lineAt o) + k

theorem length_rawLine (d : Document) (n : Nat) :
    (d.rawLine n).length = d.lineStart (n + 1 : Nat) - d.lineStart n :=
  Bytes.length_slice _ _ (d.lineStart_le_length _)

theorem positionAt_of_runes (d : Document) {n stop : Nat} {rs : List Rune}
    (hrs : rs <+: (d.text.slice (d.lineStart n) stop).runes) (hstop : stop ≤ d.length)
    (hline : d.lineAt (d.lineStart n + Rune.sizes rs : Nat) = n) :
    d.positionAt (d.lineStart n + Rune.sizes rs : Nat) = ⟨n, Rune.units rs⟩ := by
  have hlen : Rune.sizes rs ≤ (d.text.slice (d.lineStart n) stop).length :=
    Bytes.IsBoundary.le_length ⟨rs, hrs, rfl⟩
  rw [Bytes.length_slice _ _ hstop] at hlen
  have hclamp : d.clamp (d.lineStart n + Rune.sizes rs : Nat) = d.lineStart n + Rune.sizes rs := by
    have hle := d.lineStart_le_length n
    simp only [clamp, Int.toNat_natCast]
    omega
  have hslice : d.text.slice (d.lineStart n) (d.lineStart n + Rune.sizes rs)
      = (d.text.slice (d.lineStart n) stop).take (Rune.sizes rs) := by
    rw [Bytes.slice, Bytes.slice, List.take_take]
    congr 1
    omega
  obtain ⟨ts, hts⟩ := hrs
  simp only [positionAt, hclamp, hline, hslice, Bytes.units, Bytes.runes_take hts.symm]

theorem IsBoundary.positionAt {d : Document} {o : Nat} (h : d.IsBoundary o) :
    ∃ rs, rs <+: (d.rawLine (d.lineAt o)).runes ∧ o = d.lineStart (d.lineAt o) + Rune.sizes rs ∧
      d.positionAt o = ⟨d.lineAt o, Rune.units rs⟩ := by
  obtain ⟨_, ⟨rs, hrs, rfl⟩, ho⟩ := h
  refine ⟨rs, hrs, ho, ?_⟩
  have hp := d.positionAt_of_runes hrs (d.lineStart_le_length _) (by rw [← ho])
  rwa [← ho] at hp

theorem IsBoundary.positionAt_less {d : Document} {o o' : Nat} (h : d.IsBoundary o)
    (h' : d.IsBoundary o') (hlt : o < o') : (d.positionAt o).less (d.positionAt o') = true := by
  obtain ⟨rs, hrs, ho, hp⟩ := h.positionAt
  obtain ⟨rs', hrs', ho', hp'⟩ := h'.positionAt
  obtain ⟨hline, hlow, hhigh⟩ := d.lineAt_bounds o
  obtain ⟨hline', hlow', hhigh'⟩ := d.lineAt_bounds o'
  rw [hp, hp']
  rcases Nat.lt_trichotomy (d.lineAt o) (d.lineAt o') with hn | hn | hn
  · have hne : (d.lineAt o : Int) ≠ d.lineAt o' := by omega
    simp [Position.less, hne, hn]
  · rw [← hn] at hrs' ho'
    have hpos : ∀ r ∈ (d.rawLine (d.lineAt o)).runes, 0 < r.size := fun r => Bytes.size_pos_of_mem_runes
    have hprefix := Rune.prefix_of_sizes_le hpos hrs hrs' (by omega)
    have hunits := Rune.units_lt_of_sizes_lt hprefix (by omega)
    simp [Position.less, hn, hunits]
  · have hstart := d.lineStart_mono (show d.lineAt o' + 1 ≤ d.lineAt o by omega)
    have hnext := hhigh' (by omega)
    omega

theorem IsBoundary.eq_of_positionAt_eq {d : Document} {o o' : Nat} (h : d.IsBoundary o)
    (h' : d.IsBoundary o') (heq : d.positionAt o = d.positionAt o') : o = o' := by
  rcases Nat.lt_trichotomy o o' with hlt | heq | hlt
  · exact absurd (h.positionAt_less h' hlt) (by simp [heq, Position.less])
  · exact heq
  · exact absurd (h'.positionAt_less h hlt) (by simp [heq, Position.less])

theorem ascii_lineEnd (d : Document) {n : Nat} (h : n < d.lineCount) :
    ∀ a ∈ d.text[d.lineEnd n]?, a < 0x80 := by
  intro a ha
  rw [d.lineEnd_nat n] at ha
  split at ha
  · rename_i hreturn
    rw [hreturn.2] at ha
    exact Option.some.inj ha ▸ (by decide)
  · by_cases hn : n + 1 < d.lineCount
    · have hnewline := d.slice_lineStart_newline hn (Nat.succ_pos n)
      rw [← d.lineStop_of_lt hn] at hnewline
      have hget : (d.text.slice (d.lineStop n) (d.lineStart (n + 1 : Nat)))[0]? = some Bytes.newline := by
        rw [hnewline]
        rfl
      have hpos : d.lineStop n < d.lineStart (n + 1 : Nat) := by
        have hlt : d.lineStart n < d.lineStart (n + 1 : Nat) := d.lineStart_lt (Nat.lt_succ_self n) hn
        rw [d.lineStop_of_lt hn]
        omega
      rw [Bytes.slice, List.getElem?_take_of_lt (by omega), List.getElem?_drop, Nat.add_zero] at hget
      rw [hget] at ha
      exact Option.some.inj ha ▸ (by decide)
    · rw [d.lineStop_of_last (by omega), length] at ha
      simp at ha

theorem runes_drop_lineStart (d : Document) {n : Nat} (h : n < d.lineCount) :
    Bytes.runes (d.text.drop (d.lineStart n))
      = (d.line n).runes ++ Bytes.runes (d.text.drop (d.lineEnd n)) := by
  have hle := d.lineStart_le_lineEnd n
  have hdrop : d.text.drop (d.lineEnd n)
      = (d.text.drop (d.lineStart n)).drop (d.lineEnd n - d.lineStart n) := by
    rw [List.drop_drop, Nat.add_sub_of_le hle]
  rw [d.line_nat h, ← Bytes.runes_append_of_ascii, Bytes.slice, hdrop, List.take_append_drop]
  simpa using d.ascii_lineEnd h

theorem isBoundary_lineStart (d : Document) (n : Nat) : d.text.IsBoundary (d.lineStart n) := by
  by_cases hn : n < d.lineCount
  · have hsplit : d.text.take (d.lineStart n) ++ d.text.drop (d.lineStart n) = d.text :=
      List.take_append_drop _ _
    have hlast : ∀ b ∈ (d.text.take (d.lineStart n)).getLast?, b < 0x80 := by
      rcases d.endsLine_take_lineStart hn with hnil | ⟨front, hfront⟩
      · simp [hnil]
      · simp [hfront, Bytes.newline]
    have hboundary := Bytes.isBoundary_behind_ascii (d.text.drop (d.lineStart n)) hlast
    rwa [hsplit, List.length_take_of_le (d.lineStart_le_length n)] at hboundary
  · rw [d.lineStart_of_ge (by omega)]
    exact Bytes.isBoundary_length d.text

theorem isBoundary_lineEnd (d : Document) {n : Nat} (h : n < d.lineCount) :
    d.text.IsBoundary (d.lineEnd n) := by
  have hle := d.lineStart_le_lineEnd n
  have hline : Bytes.IsBoundary (d.text.drop (d.lineStart n)) (d.line n).length :=
    ⟨(d.line n).runes, d.runes_drop_lineStart h ▸ List.prefix_append _ _, Bytes.sizes_runes _⟩
  have hadd := (d.isBoundary_lineStart n).add hline
  rwa [d.line_nat h, Bytes.length_slice _ _ (d.lineEnd_le_length n), Nat.add_sub_of_le hle] at hadd

theorem isBoundary_of_text (d : Document) {o : Nat} (h : d.text.IsBoundary o) : d.IsBoundary o := by
  obtain ⟨hline, hlow, hhigh⟩ := d.lineAt_bounds o
  have hsub := (d.isBoundary_lineStart (d.lineAt o)).sub h hlow
  have hraw : d.text.drop (d.lineStart (d.lineAt o))
      = d.rawLine (d.lineAt o) ++ d.text.drop (d.lineStart (d.lineAt o + 1 : Nat)) := by
    have hmono := d.lineStart_mono (show d.lineAt o ≤ d.lineAt o + 1 by omega)
    rw [rawLine, Bytes.slice, ← Nat.add_sub_of_le hmono, Nat.add_sub_cancel_left, ← List.drop_drop,
      List.take_append_drop]
  rw [hraw] at hsub
  refine ⟨o - d.lineStart (d.lineAt o), hsub.of_append ?_, by omega⟩
  rw [length_rawLine]
  by_cases hnext : d.lineAt o + 1 < d.lineCount
  · have hlt := hhigh hnext
    omega
  · have hend := d.lineStart_of_ge (show d.lineCount ≤ d.lineAt o + 1 by omega)
    have hlen : o ≤ d.length := h.le_length
    omega

theorem walkUnits_past {stop target offset units o : Nat} (rs : List Rune) (hlt : target < units)
    (h : walkUnits stop target offset units rs = some o) : o = offset := by
  have hne : ¬ units = target := by omega
  cases rs with
  | nil => simp [walkUnits, hne] at h
  | cons r rs =>
    by_cases hstop : offset < stop
    · simpa [walkUnits, hstop, Nat.le_of_lt hlt, eq_comm] using h
    · simp [walkUnits, hstop, hne] at h

/-- Where a walk ends: behind the wanted units, or behind a character in which they end. -/
theorem walkUnits_eq_some {stop target : Nat} (rs ts : List Rune) (hr : ∀ r ∈ rs, 0 < r.size)
    {offset units o : Nat} (hstop : offset + Rune.sizes rs = stop) (hle : units ≤ target)
    (h : walkUnits stop target offset units (rs ++ ts) = some o) :
    ∃ front, front <+: rs ∧ o = offset + Rune.sizes front ∧
      (units + Rune.units front = target ∨
        ∃ before c, front = before ++ [c] ∧ unitsOf c.char = 2 ∧ target = units + Rune.units before + 1) := by
  induction rs generalizing offset units with
  | nil =>
    obtain rfl : offset = stop := by simpa [Rune.sizes] using hstop
    refine ⟨[], List.prefix_refl _, ?_⟩
    cases ts with
    | nil =>
      obtain ⟨hunits, ho⟩ : units = target ∧ offset = o := by simpa [walkUnits] using h
      exact ⟨ho.symm, Or.inl hunits⟩
    | cons t ts =>
      obtain ⟨hunits, ho⟩ : units = target ∧ offset = o := by simpa [walkUnits] using h
      exact ⟨ho.symm, Or.inl hunits⟩
  | cons r rs ih =>
    have hsize := hr r List.mem_cons_self
    have hunits := unitsOf_pos r.char
    simp only [Rune.sizes] at hstop
    rw [List.cons_append, walkUnits, if_pos (by omega)] at h
    split at h
    · rename_i htarget
      exact ⟨[], List.nil_prefix, (Option.some.inj h).symm, Or.inl (by simp [Rune.units]; omega)⟩
    · rename_i hmore
      by_cases hpast : target < units + unitsOf r.char
      · -- The units end within this character.
        have htwo : unitsOf r.char = 2 := by
          have hle := unitsOf_le_two r.char
          omega
        refine ⟨[r], by simp, ?_, Or.inr ⟨[], r, rfl, htwo, ?_⟩⟩
        · simpa [Rune.sizes] using walkUnits_past _ hpast h
        · simp [Rune.units]
          omega
      · obtain ⟨front, hfront, ho, hcases⟩ := ih (fun q hq => hr q (List.mem_cons_of_mem _ hq))
          (by omega) (by omega) h
        refine ⟨r :: front, by simpa using hfront, by simp only [Rune.sizes]; omega, ?_⟩
        rcases hcases with hall | ⟨before, c, rfl, hc, htarget⟩
        · exact Or.inl (by simp only [Rune.units]; omega)
        · exact Or.inr ⟨r :: before, c, rfl, hc, by simp only [Rune.units]; omega⟩

theorem rawLine_eq_append (d : Document) {n : Nat} (h : n < d.lineCount) :
    d.rawLine n = d.line n ++ d.text.slice (d.lineEnd n) (d.lineStart (n + 1 : Nat)) := by
  rw [d.line_nat h, Bytes.slice_append_slice d.text (d.lineStart_le_lineEnd n)
    (d.lineEnd_le_lineStart (Nat.lt_succ_self n)), rawLine]

theorem length_line (d : Document) {n : Nat} (h : n < d.lineCount) :
    (d.line n).length = d.lineEnd n - d.lineStart n := by
  rw [d.line_nat h, Bytes.length_slice _ _ (d.lineEnd_le_length n)]

theorem positionAt_of_prefix (d : Document) {n : Nat} (h : n < d.lineCount) {front : List Rune}
    (hf : front <+: (d.line n).runes) :
    d.positionAt (d.lineStart n + Rune.sizes front : Nat) = ⟨n, Rune.units front⟩ := by
  have hlen : Rune.sizes front ≤ (d.line n).length := Bytes.IsBoundary.le_length ⟨front, hf, rfl⟩
  rw [d.length_line h] at hlen
  rw [d.line_nat h] at hf
  refine d.positionAt_of_runes hf (d.lineEnd_le_length n) ?_
  refine d.lineAt_of_between h (Nat.le_add_right _ _) fun hn => ?_
  have hle := d.lineStart_le_lineEnd n
  have hnext : d.lineEnd n < d.lineStart (n + 1 : Nat) := d.lineEnd_lt_lineStart (Nat.lt_succ_self n) hn
  omega

theorem IsBoundary.offsetAt {d : Document} {o : Nat} (h : d.IsBoundary o)
    (hend : o ≤ d.lineEnd (d.lineAt o)) : d.offsetAt (d.positionAt o) = some o := by
  obtain ⟨rs, hrs, ho, hp⟩ := h.positionAt
  obtain ⟨hline, -, -⟩ := d.lineAt_bounds o
  have hlen := d.length_line hline
  rw [d.rawLine_eq_append hline] at hrs
  obtain ⟨ts, hts⟩ := Bytes.prefix_runes_of_append hrs (by omega)
  have hpos : ∀ r ∈ rs, 0 < r.size := fun r hr =>
    Bytes.size_pos_of_mem_runes (hts ▸ List.mem_append_left ts hr)
  have hsizes : Rune.sizes rs + Rune.sizes ts = (d.line (d.lineAt o)).length := by
    rw [← Rune.sizes_append, hts, Bytes.sizes_runes]
  have hwalk := walkUnits_of_prefix rs (ts ++ Bytes.runes (d.text.drop (d.lineEnd (d.lineAt o)))) hpos
    (d.lineEnd (d.lineAt o)) (d.lineStart (d.lineAt o)) 0 (by omega) fun hlt hnil => ?_
  · rw [hp, d.offsetAt_eq hline, d.runes_drop_lineStart hline, ← hts, List.append_assoc]
    rw [Nat.zero_add, ← ho] at hwalk
    exact hwalk
  · rw [(List.append_eq_nil_iff.mp hnil).1] at hsizes
    simp only [Rune.sizes] at hsizes
    omega

/-- The position points between the two code units of a character of its line. -/
structure Splits (d : Document) (p : Position) (before : List Rune) (c : Rune) : Prop where
  within : before ++ [c] <+: (d.line p.line).runes
  pair : unitsOf c.char = 2
  between : p.character = Rune.units before + 1

/-- An offset that is found stands behind runes of its line. Only if the position splits a character,
these are not the runes that it counts. -/
theorem offsetAt_eq_some {d : Document} {p : Position} {o : Nat} (h : d.offsetAt p = some o) :
    ∃ n front, n < d.lineCount ∧ p.line = (n : Nat) ∧ front <+: (d.line n).runes ∧
      o = d.lineStart n + Rune.sizes front ∧
      (p.character = Rune.units front ∨ ∃ before c, front = before ++ [c] ∧ d.Splits p before c) := by
  obtain ⟨line, character⟩ := p
  have hin : ¬ (line < 0 ∨ d.lineCount ≤ line ∨ character < 0) := by
    intro hout
    simp [offsetAt, or_assoc, hout] at h
  simp only [not_or, Int.not_lt, Int.not_le] at hin
  obtain ⟨n, rfl⟩ := Int.eq_ofNat_of_zero_le hin.1
  obtain ⟨units, rfl⟩ := Int.eq_ofNat_of_zero_le hin.2.2
  have hn : n < d.lineCount := by omega
  have hlen := d.length_line hn
  have hle := d.lineStart_le_lineEnd n
  rw [d.offsetAt_eq hn, d.runes_drop_lineStart hn] at h
  obtain ⟨front, hfront, ho, hcases⟩ := walkUnits_eq_some _ _ (fun r => Bytes.size_pos_of_mem_runes)
    (by rw [Bytes.sizes_runes]; omega) (Nat.zero_le _) h
  refine ⟨n, front, hn, rfl, hfront, ho, ?_⟩
  rcases hcases with hall | ⟨before, c, rfl, hc, htarget⟩
  · exact Or.inl (by simp only; omega)
  · exact Or.inr ⟨before, c, rfl, hfront, hc, by simp only; omega⟩

theorem Splits.prefix_cases {d : Document} {p : Position} {before front : List Rune} {c : Rune}
    (h : d.Splits p before c) (hf : front <+: (d.line p.line).runes) :
    front <+: before ∧ (Rune.units front : Int) < p.character ∨
      before ++ [c] <+: front ∧ p.character < Rune.units front := by
  have hbetween := h.between
  have hlater (hle : before ++ [c] <+: front) : p.character < Rune.units front := by
    have hunits := Rune.units_le_of_prefix hle
    simp only [Rune.units_append, Rune.units, h.pair] at hunits
    omega
  rcases List.prefix_or_prefix_of_prefix hf h.within with hle | hle
  · rcases List.prefix_concat_iff.mp hle with heq | hle
    · exact Or.inr ⟨heq ▸ List.prefix_refl _, hlater (heq ▸ List.prefix_refl _)⟩
    · have hunits := Rune.units_le_of_prefix hle
      exact Or.inl ⟨hle, by omega⟩
  · exact Or.inr ⟨hle, hlater hle⟩

theorem Splits.prefix_of_splits {d : Document} {p : Position} {before before' : List Rune} {c c' : Rune}
    (h : d.Splits p before c) (h' : d.Splits p before' c') : before ++ [c] <+: before' ++ [c'] := by
  rcases h.prefix_cases h'.within with ⟨_, hlt⟩ | ⟨hle, _⟩
  · have hbetween := h'.between
    simp only [Rune.units_append, Rune.units, h'.pair] at hlt
    omega
  · exact hle

theorem Splits.unique {d : Document} {p : Position} {before before' : List Rune} {c c' : Rune}
    (h : d.Splits p before c) (h' : d.Splits p before' c') : before ++ [c] = before' ++ [c'] := by
  have hle := h.prefix_of_splits h'
  exact hle.eq_of_length_le (h'.prefix_of_splits h).length_le

theorem Splits.offsetAt {d : Document} {p : Position} {o : Nat} (h : d.offsetAt p = some o)
    {before : List Rune} {c : Rune} (hs : d.Splits p before c) :
    o = d.lineStart p.line + Rune.sizes (before ++ [c]) := by
  obtain ⟨n, front, _, hline, hfront, rfl, hall | ⟨before', c', rfl, hs'⟩⟩ := offsetAt_eq_some h
  · rw [← hline] at hfront
    rcases hs.prefix_cases hfront with ⟨_, hlt⟩ | ⟨_, hlt⟩ <;> omega
  · rw [hline, hs.unique hs']

theorem positionAt_of_offsetAt {d : Document} {p : Position} {o : Nat} (h : d.offsetAt p = some o)
    (hs : ¬ ∃ before c, d.Splits p before c) : d.positionAt o = p := by
  obtain ⟨n, front, hn, hline, hfront, rfl, hall | ⟨before, c, _, hsplits⟩⟩ := offsetAt_eq_some h
  · rw [d.positionAt_of_prefix hn hfront, ← hline, ← hall]
  · exact absurd ⟨before, c, hsplits⟩ hs

/-- Offsets between runes and positions determine each other, in the same order. A position that splits
a character stands for the offset behind it. -/
theorem positions_invert_offsets (d : Document) :
    (∀ o o', d.IsBoundary o → d.IsBoundary o' → o < o' →
      (d.positionAt o).less (d.positionAt o') = true) ∧
    (∀ o, d.IsBoundary o → o ≤ d.lineEnd (d.lineAt o) → d.offsetAt (d.positionAt o) = some o) ∧
    ∀ p o, d.offsetAt p = some o →
      (∀ before c, d.Splits p before c → o = d.lineStart p.line + Rune.sizes (before ++ [c])) ∧
      ((¬ ∃ before c, d.Splits p before c) → d.positionAt o = p) :=
  ⟨fun _ _ h h' hlt => h.positionAt_less h' hlt, fun _ h hend => h.offsetAt hend,
    fun _ _ h => ⟨fun _ _ hs => hs.offsetAt h, positionAt_of_offsetAt h⟩⟩

def invalidRune : Rune := ⟨replacement, [0xFF]⟩

def smileRune : Rune := ⟨Char.ofNat 0x1F600, [0xF0, 0x9F, 0x98, 0x80]⟩

/-- A character of two units between an invalid byte and a letter, with a terminator of two bytes. -/
def smilingLine : Document := .ofText "a" (Rune.join [invalidRune, smileRune] ++ utf8 "x\r\n")

theorem positions_invert_offsets_smiling :
    let d := smilingLine
    (d.IsBoundary 1 ∧ d.IsBoundary 5 ∧ (d.positionAt 1).less (d.positionAt 5) = true) ∧
      (5 ≤ d.lineEnd (d.lineAt 5) ∧ d.offsetAt (d.positionAt 5) = some 5) ∧
      (d.offsetAt ⟨0, 2⟩ = some 5 ∧ d.Splits ⟨0, 2⟩ [invalidRune] smileRune ∧
        5 = d.lineStart 0 + Rune.sizes [invalidRune, smileRune]) ∧
      d.offsetAt ⟨0, 1⟩ = some 1 ∧ (¬ ∃ before c, d.Splits ⟨0, 1⟩ before c) ∧
        d.positionAt 1 = ⟨0, 1⟩ := by
  intro d
  have hfront : [invalidRune] <+: (d.line 0).runes := by decide +kernel
  have hone : d.IsBoundary 1 := ⟨1, ⟨[invalidRune], by decide +kernel, rfl⟩, by decide +kernel⟩
  have hfive : d.IsBoundary 5 :=
    ⟨5, ⟨[invalidRune, smileRune], by decide +kernel, rfl⟩, by decide +kernel⟩
  have hend : 5 ≤ d.lineEnd (d.lineAt 5) := by decide +kernel
  have hsplit : d.Splits ⟨0, 2⟩ [invalidRune] smileRune := ⟨by decide +kernel, by decide, by decide⟩
  have hwhole : ¬ ∃ before c, d.Splits ⟨0, 1⟩ before c := by
    rintro ⟨before, c, hs⟩
    rcases hs.prefix_cases hfront with ⟨_, hlt⟩ | ⟨_, hlt⟩ <;> exact absurd hlt (by decide)
  have htwo : d.offsetAt ⟨0, 2⟩ = some 5 := by decide +kernel
  have hat : d.offsetAt ⟨0, 1⟩ = some 1 := by decide +kernel
  obtain ⟨hless, hback, hinverse⟩ := positions_invert_offsets d
  exact ⟨⟨hone, hfive, hless 1 5 hone hfive (by decide)⟩, ⟨hend, hback 5 hfive hend⟩,
    ⟨htwo, hsplit, (hinverse ⟨0, 2⟩ 5 htwo).1 _ _ hsplit⟩, hat, hwhole,
    (hinverse ⟨0, 1⟩ 1 hat).2 hwhole⟩

end Document

end HostScript
