import HostScript.InsertPoint
import HostScript.Proofs.Block.Layout
import HostScript.Proofs.Document.RawLines
import HostScript.Proofs.Text.Run

/-!
The table of contents: the entries on the lines before the first header. A line that is put among these
lines adds its entry to the table, and the other entries stay in their order.
-/

set_option autoImplicit false

namespace HostScript

namespace InsertPoint

/-- The parts of an entry of the table: white space, a number, tabs and a name. -/
structure EntryParts (margin digits tabs name : Bytes) : Prop where
  margin : ∀ b ∈ margin, isMargin b = true
  digits : digits.isDigits = true
  tabs_ne_nil : tabs ≠ []
  tabs : ∀ b ∈ tabs, b = Bytes.tab
  name : ∃ b rest, name = b :: rest ∧ isMargin b = false

/-- The line is an entry with the number `v`, which may have any size. -/
def IsEntry (line : Bytes) (v : Nat) : Prop :=
  ∃ margin digits tabs name, EntryParts margin digits tabs name ∧
    line = margin ++ (digits ++ (tabs ++ name)) ∧ digits.digitsValue = v

theorem isMargin_of_isDigit {b : UInt8} (h : Bytes.isDigit b = true) : isMargin b = false := by
  cases hm : isMargin b with
  | false => rfl
  | true =>
    simp only [isMargin, Bool.or_eq_true, beq_iff_eq] at hm
    rcases hm with (((rfl | rfl) | rfl) | rfl) | rfl <;> exact absurd h (by decide)

theorem isDigits_iff {bs : Bytes} : bs.isDigits = true ↔ bs ≠ [] ∧ ∀ b ∈ bs, Bytes.isDigit b = true := by
  simp [Bytes.isDigits]

theorem entryDigits?_of_parts {margin digits tabs name : Bytes} (h : EntryParts margin digits tabs name) :
    entryDigits? (margin ++ (digits ++ (tabs ++ name))) = some digits := by
  obtain ⟨hne, hdigits⟩ := isDigits_iff.mp h.digits
  obtain ⟨b, rest, hname, hb⟩ := h.name
  obtain ⟨digit, digits', rfl⟩ := List.exists_cons_of_ne_nil hne
  obtain ⟨tab, tabs', rfl⟩ := List.exists_cons_of_ne_nil h.tabs_ne_nil
  obtain rfl := h.tabs tab List.mem_cons_self
  have hmargin : IsRun isMargin margin ((digit :: digits') ++ (Bytes.tab :: tabs' ++ name)) :=
    .of_cons h.margin (isMargin_of_isDigit (hdigits digit List.mem_cons_self))
  have hrun : IsRun Bytes.isDigit (digit :: digits') (Bytes.tab :: tabs' ++ name) := .of_cons hdigits (by decide)
  have htabs : IsRun (· == Bytes.tab) (Bytes.tab :: tabs') name := by
    rw [hname]
    refine .of_cons (fun c hc => beq_iff_eq.mpr (h.tabs c hc)) (beq_false_of_ne ?_)
    rintro rfl
    exact absurd hb (by decide)
  unfold entryDigits?
  simp only [hmargin.dropWhile, hrun.takeWhile, List.drop_left, htabs.dropWhile]
  have hlength : ¬ rest.length = tabs'.length + (rest.length + 1) := by omega
  simp [hname, hb, hlength]

theorem exists_parts {line digits : Bytes} (h : entryDigits? line = some digits) :
    ∃ margin tabs name, EntryParts margin digits tabs name ∧ line = margin ++ (digits ++ (tabs ++ name)) := by
  obtain ⟨margin, rest, rfl, hmargin⟩ := exists_isRun isMargin line
  obtain ⟨run, rest, rfl, hrun⟩ := exists_isRun Bytes.isDigit rest
  obtain ⟨tabs, name, rfl, htabs⟩ := exists_isRun (· == Bytes.tab) rest
  unfold entryDigits? at h
  simp only [hmargin.dropWhile, hrun.takeWhile, List.drop_left, htabs.dropWhile] at h
  cases name with
  | nil => cases h
  | cons b name =>
    simp only at h
    split at h
    · cases h
    · rename_i hparts
      obtain rfl := Option.some.inj h
      simp only [Bool.or_eq_true, not_or, Bool.not_eq_true, List.isEmpty_eq_false_iff, beq_eq_false_iff_ne,
        List.length_append] at hparts
      refine ⟨margin, tabs, b :: name, ⟨hmargin.all, isDigits_iff.mpr ⟨hparts.1.1, hrun.all⟩, ?_,
        fun c hc => beq_iff_eq.mp (htabs.all c hc), b, name, rfl, hparts.2⟩, rfl⟩
      rintro rfl
      exact hparts.1.2 (by simp)

theorem isEntry_iff {line : Bytes} {v : Nat} :
    IsEntry line v ↔ (entryDigits? line).map Bytes.digitsValue = some v := by
  rw [Option.map_eq_some_iff]
  constructor
  · rintro ⟨margin, digits, tabs, name, hparts, rfl, hv⟩
    exact ⟨digits, entryDigits?_of_parts hparts, hv⟩
  · rintro ⟨digits, h, hv⟩
    obtain ⟨margin, tabs, name, hparts, hline⟩ := exists_parts h
    exact ⟨margin, digits, tabs, name, hparts, hline, hv⟩

instance (line : Bytes) (v : Nat) : Decidable (IsEntry line v) := decidable_of_iff _ isEntry_iff.symm

theorem IsEntry.unique {line : Bytes} {v w : Nat} (hv : IsEntry line v) (hw : IsEntry line w) : v = w :=
  Option.some.inj ((isEntry_iff.mp hv).symm.trans (isEntry_iff.mp hw))

theorem IsEntry.dropIndent {line : Bytes} {v : Nat} (h : IsEntry line v) :
    ∃ b rest, line.dropIndent = b :: rest ∧ (isMargin b = true ∨ Bytes.isDigit b = true) := by
  obtain ⟨margin, digits, tabs, name, hparts, rfl, -⟩ := h
  obtain ⟨hne, hdigits⟩ := isDigits_iff.mp hparts.digits
  obtain ⟨digit, digits', rfl⟩ := List.exists_cons_of_ne_nil hne
  have hdigit := hdigits digit List.mem_cons_self
  obtain ⟨run, rest, rfl, hrun⟩ := exists_isRun (fun b => b == Bytes.blank || b == Bytes.tab) margin
  -- A margin may go on behind the indent, with a form feed for example.
  cases rest with
  | nil =>
    refine ⟨digit, digits' ++ (tabs ++ name), ?_, .inr hdigit⟩
    rw [List.append_nil]
    refine (IsRun.of_cons hrun.all (Bool.eq_false_iff.mpr fun hb => ?_)).dropWhile
    simp only [Bool.or_eq_true, beq_iff_eq] at hb
    rcases hb with rfl | rfl <;> exact absurd hdigit (by decide)
  | cons b rest =>
    refine ⟨b, rest ++ (digit :: digits' ++ (tabs ++ name)), ?_, .inl (hparts.margin b (by simp))⟩
    rw [List.append_assoc]
    exact (IsRun.of_cons hrun.all (hrun.ends b rfl)).dropWhile

theorem IsEntry.dropEnd {line : Bytes} {v : Nat} (h : IsEntry line v) :
    IsEntry (Bytes.dropEnd Bytes.carriageReturn line) v := by
  obtain ⟨margin, digits, tabs, name, hparts, rfl, hv⟩ := h
  obtain ⟨b, rest, rfl, hb⟩ := hparts.name
  unfold Bytes.dropEnd
  split
  · rename_i hlast
    obtain rfl | ⟨rest, c, rfl⟩ := List.eq_nil_or_concat rest
    · obtain rfl : b = Bytes.carriageReturn := by simpa using hlast
      exact absurd hb (by decide)
    · refine ⟨margin, digits, tabs, b :: rest, { hparts with name := ⟨b, rest, rfl, hb⟩ }, ?_, hv⟩
      simp only [List.concat_eq_append, ← List.cons_append, ← List.append_assoc, List.dropLast_concat]
  · exact ⟨margin, digits, tabs, b :: rest, hparts, rfl, hv⟩

end InsertPoint

namespace Document

open InsertPoint

theorem isHeader_congr {d e : Document} {m n : Nat} (h : d.line m = e.line n) : d.IsHeader m ↔ e.IsHeader n := by
  rw [IsHeader, IsHeader, h]

theorem not_isHeader_of_isEntry {d : Document} {n v : Nat} (h : IsEntry (d.line n) v) : ¬ d.IsHeader n := by
  obtain ⟨b, rest, hindent, hb⟩ := h.dropIndent
  rintro (⟨tail, hkeyword⟩ | ⟨tail, hkeyword⟩)
  · rw [hindent] at hkeyword
    obtain rfl : 83 = b := (List.cons.inj hkeyword).1
    exact absurd hb (by decide)
  · rw [hindent] at hkeyword
    obtain rfl : 73 = b := (List.cons.inj hkeyword).1
    exact absurd hb (by decide)

/-- The table has an entry with the number `v` on line `n`. -/
structure HasEntry (d : Document) (n v : Nat) : Prop where
  before : ∀ k ≤ n, ¬ d.IsHeader k
  entry : IsEntry (d.line n) v

instance (d : Document) (n v : Nat) : Decidable (d.HasEntry n v) :=
  decidable_of_iff ((∀ k ≤ n, ¬ d.IsHeader k) ∧ IsEntry (d.line n) v) ⟨fun h => ⟨h.1, h.2⟩, fun h => ⟨h.1, h.2⟩⟩

/-- No entry of the table has a number less than that of an entry above it. -/
def EntriesAscending (d : Document) : Prop :=
  ∀ m n v w, d.HasEntry m v → d.HasEntry n w → m < n → v ≤ w

theorem HasEntry.lt_lineCount {d : Document} {n v : Nat} (h : d.HasEntry n v) : n < d.lineCount := by
  refine (d.lineStart_lt_lineEnd fun hnil => ?_).1
  obtain ⟨b, rest, hindent, -⟩ := h.entry.dropIndent
  rw [hnil] at hindent
  cases hindent

/-- The order of the table, if even the lines that are no longer part of it keep it. -/
theorem entriesAscending_of_lines {d : Document} (h : ∀ n < d.lineCount, ∀ m < n,
    ∀ v ∈ (entryDigits? (d.line m)).map Bytes.digitsValue, ∀ w ∈ (entryDigits? (d.line n)).map Bytes.digitsValue,
      v ≤ w) : d.EntriesAscending :=
  fun m n v w hv hw hlt => h n hw.lt_lineCount m hlt v (isEntry_iff.mp hv.entry) w (isEntry_iff.mp hw.entry)

section Insert

variable {d e : Document} {m : Nat} {line : Bytes} (hm : m < d.lineCount) (hline : Bytes.newline ∉ line)
  (he : e.text = d.text.take (d.lineStart m) ++ (line ++ Bytes.newline :: d.text.drop (d.lineStart m)))

include hm hline he

section Entry

variable {v : Nat} (hentry : IsEntry line v)

include hentry

theorem isEntry_inserted : IsEntry (e.line m) v := by
  rw [line_inserted hm hline he]
  exact hentry.dropEnd

end Entry

variable (hfree : ∀ k < m, ¬ d.IsHeader k)

include hfree

theorem hasEntry_above {n w : Nat} (hn : n < m) : e.HasEntry n w ↔ d.HasEntry n w := by
  have hlines {k : Nat} (hk : k ≤ n) : e.line k = d.line k := line_above hm hline he (by omega)
  constructor
  · rintro ⟨-, hw⟩
    exact ⟨fun k hk => hfree k (by omega), hlines (Nat.le_refl n) ▸ hw⟩
  · rintro ⟨hbefore, hw⟩
    exact ⟨fun k hk => (isHeader_congr (hlines hk)).not.mpr (hbefore k hk), (hlines (Nat.le_refl n)).symm ▸ hw⟩

variable {v : Nat} (hentry : IsEntry line v)

include hentry

theorem not_isHeader_insert {k : Nat} (hk : k ≤ m) : ¬ e.IsHeader k := by
  rcases Nat.lt_or_eq_of_le hk with hlt | rfl
  · exact (isHeader_congr (line_above hm hline he hlt)).not.mpr (hfree k hlt)
  · exact not_isHeader_of_isEntry (isEntry_inserted hm hline he hentry)

theorem hasEntry_inserted {w : Nat} : e.HasEntry m w ↔ w = v := by
  have hnew := isEntry_inserted hm hline he hentry
  constructor
  · rintro ⟨-, hw⟩
    exact hw.unique hnew
  · rintro rfl
    exact ⟨fun k hk => not_isHeader_insert hm hline he hfree hentry hk, hnew⟩

theorem hasEntry_below {n w : Nat} (hn : m ≤ n) : e.HasEntry (n + 1) w ↔ d.HasEntry n w := by
  have hcount := lineCount_insert hm hline he
  have hlines {k : Nat} (hk : m ≤ k) (hlt : k < d.lineCount) : e.line (k + 1 : Nat) = d.line k :=
    line_below hm hline he hk hlt
  constructor
  · intro h
    have hlt := h.lt_lineCount
    refine ⟨fun k hk => ?_, hlines hn (by omega) ▸ h.entry⟩
    by_cases hkm : k < m
    · exact hfree k hkm
    · exact (isHeader_congr (hlines (by omega) (by omega))).not.mp (h.before (k + 1) (by omega))
  · intro h
    have hlt := h.lt_lineCount
    refine ⟨fun k hk => ?_, (hlines hn hlt).symm ▸ h.entry⟩
    by_cases hkm : k ≤ m
    · exact not_isHeader_insert hm hline he hfree hentry hkm
    · -- The lines below the new one are those of `d`, one line further down.
      obtain ⟨j, rfl⟩ := Nat.exists_eq_add_of_lt (Nat.lt_of_not_le hkm)
      exact (isHeader_congr (hlines (by omega) (by omega))).not.mpr (h.before (m + j) (by omega))

theorem hasEntry_insert_iff {n w : Nat} :
    e.HasEntry n w ↔ n = m ∧ w = v ∨ ∃ k, d.HasEntry k w ∧ n = if k < m then k else k + 1 := by
  constructor
  · intro h
    rcases Nat.lt_trichotomy n m with hlt | rfl | hgt
    · exact .inr ⟨n, (hasEntry_above hm hline he hfree hlt).mp h, (if_pos hlt).symm⟩
    · exact .inl ⟨rfl, (hasEntry_inserted hm hline he hfree hentry).mp h⟩
    · obtain ⟨j, rfl⟩ := Nat.exists_eq_add_of_lt hgt
      exact .inr ⟨m + j, (hasEntry_below hm hline he hfree hentry (by omega)).mp h, (if_neg (by omega)).symm⟩
  · rintro (⟨rfl, hw⟩ | ⟨k, h, rfl⟩)
    · exact (hasEntry_inserted hm hline he hfree hentry).mpr hw
    · split
      · rename_i hlt
        exact (hasEntry_above hm hline he hfree hlt).mpr h
      · exact (hasEntry_below hm hline he hfree hentry (by omega)).mpr h

/-- The table is in ascending order with the new entry if it was before, and the new entry is not less than
those above it and not greater than those below. -/
theorem entriesAscending_insert_iff : e.EntriesAscending ↔ d.EntriesAscending ∧
    (∀ n w, d.HasEntry n w → n < m → w ≤ v) ∧ ∀ n w, d.HasEntry n w → m ≤ n → v ≤ w := by
  have hiff {n w : Nat} := hasEntry_insert_iff hm hline he hfree hentry (n := n) (w := w)
  have hold {n w : Nat} (h : d.HasEntry n w) : e.HasEntry (if n < m then n else n + 1) w :=
    hiff.mpr (.inr ⟨n, h, rfl⟩)
  have hnew : e.HasEntry m v := hiff.mpr (.inl ⟨rfl, rfl⟩)
  constructor
  · intro hasc
    refine ⟨fun i j w x hw hx hlt => hasc _ _ w x (hold hw) (hold hx) ?_,
      fun n w hw hlt => hasc _ _ w v (hold hw) hnew ?_, fun n w hw hle => hasc _ _ v w hnew (hold hw) ?_⟩
    · split <;> split <;> omega
    · rwa [if_pos hlt]
    · rw [if_neg (by omega)]
      omega
  · rintro ⟨hasc, habove, hbelow⟩ i j w x hw hx hlt
    -- Each of the two entries is the new one or one that has moved.
    rcases hiff.mp hw with ⟨rfl, rfl⟩ | ⟨k, hk, rfl⟩ <;> rcases hiff.mp hx with ⟨rfl, rfl⟩ | ⟨l, hl, rfl⟩
    · exact Nat.le_refl _
    · exact hbelow l x hl (by split at hlt <;> omega)
    · exact habove k w hk (by split at hlt <;> omega)
    · exact hasc k l w x hk hl (by split at hlt <;> split at hlt <;> omega)

end Insert

end Document

end HostScript
