import HostScript.Document

set_option autoImplicit false

namespace HostScript

theorem Position.less_iff {p q : Position} :
    p.less q = true ↔ p.line < q.line ∨ p.line = q.line ∧ p.character < q.character := by
  unfold less
  split <;> simp <;> omega

theorem startsAfterNewlines_bounds (text : Bytes) (offset s : Nat)
    (h : s ∈ startsAfterNewlines offset text) : offset < s ∧ s ≤ offset + text.length := by
  induction text generalizing offset with
  | nil => simp [startsAfterNewlines] at h
  | cons b bs ih =>
    have hs : s = offset + 1 ∨ s ∈ startsAfterNewlines (offset + 1) bs := by
      by_cases hb : b = Bytes.newline
      · simpa [startsAfterNewlines, hb] using h
      · exact Or.inr (by simpa [startsAfterNewlines, hb] using h)
    simp only [List.length_cons]
    cases hs with
    | inl hs => omega
    | inr hs => have hb := ih (offset + 1) hs; omega

theorem startsAfterNewlines_ascending (text : Bytes) (offset : Nat) :
    (startsAfterNewlines offset text).Pairwise (· < ·) := by
  induction text generalizing offset with
  | nil => simp [startsAfterNewlines]
  | cons b bs ih =>
    by_cases hb : b = Bytes.newline
    · simp only [startsAfterNewlines, hb, if_true, List.pairwise_cons]
      exact ⟨fun s hs => (startsAfterNewlines_bounds bs (offset + 1) s hs).1, ih (offset + 1)⟩
    · simpa [startsAfterNewlines, hb] using ih (offset + 1)

namespace Document

theorem starts_ascending (d : Document) : d.starts.toList.Pairwise (· < ·) := by
  rw [d.starts_eq, lineStarts]
  simp only [List.pairwise_cons]
  exact ⟨fun s hs => (startsAfterNewlines_bounds d.text 0 s hs).1,
    startsAfterNewlines_ascending d.text 0⟩

theorem starts_le_length (d : Document) (s : Nat) (h : s ∈ d.starts.toList) : s ≤ d.length := by
  rw [d.starts_eq, lineStarts] at h
  simp only [List.mem_cons] at h
  cases h with
  | inl h => omega
  | inr h =>
    have hb := startsAfterNewlines_bounds d.text 0 s h
    unfold length
    omega

theorem lineStart_nat (d : Document) (n : Nat) :
    d.lineStart n = d.starts.toList[n]?.getD d.length := by
  cases n with
  | zero => simp [lineStart, d.starts_eq, lineStarts]
  | succ n =>
    have h : ¬ ((n + 1 : Nat) : Int) ≤ 0 := by omega
    rw [lineStart, if_neg h]
    simp

theorem lineStart_of_lt (d : Document) {n : Nat} (h : n < d.lineCount) :
    d.starts.toList[n]? = some (d.lineStart n) := by
  have hn : n < d.starts.toList.length := by simpa [lineCount] using h
  rw [lineStart_nat, List.getElem?_eq_getElem hn]
  rfl

theorem lineStart_of_ge (d : Document) {n : Nat} (h : d.lineCount ≤ n) : d.lineStart n = d.length := by
  have hn : d.starts.toList.length ≤ n := by simpa [lineCount] using h
  rw [lineStart_nat, List.getElem?_eq_none hn]
  rfl

theorem lineStart_le_length (d : Document) (n : Nat) : d.lineStart n ≤ d.length := by
  by_cases h : n < d.lineCount
  · exact d.starts_le_length _ (List.mem_of_getElem? (d.lineStart_of_lt h))
  · exact Nat.le_of_eq (d.lineStart_of_ge (by omega))

theorem lineStart_lt (d : Document) {m n : Nat} (h : m < n) (hn : n < d.lineCount) :
    d.lineStart m < d.lineStart n := by
  have hm := List.getElem?_eq_some_iff.mp (d.lineStart_of_lt (Nat.lt_trans h hn))
  have hn := List.getElem?_eq_some_iff.mp (d.lineStart_of_lt hn)
  obtain ⟨hml, hm⟩ := hm
  obtain ⟨hnl, hn⟩ := hn
  rw [← hm, ← hn]
  exact List.pairwise_iff_getElem.mp d.starts_ascending m n hml hnl h

theorem lineStart_mono (d : Document) {m n : Nat} (h : m ≤ n) : d.lineStart m ≤ d.lineStart n := by
  by_cases hn : n < d.lineCount
  · cases Nat.lt_or_eq_of_le h with
    | inl h => exact Nat.le_of_lt (d.lineStart_lt h hn)
    | inr h => exact Nat.le_of_eq (by rw [h])
  · rw [d.lineStart_of_ge (by omega : d.lineCount ≤ n)]
    exact d.lineStart_le_length m

theorem lineStop_of_lt (d : Document) {n : Nat} (h : n + 1 < d.lineCount) :
    d.lineStop n = d.lineStart (n + 1 : Nat) - 1 := by
  have hs := d.lineStart_of_lt h
  have ha : d.starts[n + 1]? = some (d.lineStart (n + 1 : Nat)) := by simpa using hs
  simp only [lineStop, Int.toNat_natCast, ha]

theorem lineStop_of_last (d : Document) {n : Nat} (h : d.lineCount ≤ n + 1) :
    d.lineStop n = d.length := by
  have ha : d.starts[n + 1]? = none := Array.getElem?_eq_none (by simpa [lineCount] using h)
  simp only [lineStop, Int.toNat_natCast, ha]

theorem lineStart_le_lineStop (d : Document) (n : Nat) : d.lineStart n ≤ d.lineStop n := by
  by_cases h : n + 1 < d.lineCount
  · have hl : d.lineStart n < d.lineStart (n + 1 : Nat) := d.lineStart_lt (Nat.lt_succ_self n) h
    rw [d.lineStop_of_lt h]
    omega
  · rw [d.lineStop_of_last (by omega)]
    exact d.lineStart_le_length n

theorem lineStop_le_lineStart_succ (d : Document) (n : Nat) :
    d.lineStop n ≤ d.lineStart (n + 1 : Nat) := by
  by_cases h : n + 1 < d.lineCount
  · rw [d.lineStop_of_lt h]
    omega
  · have hs : d.lineStop n = d.length := d.lineStop_of_last (by omega)
    have hn : d.lineStart (n + 1 : Nat) = d.length := d.lineStart_of_ge (by omega)
    exact Nat.le_of_eq (hs.trans hn.symm)

theorem lineEnd_le_lineStop (d : Document) (n : Nat) : d.lineEnd n ≤ d.lineStop n := by
  have h : ¬ (n : Int) < 0 := by omega
  simp only [lineEnd, h, if_false]
  split <;> omega

theorem lineStart_le_lineEnd (d : Document) (n : Nat) : d.lineStart n ≤ d.lineEnd n := by
  have h : ¬ (n : Int) < 0 := by omega
  have hs := d.lineStart_le_lineStop n
  simp only [lineEnd, h, if_false]
  split
  · rename_i hc
    simp only [Bool.and_eq_true, decide_eq_true_eq] at hc
    omega
  · exact hs

theorem lineEnd_le_lineStart (d : Document) {m n : Nat} (h : m < n) :
    d.lineEnd m ≤ d.lineStart n :=
  calc d.lineEnd m ≤ d.lineStop m := d.lineEnd_le_lineStop m
    _ ≤ d.lineStart (m + 1 : Nat) := d.lineStop_le_lineStart_succ m
    _ ≤ d.lineStart n := d.lineStart_mono h

theorem lineEnd_lt_lineStart (d : Document) {m n : Nat} (h : m < n) (hn : n < d.lineCount) :
    d.lineEnd m < d.lineStart n := by
  have hm : m + 1 < d.lineCount := by omega
  have hp : d.lineStart (0 : Nat) < d.lineStart (m + 1 : Nat) := d.lineStart_lt (Nat.succ_pos m) hm
  have he := d.lineEnd_le_lineStop m
  have hs := d.lineStart_mono (show m + 1 ≤ n from h)
  rw [d.lineStop_of_lt hm] at he
  omega

theorem lineEnd_le_length (d : Document) (n : Nat) : d.lineEnd n ≤ d.length :=
  Nat.le_trans (d.lineEnd_le_lineStart (Nat.lt_succ_self n)) (d.lineStart_le_length _)

theorem lineStart_lt_lineEnd (d : Document) {n : Nat} (h : d.line n ≠ []) :
    n < d.lineCount ∧ d.lineStart n < d.lineEnd n := by
  unfold line at h
  split at h
  · exact absurd rfl h
  · rename_i hn
    simp only [Bool.or_eq_true, decide_eq_true_eq] at hn
    refine ⟨by omega, ?_⟩
    apply Nat.lt_of_not_le
    intro hle
    have hz : d.lineEnd n - d.lineStart n = 0 := by omega
    simp [Bytes.slice, hz] at h

end Document

end HostScript
