import HostScript.Proofs.Document.RawLines

/-!
From positions back to offsets. The beginning of a line and the end of a text are found again, except
that the position behind a carriage return that ends the text counts as outside of its line.
-/

set_option autoImplicit false

namespace HostScript

namespace Document

theorem walkUnits_skip {stop target : Nat} (rs rest : List Rune) (hr : ∀ r ∈ rs, 0 < r.size) (offset units : Nat)
    (ho : offset + Rune.sizes rs ≤ stop) (ht : units + Rune.units rs ≤ target) :
    walkUnits stop target offset units (rs ++ rest)
      = walkUnits stop target (offset + Rune.sizes rs) (units + Rune.units rs) rest := by
  induction rs generalizing offset units with
  | nil => rfl
  | cons r rs ih =>
    have hsize := hr r List.mem_cons_self
    have hunits := unitsOf_pos r.char
    simp only [Rune.sizes, Rune.units] at ho ht ⊢
    have hrest := ih (fun q hq => hr q (List.mem_cons_of_mem _ hq)) (offset + r.size) (units + unitsOf r.char)
      (by omega) (by omega)
    rw [List.cons_append, walkUnits, if_pos (by omega), if_neg (by omega), hrest, Nat.add_assoc, Nat.add_assoc]

theorem walkUnits_stop (stop target units : Nat) (rs : List Rune) :
    walkUnits stop target stop units rs = if units = target then some stop else none := by
  cases rs with
  | nil => rfl
  | cons r rs => rw [walkUnits, if_neg (Nat.lt_irrefl stop)]

/-- A walk over runes that reach exactly to the stop ends there, with more runes behind or not. -/
theorem walkUnits_append {stop : Nat} (rs rest : List Rune) (hr : ∀ r ∈ rs, 0 < r.size)
    (offset units target : Nat) (ho : offset + Rune.sizes rs = stop)
    (ht : units + Rune.units rs ≤ target) :
    walkUnits stop target offset units (rs ++ rest)
      = if units + Rune.units rs = target then some stop else none := by
  rw [walkUnits_skip rs rest hr offset units (Nat.le_of_eq ho) ht, ho, walkUnits_stop]

theorem walkUnits_of_prefix (rs ts : List Rune) (hr : ∀ r ∈ rs, 0 < r.size)
    (stop offset units : Nat) (hle : offset + Rune.sizes rs ≤ stop)
    (hstop : offset + Rune.sizes rs < stop → ts ≠ []) :
    walkUnits stop (units + Rune.units rs) offset units (rs ++ ts) = some (offset + Rune.sizes rs) := by
  rw [walkUnits_skip rs ts hr offset units hle (Nat.le_refl _)]
  rcases Nat.eq_or_lt_of_le hle with heq | hlt
  · rw [heq, walkUnits_stop, if_pos rfl]
  · obtain ⟨t, ts, rfl⟩ := List.exists_cons_of_ne_nil (hstop hlt)
    rw [walkUnits, if_pos hlt, if_pos (Nat.le_refl _)]

theorem offsetAt_eq (d : Document) {n : Nat} (h : n < d.lineCount) (units : Nat) :
    d.offsetAt ⟨n, units⟩
      = walkUnits (d.lineEnd n) units (d.lineStart n) 0 (Bytes.runes (d.text.drop (d.lineStart n))) := by
  have hin : ¬ ((n : Int) < 0 ∨ (d.lineCount : Int) ≤ n ∨ (units : Int) < 0) := by omega
  simp only [not_or] at hin
  simp [offsetAt, hin]

theorem offsetAt_lineStart (d : Document) {n : Nat} (h : n < d.lineCount) :
    d.offsetAt ⟨n, 0⟩ = some (d.lineStart n) := by
  have hend : d.lineEnd n ≤ d.text.length := d.lineEnd_le_length n
  have hwalk := walkUnits_of_prefix [] (Bytes.runes (d.text.drop (d.lineStart n))) (by simp) (d.lineEnd n)
    (d.lineStart n) 0 (d.lineStart_le_lineEnd n) fun hlt hnil => ?_
  · exact (d.offsetAt_eq h 0).trans hwalk
  · have hlen := Bytes.sizes_runes (d.text.drop (d.lineStart n))
    rw [hnil, List.length_drop] at hlen
    simp only [Rune.sizes, Nat.add_zero] at hlen hlt
    omega

def lastLine (d : Document) : Nat := d.lineCount - 1

theorem lastLine_lt (d : Document) : d.lastLine < d.lineCount := by
  have hcount := d.lineCount_eq
  unfold lastLine
  omega

theorem lastLine_succ (d : Document) : d.lastLine + 1 = d.lineCount := by
  have hcount := d.lineCount_eq
  unfold lastLine
  omega

theorem lineStop_lastLine (d : Document) : d.lineStop d.lastLine = d.length :=
  d.lineStop_of_last (by unfold lastLine; omega)

theorem lastLine_empty (d : Document) (h : ¬ d.lineStart d.lastLine < d.length) :
    d.lineStart d.lastLine = d.length ∧ d.lineEnd d.lastLine = d.lineStart d.lastLine ∧
      d.line d.lastLine = [] := by
  have hle := d.lineStart_le_length d.lastLine
  have hlow := d.lineStart_le_lineEnd d.lastLine
  have hhigh := d.lineEnd_le_length d.lastLine
  have hend : d.lineEnd d.lastLine = d.lineStart d.lastLine := by omega
  refine ⟨by omega, hend, ?_⟩
  rw [d.line_nat d.lastLine_lt, hend]
  simp [Bytes.slice]

theorem rawLines_lastLine (d : Document) :
    Bytes.rawLines (d.text.drop (d.lineStart d.lastLine)) = [d.rawLine d.lastLine] := by
  simpa using d.rawLines_drop 0 d.lastLine (by rw [Nat.zero_add, lastLine_succ])

theorem rawLine_lastLine (d : Document) :
    d.rawLine d.lastLine = d.text.drop (d.lineStart d.lastLine) := by
  rw [d.rawLine_of_last d.lastLine_succ, lineStop_lastLine, Bytes.slice, List.take_of_length_le]
  simp [length]

theorem lineAt_length (d : Document) : d.lineAt d.length = d.lastLine := by
  have hcount := d.lineCount_eq
  rw [lineAt_eq_count, length, List.take_length, lastLine]
  omega

theorem lineStart_lt_of_return (d : Document) (h : d.text.getLast? = some Bytes.carriageReturn) :
    d.lineStart d.lastLine < d.length := by
  refine Nat.lt_of_le_of_ne (d.lineStart_le_length _) fun heq => ?_
  obtain ⟨front, hfront⟩ := List.getLast?_eq_some_iff.mp h
  have hlen : d.length = front.length + 1 := by simp [length, hfront]
  have hpos : 0 < d.lastLine := by
    refine Nat.pos_of_ne_zero fun hz => ?_
    rw [hz] at heq
    have hzero : d.lineStart (0 : Nat) = 0 := rfl
    omega
  -- A last line without text follows a newline.
  have hnewline := d.slice_lineStart_newline d.lastLine_lt hpos
  rw [heq, hlen, hfront] at hnewline
  have hslice := Bytes.slice_append_right front [Bytes.carriageReturn] 0 1
  rw [Nat.add_sub_cancel, show front.length = front.length + 0 by omega, hslice] at hnewline
  exact absurd hnewline (by decide)

theorem lineEnd_lastLine (d : Document) : d.lineEnd d.lastLine
    = if d.text.getLast? = some Bytes.carriageReturn then d.length - 1 else d.length := by
  rw [lineEnd_nat, lineStop_lastLine, length, ← List.getLast?_eq_getElem?]
  by_cases hr : d.text.getLast? = some Bytes.carriageReturn
  · have hlt := d.lineStart_lt_of_return hr
    unfold length at hlt
    simp [hr, hlt]
  · simp [hr]

theorem positionAt_length (d : Document) : d.positionAt d.length
    = ⟨d.lastLine, Bytes.units (d.text.drop (d.lineStart d.lastLine))⟩ := by
  have hclamp : d.clamp d.length = d.length := by simp [clamp]
  have hslice : d.text.slice (d.lineStart d.lastLine) d.length = d.text.drop (d.lineStart d.lastLine) := by
    rw [Bytes.slice, List.take_of_length_le]
    simp [length]
  simp only [positionAt, hclamp, lineAt_length, hslice]

/-- The end of a text is found again unless a carriage return ends it. -/
theorem offsetAt_length (d : Document) : d.offsetAt (d.positionAt d.length)
    = if d.text.getLast? = some Bytes.carriageReturn then none else some d.length := by
  have hstart := d.lineStart_le_length d.lastLine
  have hpos : ∀ r ∈ Bytes.runes (d.text.drop (d.lineStart d.lastLine)), 0 < r.size :=
    fun r hr => Bytes.size_pos_of_mem_runes hr
  rw [positionAt_length, d.offsetAt_eq d.lastLine_lt, lineEnd_lastLine]
  split
  · rename_i hr
    have hlt := d.lineStart_lt_of_return hr
    obtain ⟨front, hfront⟩ := List.getLast?_eq_some_iff.mp hr
    have hlen : d.length = front.length + 1 := by simp [length, hfront]
    have hdrop : d.text.drop (d.lineStart d.lastLine)
        = front.drop (d.lineStart d.lastLine) ++ [Bytes.carriageReturn] := by
      rw [hfront, List.drop_append_of_le_length (by omega)]
    rw [hdrop, Bytes.runes_append_return] at hpos ⊢
    rw [Bytes.units_append_return, walkUnits_append _ _ (fun r hr => hpos r (List.mem_append_left _ hr)),
      if_neg]
    · simp [Bytes.units]
    · simp only [Bytes.sizes_runes, List.length_drop]
      omega
    · simp [Bytes.units]
  · have hsizes : d.lineStart d.lastLine + Rune.sizes (Bytes.runes (d.text.drop (d.lineStart d.lastLine)))
        = d.length := by
      simp only [Bytes.sizes_runes, List.length_drop]
      unfold length at hstart ⊢
      omega
    have hwalk := walkUnits_append _ [] hpos _ 0 _ hsizes (Nat.le_of_eq (Nat.zero_add _))
    rw [List.append_nil] at hwalk
    rw [Bytes.units, hwalk, if_pos (Nat.zero_add _)]

end Document

end HostScript
