import HostScript.Proofs.Document.Lines
import HostScript.Proofs.Text.Runes

/-!
Documents whose text is joined of two texts. Lines, offsets and positions of the first text stay as
they are. Those of the second text move, if the first text ends a line: offsets by its length and
lines by the number of its newlines.
-/

set_option autoImplicit false

namespace HostScript

namespace Bytes

/-- What follows the text begins a line. -/
def EndsLine (bs : Bytes) : Prop := bs = [] ∨ ∃ front, bs = front ++ [newline]

theorem slice_append_left (as bs : Bytes) {start stop : Nat} (h : stop ≤ as.length) :
    (as ++ bs).slice start stop = as.slice start stop := by
  unfold slice
  by_cases hs : start ≤ as.length
  · rw [List.drop_append_of_le_length hs, List.take_append_of_le_length (by simp; omega)]
  · have hz : stop - start = 0 := by omega
    simp [hz]

theorem slice_append_right (as bs : Bytes) (start stop : Nat) :
    (as ++ bs).slice (as.length + start) (as.length + stop) = bs.slice start stop := by
  unfold slice
  rw [List.drop_append, List.drop_eq_nil_of_le (Nat.le_add_right _ _), Nat.add_sub_add_left]
  simp

theorem slice_append_middle (as bs cs : Bytes) :
    (as ++ (bs ++ cs)).slice as.length (as.length + bs.length) = bs := by
  rw [slice, Nat.add_sub_cancel_left, List.drop_left, List.take_left]

theorem length_slice (bs : Bytes) (start : Nat) {stop : Nat} (h : stop ≤ bs.length) :
    (bs.slice start stop).length = stop - start := by
  simp only [slice, List.length_take, List.length_drop]
  omega

end Bytes

theorem startsAfterNewlines_append (offset : Nat) (as bs : Bytes) :
    startsAfterNewlines offset (as ++ bs)
      = startsAfterNewlines offset as ++ startsAfterNewlines (offset + as.length) bs := by
  induction as generalizing offset with
  | nil => simp [startsAfterNewlines]
  | cons a as ih =>
    have ho : offset + 1 + as.length = offset + (as.length + 1) := by omega
    by_cases ha : a = Bytes.newline <;> simp [startsAfterNewlines, ha, ih, ho]

theorem startsAfterNewlines_shift (by_ offset : Nat) (bs : Bytes) :
    startsAfterNewlines (by_ + offset) bs = (startsAfterNewlines offset bs).map (by_ + ·) := by
  induction bs generalizing offset with
  | nil => rfl
  | cons b bs ih =>
    have ho := ih (offset + 1)
    by_cases hb : b = Bytes.newline <;> simp [startsAfterNewlines, hb, Nat.add_assoc, ho]

theorem length_startsAfterNewlines (offset : Nat) (bs : Bytes) :
    (startsAfterNewlines offset bs).length = bs.count Bytes.newline := by
  induction bs generalizing offset with
  | nil => rfl
  | cons b bs ih =>
    by_cases hb : b = Bytes.newline <;> simp [startsAfterNewlines, hb, ih]

theorem countP_startsAfterNewlines (bs : Bytes) (offset o : Nat) :
    (startsAfterNewlines offset bs).countP (· ≤ o) = (bs.take (o - offset)).count Bytes.newline := by
  induction bs generalizing offset with
  | nil => simp [startsAfterNewlines]
  | cons b bs ih =>
    by_cases ho : offset + 1 ≤ o
    · have hs : o - offset = o - (offset + 1) + 1 := by omega
      by_cases hb : b = Bytes.newline <;> simp [startsAfterNewlines, hb, ih, hs, ho]
    · have hs : o - offset = 0 := by omega
      have hs' : o - (offset + 1) = 0 := by omega
      by_cases hb : b = Bytes.newline <;> simp [startsAfterNewlines, hb, ih, hs, hs', ho]

namespace Document

theorem starts_toList (d : Document) : d.starts.toList = 0 :: startsAfterNewlines 0 d.text := by
  rw [d.starts_eq]
  rfl

theorem lineCount_eq (d : Document) : d.lineCount = d.text.count Bytes.newline + 1 := by
  have h := congrArg List.length d.starts_toList
  simpa [length_startsAfterNewlines, lineCount] using h

theorem lineAt_eq_count (d : Document) (o : Nat) :
    d.lineAt o = (d.text.take o).count Bytes.newline := by
  have h : d.starts.countP (fun start => start ≤ o) = (d.text.take o).count Bytes.newline + 1 := by
    rw [← Array.countP_toList, d.starts_toList, List.countP_cons, countP_startsAfterNewlines]
    simp
  unfold lineAt
  rw [Int.toNat_natCast, h]
  rfl

theorem lineAt_of_between (d : Document) {n o : Nat} (hn : n < d.lineCount) (hlow : d.lineStart n ≤ o)
    (hhigh : n + 1 < d.lineCount → o < d.lineStart (n + 1 : Nat)) : d.lineAt o = n := by
  have hsplit := List.take_append_drop (n + 1) d.starts.toList
  have hlen : d.starts.toList.length = d.lineCount := by simp [lineCount]
  have hle (s : Nat) (hs : s ∈ d.starts.toList.take (n + 1)) : s ≤ o := by
    obtain ⟨i, hi, rfl⟩ := List.mem_take_iff_getElem.mp hs
    have hstart := d.lineStart_of_lt (n := i) (by omega)
    have hmono := d.lineStart_mono (show i ≤ n by omega)
    rw [List.getElem?_eq_getElem (by omega)] at hstart
    have := Option.some.inj hstart
    omega
  have hgt (s : Nat) (hs : s ∈ d.starts.toList.drop (n + 1)) : o < s := by
    obtain ⟨i, hi, rfl⟩ := List.mem_drop_iff_getElem.mp hs
    have hstart := d.lineStart_of_lt (n := n + 1 + i) (by omega)
    have hmono := d.lineStart_mono (show n + 1 ≤ n + 1 + i by omega)
    have hnext := hhigh (by omega)
    rw [List.getElem?_eq_getElem (by omega)] at hstart
    have := Option.some.inj hstart
    omega
  have hcount : d.starts.countP (fun start => start ≤ o) = n + 1 := by
    rw [← Array.countP_toList, ← hsplit, List.countP_append,
      List.countP_eq_length.mpr (by simpa using hle), List.countP_eq_zero.mpr (by simpa using hgt),
      List.length_take, hlen]
    omega
  unfold lineAt
  rw [Int.toNat_natCast, hcount]
  rfl

theorem lineAt_lineStart (d : Document) {n : Nat} (h : n < d.lineCount) :
    d.lineAt (d.lineStart n) = n :=
  d.lineAt_of_between h (Nat.le_refl _) fun hn => d.lineStart_lt (Nat.lt_succ_self n) hn

theorem lineAt_lineEnd (d : Document) {n : Nat} (h : n < d.lineCount) :
    d.lineAt (d.lineEnd n) = n :=
  d.lineAt_of_between h (d.lineStart_le_lineEnd n) fun hn =>
    d.lineEnd_lt_lineStart (Nat.lt_succ_self n) hn

theorem positionAt_lineStart (d : Document) {n : Nat} (h : n < d.lineCount) :
    d.positionAt (d.lineStart n) = ⟨n, 0⟩ := by
  have hc : d.clamp (d.lineStart n) = d.lineStart n := by
    have hle := d.lineStart_le_length n
    simp only [clamp, Int.toNat_natCast]
    omega
  simp [positionAt, hc, d.lineAt_lineStart h, Bytes.slice, Bytes.units, Bytes.runes,
    Bytes.runesAfter, Rune.units]

theorem line_nat (d : Document) {n : Nat} (h : n < d.lineCount) :
    d.line n = d.text.slice (d.lineStart n) (d.lineEnd n) := by
  have hn : ¬ ((n : Int) < 0 || (d.lineCount : Int) ≤ (n : Int)) = true := by simp; omega
  rw [line, if_neg hn]

theorem lineEnd_nat (d : Document) (n : Nat) :
    d.lineEnd n = if d.lineStart n < d.lineStop n ∧ d.text[d.lineStop n - 1]? = some Bytes.carriageReturn
      then d.lineStop n - 1 else d.lineStop n := by
  have hn : ¬ (n : Int) < 0 := by omega
  simp only [lineEnd, if_neg hn, Bool.and_eq_true, decide_eq_true_eq, beq_iff_eq]

section Front

variable {d e : Document} {as bs cs : Bytes} (hd : d.text = as ++ bs) (he : e.text = as ++ cs)

include hd

theorem lt_lineCount_of_front {n : Nat} (hn : n ≤ as.count Bytes.newline) : n < d.lineCount := by
  rw [d.lineCount_eq, hd, List.count_append]
  omega

theorem starts_front {n : Nat} (hn : n ≤ as.count Bytes.newline) :
    d.starts.toList[n]? = (0 :: startsAfterNewlines 0 as)[n]? := by
  have hs : d.starts.toList = (0 :: startsAfterNewlines 0 as) ++ startsAfterNewlines as.length bs := by
    simp [starts_toList, hd, startsAfterNewlines_append]
  have hl : (0 :: startsAfterNewlines 0 as).length = as.count Bytes.newline + 1 := by
    simp [length_startsAfterNewlines]
  rw [hs, List.getElem?_append_left (by omega)]

theorem lineStart_front_le {n : Nat} (hn : n ≤ as.count Bytes.newline) :
    d.lineStart n ≤ as.length := by
  have hs := starts_front hd hn
  rw [d.lineStart_of_lt (lt_lineCount_of_front hd hn)] at hs
  cases List.mem_cons.mp (List.mem_of_getElem? hs.symm) with
  | inl h => omega
  | inr h => have hb := startsAfterNewlines_bounds as 0 _ h; omega

include he

theorem lineStart_front {n : Nat} (hn : n ≤ as.count Bytes.newline) :
    d.lineStart n = e.lineStart n := by
  have hs := (starts_front hd hn).trans (starts_front he hn).symm
  rw [d.lineStart_of_lt (lt_lineCount_of_front hd hn),
    e.lineStart_of_lt (lt_lineCount_of_front he hn)] at hs
  exact Option.some.inj hs

theorem lineStop_front {n : Nat} (hn : n < as.count Bytes.newline) :
    d.lineStop n = e.lineStop n ∧ d.lineStop n < as.length := by
  have hs := lineStart_front hd he hn
  have hle := lineStart_front_le hd hn
  have hpos := d.lineStart_lt (Nat.succ_pos n) (lt_lineCount_of_front hd hn)
  rw [d.lineStop_of_lt (lt_lineCount_of_front hd hn), e.lineStop_of_lt (lt_lineCount_of_front he hn)]
  simp only [Nat.succ_eq_add_one] at hs hle hpos
  omega

theorem lineEnd_front {n : Nat} (hn : n < as.count Bytes.newline) : d.lineEnd n = e.lineEnd n := by
  obtain ⟨hs, hlt⟩ := lineStop_front hd he hn
  have hi : e.lineStop n - 1 < as.length := by omega
  rw [lineEnd_nat, lineEnd_nat, lineStart_front hd he (Nat.le_of_lt hn), hs, hd, he,
    List.getElem?_append_left hi, List.getElem?_append_left hi]

theorem line_front {n : Nat} (hn : n < as.count Bytes.newline) : d.line n = e.line n := by
  have hend : e.lineEnd n ≤ as.length := by
    have hle := e.lineEnd_le_lineStop n
    have hlt := (lineStop_front hd he hn).2
    have hs := (lineStop_front hd he hn).1
    omega
  rw [d.line_nat (lt_lineCount_of_front hd (Nat.le_of_lt hn)),
    e.line_nat (lt_lineCount_of_front he (Nat.le_of_lt hn)), lineEnd_front hd he hn,
    lineStart_front hd he (Nat.le_of_lt hn), hd, he, Bytes.slice_append_left _ _ hend,
    Bytes.slice_append_left _ _ hend]

theorem lineAt_front {o : Nat} (ho : o ≤ as.length) : d.lineAt o = e.lineAt o := by
  rw [lineAt_eq_count, lineAt_eq_count, hd, he, List.take_append_of_le_length ho,
    List.take_append_of_le_length ho]

theorem positionAt_front {o : Nat} (ho : o ≤ as.length) : d.positionAt o = e.positionAt o := by
  have hcd : d.clamp o = o := by
    simp only [clamp, length, hd, List.length_append, Int.toNat_natCast]
    omega
  have hce : e.clamp o = o := by
    simp only [clamp, length, he, List.length_append, Int.toNat_natCast]
    omega
  have hc : e.lineAt o ≤ as.count Bytes.newline := by
    rw [lineAt_eq_count, he, List.take_append_of_le_length ho]
    exact (List.take_sublist o as).count_le _
  simp only [positionAt, hcd, hce, lineAt_front hd he ho, lineStart_front hd he hc]
  rw [hd, he, Bytes.slice_append_left _ _ ho, Bytes.slice_append_left _ _ ho]

end Front

section Back

variable {d e : Document} {as : Bytes} (hd : d.text = as ++ e.text)

include hd

theorem length_back : d.length = as.length + e.length := by simp [length, hd]

theorem lineCount_back : d.lineCount = as.count Bytes.newline + e.lineCount := by
  simp [lineCount_eq, hd, Nat.add_assoc]

theorem lineAt_back (o : Nat) :
    d.lineAt (as.length + o : Nat) = as.count Bytes.newline + e.lineAt o := by
  rw [lineAt_eq_count, lineAt_eq_count, hd, List.take_length_add_append, List.count_append]

variable (ha : as.EndsLine)

include ha

theorem starts_back (n : Nat) :
    d.starts.toList[as.count Bytes.newline + n]? = (e.starts.toList[n]?).map (as.length + ·) := by
  rcases ha with rfl | ⟨front, rfl⟩
  · simp [starts_toList, hd]
  · have hs : d.starts.toList
        = (0 :: startsAfterNewlines 0 front) ++ e.starts.toList.map ((front ++ [Bytes.newline]).length + ·) := by
      have hshift := startsAfterNewlines_shift (front.length + 1) 0 e.text
      simp [starts_toList, hd, startsAfterNewlines_append, startsAfterNewlines, hshift]
    have hl : (0 :: startsAfterNewlines 0 front).length = (front ++ [Bytes.newline]).count Bytes.newline := by
      simp [length_startsAfterNewlines]
    rw [hs, List.getElem?_append_right (by omega), hl, Nat.add_sub_cancel_left, List.getElem?_map]

theorem lineStart_back (n : Nat) :
    d.lineStart (as.count Bytes.newline + n : Nat) = as.length + e.lineStart n := by
  rw [lineStart_nat, lineStart_nat, starts_back hd ha, length_back hd]
  cases e.starts.toList[n]? <;> rfl

theorem lineStop_back (n : Nat) :
    d.lineStop (as.count Bytes.newline + n : Nat) = as.length + e.lineStop n := by
  by_cases hn : n + 1 < e.lineCount
  · have hdn : as.count Bytes.newline + n + 1 < d.lineCount := by rw [lineCount_back hd]; omega
    have hpos := e.lineStart_lt (Nat.succ_pos n) hn
    have hs := lineStart_back hd ha (n + 1)
    rw [d.lineStop_of_lt hdn, e.lineStop_of_lt hn]
    simp only [Nat.succ_eq_add_one, Nat.add_assoc] at hpos hs ⊢
    omega
  · have hdn : d.lineCount ≤ as.count Bytes.newline + n + 1 := by rw [lineCount_back hd]; omega
    rw [d.lineStop_of_last hdn, e.lineStop_of_last (by omega), length_back hd]

theorem lineEnd_back (n : Nat) :
    d.lineEnd (as.count Bytes.newline + n : Nat) = as.length + e.lineEnd n := by
  rw [lineEnd_nat, lineEnd_nat, lineStart_back hd ha, lineStop_back hd ha, hd]
  by_cases hs : e.lineStart n < e.lineStop n
  · have hi : as.length + e.lineStop n - 1 = as.length + (e.lineStop n - 1) := by omega
    have hlt : as.length + e.lineStart n < as.length + e.lineStop n := by omega
    rw [hi, List.getElem?_append_right (Nat.le_add_right _ _), Nat.add_sub_cancel_left]
    simp only [hs, hlt, true_and]
    split <;> rfl
  · have hlt : ¬ as.length + e.lineStart n < as.length + e.lineStop n := by omega
    simp only [hs, hlt, false_and, if_false]

theorem line_back {n : Nat} (hn : n < e.lineCount) :
    d.line (as.count Bytes.newline + n : Nat) = e.line n := by
  have hdn : as.count Bytes.newline + n < d.lineCount := by rw [lineCount_back hd]; omega
  rw [d.line_nat hdn, e.line_nat hn, lineStart_back hd ha, lineEnd_back hd ha, hd,
    Bytes.slice_append_right]

theorem positionAt_back (o : Nat) : d.positionAt (as.length + o : Nat)
    = ⟨as.count Bytes.newline + (e.positionAt o).line, (e.positionAt o).character⟩ := by
  have hc : d.clamp (as.length + o : Nat) = as.length + e.clamp o := by
    simp only [clamp, length_back hd, Int.toNat_natCast]
    omega
  simp only [positionAt, hc, lineAt_back hd, lineStart_back hd ha]
  rw [hd, Bytes.slice_append_right]
  simp

end Back

end Document

end HostScript
