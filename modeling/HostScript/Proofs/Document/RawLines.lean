import HostScript.Proofs.Document.Window

/-!
A text as the list of its lines, each with the newline that ends it. Texts that end a line are joined
by joining their lines, so an edit that puts whole lines into a text is an insertion into the list.
-/

set_option autoImplicit false

namespace HostScript

namespace Bytes

/-- The lines of a text with their newlines. The last one has none, and is empty behind a newline. -/
def rawLines : Bytes → List Bytes
  | [] => [[]]
  | b :: bs =>
    if b = newline then [b] :: rawLines bs
    else match rawLines bs with
      | [] => [[b]]
      | line :: rest => (b :: line) :: rest

/-- A text without the byte that ends it, if that is the given one. -/
def dropEnd (b : UInt8) (bs : Bytes) : Bytes := if bs.getLast? = some b then bs.dropLast else bs

/-- What a line says, without its terminator. -/
def lineText (raw : Bytes) : Bytes := dropEnd carriageReturn (dropEnd newline raw)

@[simp] theorem dropEnd_append (b : UInt8) (bs : Bytes) : dropEnd b (bs ++ [b]) = bs := by
  simp [dropEnd]

theorem dropEnd_of_notMem {b : UInt8} {bs : Bytes} (h : b ∉ bs) : dropEnd b bs = bs := by
  unfold dropEnd
  split
  · rename_i hl
    exact absurd (List.mem_of_getLast? hl) h
  · rfl

theorem lineText_append_newline {raw : Bytes} (h : newline ∉ raw) :
    lineText (raw ++ [newline]) = lineText raw := by
  rw [lineText, lineText, dropEnd_append, dropEnd_of_notMem h]

theorem rawLines_of_notMem {bs : Bytes} (h : newline ∉ bs) : rawLines bs = [bs] := by
  induction bs with
  | nil => rfl
  | cons b bs ih =>
    simp only [List.mem_cons, not_or] at h
    simp [rawLines, ih h.2, Ne.symm h.1]

theorem rawLines_line {line : Bytes} (h : newline ∉ line) (bs : Bytes) :
    rawLines (line ++ newline :: bs) = (line ++ [newline]) :: rawLines bs := by
  induction line with
  | nil => simp [rawLines]
  | cons b line ih =>
    simp only [List.mem_cons, not_or] at h
    simp [rawLines, ih h.2, Ne.symm h.1]

theorem EndsLine.rawLines_append {as : Bytes} (h : as.EndsLine) :
    ∃ ls : List Bytes, ls.flatten = as ∧ ∀ bs, rawLines (as ++ bs) = ls ++ rawLines bs := by
  rcases h with rfl | ⟨front, rfl⟩
  · exact ⟨[], rfl, fun bs => rfl⟩
  · induction front with
    | nil => exact ⟨[[newline]], rfl, fun bs => by simp [rawLines]⟩
    | cons b front ih =>
      obtain ⟨ls, hf, hr⟩ := ih
      by_cases hb : b = newline
      · exact ⟨[b] :: ls, by simp [hf], fun bs => by simp only [List.cons_append, rawLines, hb, if_true, hr]⟩
      · cases ls with
        | nil => simp at hf
        | cons line rest =>
          refine ⟨(b :: line) :: rest, by simpa using hf, fun bs => ?_⟩
          simp only [List.cons_append, rawLines, hb, if_false, hr]

theorem slice_append_slice (bs : Bytes) {a b c : Nat} (hab : a ≤ b) (hbc : b ≤ c) :
    bs.slice a b ++ bs.slice b c = bs.slice a c := by
  have hd : bs.drop b = (bs.drop a).drop (b - a) := by rw [List.drop_drop, Nat.add_sub_of_le hab]
  have hc : c - a = (b - a) + (c - b) := by omega
  rw [slice, slice, slice, hd, hc, List.take_add]

theorem dropEnd_slice (b : UInt8) (bs : Bytes) {start stop : Nat} (hle : start ≤ stop)
    (hs : stop ≤ bs.length) : dropEnd b (bs.slice start stop)
      = bs.slice start (if start < stop ∧ bs[stop - 1]? = some b then stop - 1 else stop) := by
  by_cases hlt : start < stop
  · have hi : start + (stop - start - 1) = stop - 1 := by omega
    have hlast : (bs.slice start stop).getLast? = bs[stop - 1]? := by
      rw [List.getLast?_eq_getElem?, length_slice _ _ hs, slice,
        List.getElem?_take_of_lt (by omega), List.getElem?_drop, hi]
    have hdrop : (bs.slice start stop).dropLast = bs.slice start (stop - 1) := by
      rw [List.dropLast_eq_take, length_slice _ _ hs, slice, slice, List.take_take]
      congr 1
      omega
    simp only [dropEnd, hlast, hdrop, hlt, true_and]
    split <;> rfl
  · obtain rfl : start = stop := by omega
    have hz : bs.slice start start = [] := by simp [slice]
    simp [hz, dropEnd]

end Bytes

namespace Document

def rawLine (d : Document) (n : Nat) : Bytes := d.text.slice (d.lineStart n) (d.lineStart (n + 1 : Nat))

theorem slice_lineStart_newline (d : Document) {n : Nat} (h : n < d.lineCount) (hn : 0 < n) :
    d.text.slice (d.lineStart n - 1) (d.lineStart n) = [Bytes.newline] := by
  have hle := d.lineStart_le_length n
  have hpos : d.lineStart (0 : Nat) < d.lineStart n := d.lineStart_lt hn h
  have hlen := List.length_take_of_le hle
  rcases d.endsLine_take_lineStart h with he | ⟨front, he⟩
  · rw [he] at hlen
    simp only [List.length_nil] at hlen
    omega
  · have hsplit := List.take_append_drop (d.lineStart n) d.text
    rw [he] at hsplit hlen
    simp only [List.length_append, List.length_singleton] at hlen
    rw [← hsplit, Bytes.slice_append_left _ _ (by simp; omega)]
    have hs := Bytes.slice_append_right front [Bytes.newline] 0 1
    rw [show d.lineStart n - 1 = front.length + 0 by omega, show d.lineStart n = front.length + 1 by omega,
      hs]
    rfl

theorem rawLine_of_lt (d : Document) {n : Nat} (h : n + 1 < d.lineCount) :
    d.rawLine n = d.text.slice (d.lineStart n) (d.lineStop n) ++ [Bytes.newline] := by
  have hpos := d.lineStart_lt (Nat.lt_succ_self n) h
  have hnewline := d.slice_lineStart_newline h (Nat.succ_pos n)
  simp only [Nat.succ_eq_add_one] at hpos hnewline
  rw [rawLine, d.lineStop_of_lt h, ← hnewline,
    Bytes.slice_append_slice d.text (by omega) (Nat.sub_le _ _)]

theorem rawLine_of_last (d : Document) {n : Nat} (h : n + 1 = d.lineCount) :
    d.rawLine n = d.text.slice (d.lineStart n) (d.lineStop n) := by
  rw [rawLine, d.lineStop_of_last (Nat.le_of_eq h.symm), d.lineStart_of_ge (Nat.le_of_eq h.symm)]

theorem count_rawLine (d : Document) {n : Nat} (h : n < d.lineCount) :
    (d.text.slice (d.lineStart n) (d.lineStop n)).count Bytes.newline = 0 := by
  have hfront := d.count_take_lineStart h
  have hsplit := Bytes.slice_append_slice d.text (Nat.zero_le (d.lineStart n))
    (d.lineStart_mono (Nat.le_succ n))
  have htake (k : Nat) : d.text.slice 0 k = d.text.take k := rfl
  rw [htake, htake] at hsplit
  by_cases hlast : n + 1 < d.lineCount
  · have hcount := congrArg (List.count Bytes.newline) hsplit
    rw [List.count_append, hfront, d.count_take_lineStart hlast] at hcount
    have hraw := d.rawLine_of_lt hlast
    rw [rawLine] at hraw
    rw [Nat.succ_eq_add_one, hraw, List.count_append, List.count_singleton_self] at hcount
    omega
  · have hcount := congrArg (List.count Bytes.newline) hsplit
    have hend : d.lineStart (n + 1 : Nat) = d.text.length := d.lineStart_of_ge (by omega)
    rw [List.count_append, hfront, Nat.succ_eq_add_one, hend, List.take_length] at hcount
    have htotal := d.lineCount_eq
    rw [d.lineStop_of_last (by omega), length]
    omega

theorem newline_notMem_slice (d : Document) {n : Nat} (h : n < d.lineCount) :
    Bytes.newline ∉ d.text.slice (d.lineStart n) (d.lineStop n) :=
  List.count_eq_zero.mp (d.count_rawLine h)

theorem lineText_rawLine (d : Document) {n : Nat} (h : n < d.lineCount) :
    Bytes.lineText (d.rawLine n) = d.line n := by
  have hstop : d.lineStop n ≤ d.length :=
    Nat.le_trans (d.lineStop_le_lineStart_succ n) (d.lineStart_le_length _)
  have hnewline : Bytes.lineText (d.rawLine n)
      = Bytes.dropEnd Bytes.carriageReturn (d.text.slice (d.lineStart n) (d.lineStop n)) := by
    by_cases hlast : n + 1 < d.lineCount
    · rw [d.rawLine_of_lt hlast, Bytes.lineText, Bytes.dropEnd_append]
    · rw [d.rawLine_of_last (by omega), Bytes.lineText, Bytes.dropEnd_of_notMem (d.newline_notMem_slice h)]
  rw [hnewline, Bytes.dropEnd_slice _ _ (d.lineStart_le_lineStop n) hstop, d.line_nat h, lineEnd_nat]

theorem drop_lineText (d : Document) {n : Nat} (h : n < d.lineCount) :
    (d.rawLine n).drop (d.rawLine n).lineText.length
      = d.text.slice (d.lineEnd n) (d.lineStart (n + 1 : Nat)) := by
  have hsplit := Bytes.slice_append_slice d.text (d.lineStart_le_lineEnd n)
    (d.lineEnd_le_lineStart (Nat.lt_succ_self n))
  rw [d.lineText_rawLine h, d.line_nat h, rawLine, ← hsplit, List.drop_left]

theorem rawLines_drop (d : Document) (count first : Nat) (h : first + (count + 1) = d.lineCount) :
    Bytes.rawLines (d.text.drop (d.lineStart first))
      = (List.range' first (count + 1)).map d.rawLine := by
  have hdrop {n : Nat} : d.text.drop (d.lineStart n)
      = d.rawLine n ++ d.text.drop (d.lineStart (n + 1 : Nat)) := by
    have hd : d.text.drop (d.lineStart (n + 1 : Nat))
        = (d.text.drop (d.lineStart n)).drop (d.lineStart (n + 1 : Nat) - d.lineStart n) := by
      rw [List.drop_drop, Nat.add_sub_of_le (d.lineStart_mono (Nat.le_succ n))]
    rw [hd, rawLine, Bytes.slice, List.take_append_drop]
  induction count generalizing first with
  | zero =>
    have hend : d.text.drop (d.lineStart (first + 1 : Nat)) = [] := by
      rw [d.lineStart_of_ge (by omega)]
      exact List.drop_eq_nil_of_le (Nat.le_refl _)
    have hline : d.rawLine first = d.text.slice (d.lineStart first) (d.lineStop first) :=
      d.rawLine_of_last (by omega)
    have hm := d.newline_notMem_slice (n := first) (by omega)
    rw [hdrop, hend, List.append_nil, Bytes.rawLines_of_notMem (hline ▸ hm)]
    rfl
  | succ count ih =>
    have hm := d.newline_notMem_slice (n := first) (by omega)
    have hnext := ih (first + 1) (by omega)
    rw [hdrop, d.rawLine_of_lt (by omega), List.append_assoc, List.singleton_append,
      Bytes.rawLines_line hm, hnext, ← d.rawLine_of_lt (by omega)]
    rfl

theorem rawLines_drop_cons (d : Document) {n : Nat} (h : n < d.lineCount) :
    Bytes.rawLines (d.text.drop (d.lineStart n))
      = d.rawLine n :: (List.range' (n + 1) (d.lineCount - (n + 1))).map d.rawLine := by
  have hdrop := d.rawLines_drop (d.lineCount - (n + 1)) n (by omega)
  rwa [List.range'_succ, List.map_cons] at hdrop

theorem rawLines_text (d : Document) :
    Bytes.rawLines d.text = (List.range' 0 d.lineCount).map d.rawLine := by
  have hcount := d.lineCount_eq
  have h := d.rawLines_drop (d.lineCount - 1) 0 (by omega)
  rwa [show d.lineCount - 1 + 1 = d.lineCount by omega] at h

def linesBefore (d : Document) (n : Nat) : List Bytes := (List.range' 0 n).map d.rawLine

theorem linesBefore_succ (d : Document) (n : Nat) :
    d.linesBefore (n + 1) = d.linesBefore n ++ [d.rawLine n] := by
  simp [linesBefore, List.range'_concat]

theorem linesBefore_add (d : Document) (m n : Nat) :
    d.linesBefore (m + n) = d.linesBefore m ++ (List.range' m n).map d.rawLine := by
  have h := List.range'_append_1 (s := 0) (m := m) (n := n)
  rw [Nat.zero_add] at h
  rw [linesBefore, linesBefore, ← h, List.map_append]

theorem flatten_rawLines (d : Document) (count first : Nat) :
    ((List.range' first count).map d.rawLine).flatten
      = d.text.slice (d.lineStart first) (d.lineStart (first + count : Nat)) := by
  induction count generalizing first with
  | zero => simp [Bytes.slice]
  | succ count ih =>
    rw [List.range'_succ, List.map_cons, List.flatten_cons, ih, rawLine,
      Bytes.slice_append_slice d.text (d.lineStart_mono (Nat.le_succ first))
        (d.lineStart_mono (Nat.le_add_right _ _)), Nat.succ_add, Nat.add_succ]

theorem length_linesBefore (d : Document) (n : Nat) :
    (d.linesBefore n).flatten.length = d.lineStart n := by
  rw [linesBefore, flatten_rawLines, Nat.zero_add, Bytes.length_slice _ _ (d.lineStart_le_length n)]
  exact Nat.sub_zero _

theorem rawLines_take_append (d : Document) {n : Nat} (h : n < d.lineCount) (bs : Bytes) :
    Bytes.rawLines (d.text.take (d.lineStart n) ++ bs) = d.linesBefore n ++ Bytes.rawLines bs := by
  obtain ⟨ls, _, hls⟩ := (d.endsLine_take_lineStart h).rawLines_append
  have hall := hls (d.text.drop (d.lineStart n))
  have hrest := d.rawLines_drop (d.lineCount - n - 1) n (by omega)
  have hadd := d.linesBefore_add n (d.lineCount - n)
  rw [List.take_append_drop, d.rawLines_text, hrest, show d.lineCount - n - 1 + 1 = d.lineCount - n by omega]
    at hall
  rw [show n + (d.lineCount - n) = d.lineCount by omega, linesBefore, hall] at hadd
  rw [hls bs, List.append_cancel_right hadd]

theorem take_lineStart_append_line (d : Document) {n : Nat} (h : n < d.lineCount) :
    d.text.take (d.lineStart n) ++ d.line n = d.text.take (d.lineEnd n) := by
  have hsplit := Bytes.slice_append_slice d.text (Nat.zero_le (d.lineStart n)) (d.lineStart_le_lineEnd n)
  rw [d.line_nat h]
  exact hsplit

theorem newline_notMem_line (d : Document) {n : Nat} (h : n < d.lineCount) :
    Bytes.newline ∉ d.line n := by
  have hsplit := Bytes.slice_append_slice d.text (d.lineStart_le_lineEnd n) (d.lineEnd_le_lineStop n)
  have hstop := d.newline_notMem_slice h
  rw [← hsplit, ← d.line_nat h] at hstop
  exact fun hm => hstop (List.mem_append_left _ hm)

theorem map_line (d : Document) {first count : Nat} (h : first + count ≤ d.lineCount) :
    ((List.range' first count).map d.rawLine).map Bytes.lineText
      = (List.range' first count).map fun n : Nat => d.line n := by
  rw [List.map_map]
  refine List.map_congr_left fun n hn => d.lineText_rawLine ?_
  have hlt := (List.mem_range'_1.mp hn).2
  omega

section Insert

variable {d e : Document} {m : Nat} {line : Bytes} (hm : m < d.lineCount) (hline : Bytes.newline ∉ line)
  (he : e.text = d.text.take (d.lineStart m) ++ (line ++ Bytes.newline :: d.text.drop (d.lineStart m)))

include hm hline he

theorem map_line_insert : (List.range' 0 e.lineCount).map (fun n : Nat => e.line n)
    = (List.range' 0 m).map (fun n : Nat => d.line n) ++ Bytes.dropEnd Bytes.carriageReturn line
      :: (List.range' m (d.lineCount - m)).map (fun n : Nat => d.line n) := by
  have hrest := d.rawLines_drop (d.lineCount - m - 1) m (by omega)
  rw [show d.lineCount - m - 1 + 1 = d.lineCount - m by omega] at hrest
  rw [← e.map_line (by omega), ← e.rawLines_text, he, d.rawLines_take_append hm, Bytes.rawLines_line hline,
    hrest, List.map_append, List.map_cons, d.map_line (by omega), linesBefore, d.map_line (by omega),
    Bytes.lineText, Bytes.dropEnd_append]

theorem lineCount_insert : e.lineCount = d.lineCount + 1 := by
  have hlength := congrArg List.length (map_line_insert hm hline he)
  simp only [List.length_append, List.length_cons, List.length_map, List.length_range'] at hlength
  omega

theorem getElem?_insert {n : Nat} (hn : n ≤ d.lineCount) : some (e.line n)
    = ((List.range' 0 m).map (fun n : Nat => d.line n) ++ Bytes.dropEnd Bytes.carriageReturn line
      :: (List.range' m (d.lineCount - m)).map (fun n : Nat => d.line n))[n]? := by
  have hcount := lineCount_insert hm hline he
  rw [← map_line_insert hm hline he, List.getElem?_map, List.getElem?_range' (by omega)]
  simp

theorem line_above {n : Nat} (hn : n < m) : e.line n = d.line n := by
  have h := getElem?_insert hm hline he (n := n) (by omega)
  rw [List.getElem?_append_left (by simpa using hn), List.getElem?_map, List.getElem?_range' hn] at h
  simpa using h

theorem line_inserted : e.line m = Bytes.dropEnd Bytes.carriageReturn line := by
  have h := getElem?_insert hm hline he (n := m) (by omega)
  rw [List.getElem?_append_right (by simp)] at h
  simpa using h

theorem line_below {n : Nat} (hle : m ≤ n) (hn : n < d.lineCount) : e.line (n + 1 : Nat) = d.line n := by
  have h := getElem?_insert hm hline he (n := n + 1) hn
  have hindex : n + 1 - m = n - m + 1 := by omega
  rw [List.getElem?_append_right (by simp; omega), List.length_map, List.length_range', hindex,
    List.getElem?_cons_succ, List.getElem?_map, List.getElem?_range' (by omega)] at h
  simpa [Nat.add_sub_of_le hle] using h

end Insert

end Document

end HostScript
