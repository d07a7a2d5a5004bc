import HostScript.Proofs.Document.Joined

/-!
A text that moves. When a document holds the text of another one behind a text that ends a line,
offsets move by the length of what stands before, and lines by the number of its newlines. The
characters of positions stay as they are.
-/

set_option autoImplicit false

namespace HostScript

structure Shift where
  bytes : Nat
  lines : Nat

/-- How far a text moves that is put behind another one. -/
def Shift.past (front : Bytes) : Shift := ⟨front.length, front.count Bytes.newline⟩

def Position.moved (p : Position) (s : Shift) : Position := ⟨s.lines + p.line, p.character⟩

theorem Position.less_moved (p q : Position) (s : Shift) : (p.moved s).less (q.moved s) = p.less q := by
  rw [Bool.eq_iff_iff, less_iff, less_iff]
  simp only [moved]
  omega

def Range.moved (r : Range) (s : Shift) : Range := ⟨r.start.moved s, r.stop.moved s⟩

namespace Document

/-- The text of a document stands at the end of another one, behind a text that ends a line. -/
structure Follows (d e : Document) (s : Shift) : Prop where
  uri : d.uri = e.uri
  text : ∃ front : Bytes, d.text = front ++ e.text ∧ front.EndsLine ∧ s = .past front

namespace Follows

variable {d e : Document} {s : Shift} (h : d.Follows e s)

include h

theorem length : d.length = s.bytes + e.length := by
  obtain ⟨front, hd, _, rfl⟩ := h.text
  exact length_back hd

theorem lineCount : d.lineCount = s.lines + e.lineCount := by
  obtain ⟨front, hd, _, rfl⟩ := h.text
  exact lineCount_back hd

theorem slice (start stop : Nat) :
    d.text.slice (s.bytes + start) (s.bytes + stop) = e.text.slice start stop := by
  obtain ⟨front, hd, _, rfl⟩ := h.text
  rw [hd]
  exact Bytes.slice_append_right front e.text start stop

theorem lineStart (n : Nat) : d.lineStart (s.lines + n : Nat) = s.bytes + e.lineStart n := by
  obtain ⟨front, hd, hf, rfl⟩ := h.text
  exact lineStart_back hd hf n

theorem lineEnd (n : Nat) : d.lineEnd (s.lines + n : Nat) = s.bytes + e.lineEnd n := by
  obtain ⟨front, hd, hf, rfl⟩ := h.text
  exact lineEnd_back hd hf n

theorem line {n : Nat} (hn : n < e.lineCount) : d.line (s.lines + n : Nat) = e.line n := by
  obtain ⟨front, hd, hf, rfl⟩ := h.text
  exact line_back hd hf hn

theorem lineAt {o : Int} (ho : 0 ≤ o) : d.lineAt (s.bytes + o) = s.lines + e.lineAt o := by
  obtain ⟨front, hd, _, rfl⟩ := h.text
  obtain ⟨o, rfl⟩ := Int.eq_ofNat_of_zero_le ho
  exact lineAt_back hd o

theorem positionAt {o : Int} (ho : 0 ≤ o) :
    d.positionAt (s.bytes + o) = (e.positionAt o).moved s := by
  obtain ⟨front, hd, hf, rfl⟩ := h.text
  obtain ⟨o, rfl⟩ := Int.eq_ofNat_of_zero_le ho
  exact positionAt_back hd hf o

theorem range {a b : Int} (ha : 0 ≤ a) (hb : 0 ≤ b) :
    d.range (s.bytes + a) (s.bytes + b) = (e.range a b).moved s := by
  rw [Document.range, Document.range, h.positionAt ha, h.positionAt hb, Range.moved]

theorem range_nat (a b : Nat) :
    d.range (s.bytes + a : Nat) (s.bytes + b : Nat) = (e.range a b).moved s := by
  rw [Int.natCast_add, Int.natCast_add]
  exact h.range (Int.natCast_nonneg a) (Int.natCast_nonneg b)

end Follows

end Document

end HostScript
