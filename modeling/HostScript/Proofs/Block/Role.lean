import HostScript.Proofs.Block.Layout
import HostScript.Proofs.Document.Window

/-!
The role of a line. It is told by what stands before the first byte that no keyword has, so a carriage
return at the end of the line does not change it, except that the last field of a header has it too.
-/

set_option autoImplicit false

namespace HostScript

namespace Bytes

/-- A character of one byte that is no part of a keyword or of the blanks before one, nor of a word. -/
structure IsBreak (b : UInt8) : Prop where
  ascii : b < 0x80
  visible : b ≠ blank ∧ b ≠ tab
  notMem_keyword : ∀ kind : BlockKind, b ∉ utf8 kind.keyword
  notMem_terminator : b ∉ utf8 terminatorKeyword
  not_word : isWord (Char.ofNat b.toNat) = false

theorem isBreak_return : IsBreak carriageReturn :=
  ⟨by decide, by decide, fun kind => by cases kind <;> decide, by decide, by decide⟩

def dot : UInt8 := 46

theorem isBreak_dot : IsBreak dot :=
  ⟨by decide, by decide, fun kind => by cases kind <;> decide, by decide, by decide⟩

variable {b : UInt8} (bs rest : Bytes)

theorem dropIndent_append (h : IsBreak b) : dropIndent (bs ++ b :: rest) = dropIndent bs ++ b :: rest := by
  unfold dropIndent
  rw [List.dropWhile_append]
  split
  · rename_i he
    rw [List.isEmpty_iff.mp he]
    exact List.dropWhile_cons_of_neg (by simp [h.visible])
  · rfl

theorem after?_append {head : Bytes} (h : b ∉ head) :
    after? (bs ++ b :: rest) head = (bs.after? head).map (· ++ b :: rest) := by
  cases hb : bs.after? head with
  | some tail =>
    rw [after?_eq_some.mp hb, List.append_assoc]
    exact after?_eq_some.mpr rfl
  | none =>
    refine after?_eq_none.mpr ?_
    rintro ⟨tail, ht⟩
    -- The head would end within the text, or reach over the byte.
    rcases List.append_eq_append_iff.mp ht with ⟨more, rfl, -⟩ | ⟨more, rfl, hmore⟩
    · exact after?_eq_none.mp hb (List.prefix_append _ _)
    · cases more with
      | nil => exact after?_eq_none.mp hb (by simp)
      | cons c more =>
        obtain ⟨rfl, -⟩ := List.cons.inj hmore
        exact h (by simp)

theorem head?_append (h : b < 0x80) :
    head? (bs ++ b :: rest) = some ((head? bs).getD ⟨Char.ofNat b.toNat, [b]⟩) := by
  cases bs with
  | nil =>
    have hrunes := runes_cons_ascii h rest
    rw [runes_cons] at hrunes
    exact congrArg some (List.cons.inj hrunes).1
  | cons c bs => simp [head?, headRune_append_ascii h]

end Bytes

theorem isTerminator_append {b : UInt8} (h : Bytes.IsBreak b) (text rest : Bytes) :
    isTerminator (text ++ b :: rest) = isTerminator text := by
  simp only [isTerminator, Bytes.after?_append text rest h.notMem_terminator]
  cases text.after? (utf8 terminatorKeyword) with
  | none => rfl
  | some tail =>
    simp only [Option.map_some, Bytes.head?_append tail rest h.ascii]
    cases Bytes.head? tail <;> simp [h.not_word]

def LineRole.append : LineRole → Bytes → LineRole
  | .header kind fields, rest => .header kind (fields ++ rest)
  | role, _ => role

theorem lineRole_append {b : UInt8} (h : Bytes.IsBreak b) (line rest : Bytes) :
    lineRole (line ++ b :: rest) = (lineRole line).append (b :: rest) := by
  simp only [lineRole, Bytes.dropIndent_append _ _ h, Bytes.after?_append _ _ (h.notMem_keyword _),
    isTerminator_append h]
  cases line.dropIndent.after? (utf8 BlockKind.insertion.keyword) with
  | some fields => rfl
  | none =>
    cases line.dropIndent.after? (utf8 BlockKind.script.keyword) with
    | some fields => rfl
    | none => cases isTerminator line.dropIndent <;> rfl

theorem lineRole_append_return (line : Bytes) :
    lineRole (line ++ [Bytes.carriageReturn]) = (lineRole line).append [Bytes.carriageReturn] :=
  lineRole_append Bytes.isBreak_return line []

namespace Document

theorem slice_lineStop (d : Document) {n : Nat} (hn : n < d.lineCount) :
    d.text.slice (d.lineStart n) (d.lineStop n) = d.line n ∨
      d.text.slice (d.lineStart n) (d.lineStop n) = d.line n ++ [Bytes.carriageReturn] := by
  rw [d.line_nat hn, lineEnd_nat]
  split
  · rename_i h
    obtain ⟨hlt, hr⟩ := h
    right
    have hl : d.lineStop n - d.lineStart n = (d.lineStop n - 1 - d.lineStart n) + 1 := by omega
    have hi : d.lineStart n + (d.lineStop n - 1 - d.lineStart n) = d.lineStop n - 1 := by omega
    rw [Bytes.slice, Bytes.slice, hl, List.take_add_one, List.getElem?_drop, hi, hr]
    rfl
  · exact Or.inl rfl

theorem lineRole_slice_lineStop (d : Document) {n : Nat} (hn : n < d.lineCount) :
    lineRole (d.text.slice (d.lineStart n) (d.lineStop n)) = .terminator ↔
      lineRole (d.line n) = .terminator := by
  cases d.slice_lineStop hn with
  | inl h => rw [h]
  | inr h =>
    rw [h, lineRole_append_return]
    cases lineRole (d.line n) <;> simp [LineRole.append]

end Document

end HostScript
