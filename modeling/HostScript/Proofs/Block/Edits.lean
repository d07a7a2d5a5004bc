import HostScript.Proofs.Block.Content
import HostScript.Proofs.Document.Positions
import HostScript.Server.QuickFix

set_option autoImplicit false

namespace HostScript

/-- The offset of a position. A character behind the end of its line counts as that end. -/
def Document.offsetNear (d : Document) (p : Position) : Nat := (d.offsetAt p).getD (d.lineEnd p.line)

def TextEdit.apply (edit : TextEdit) (d : Document) : Document :=
  .ofText d.uri (d.text.take (d.offsetNear edit.range.start) ++ edit.text
    ++ d.text.drop (d.offsetNear edit.range.stop))

namespace Document

theorem offsetNear_lineStart (d : Document) {n : Nat} (h : n < d.lineCount) :
    d.offsetNear ⟨n, 0⟩ = d.lineStart n := by
  rw [offsetNear, d.offsetAt_lineStart h]
  rfl

theorem offsetNear_length (d : Document) :
    d.offsetNear (d.positionAt d.length) = d.lineEnd d.lastLine := by
  rw [offsetNear, offsetAt_length, lineEnd_lastLine, positionAt_length]
  split
  · rename_i h
    simp only [Option.getD_none, lineEnd_lastLine, h, if_true]
  · rfl

theorem startsLine_lineStart (d : Document) {n : Nat} (h : n < d.lineCount) :
    QuickFix.startsLine d (d.lineStart n) = true := by
  unfold QuickFix.startsLine
  by_cases hn : n = 0
  · subst hn
    simp [lineStart]
  · have hnewline := d.slice_lineStart_newline h (Nat.pos_of_ne_zero hn)
    have hpos : d.lineStart (0 : Nat) < d.lineStart n := d.lineStart_lt (Nat.pos_of_ne_zero hn) h
    have hget : d.text[d.lineStart n - 1]? = some Bytes.newline := by
      have hhead := congrArg List.head? hnewline
      rw [Bytes.slice, List.head?_take, List.head?_drop] at hhead
      simpa [show d.lineStart n - (d.lineStart n - 1) ≠ 0 by omega] using hhead
    simp [hget]

/-- The end of the text does not begin a line, if the last line has text. -/
theorem startsLine_length (d : Document) (h : d.lineStart d.lastLine < d.length) :
    QuickFix.startsLine d d.length = false := by
  have hmem := d.newline_notMem_slice d.lastLine_lt
  rw [lineStop_lastLine] at hmem
  have hget : d.text[d.length - 1]? ≠ some Bytes.newline := by
    intro hget
    refine hmem (List.mem_of_getElem? (i := d.length - 1 - d.lineStart d.lastLine) ?_)
    rw [Bytes.slice, List.getElem?_take_of_lt (by omega), List.getElem?_drop,
      show d.lineStart d.lastLine + (d.length - 1 - d.lineStart d.lastLine) = d.length - 1 by omega, hget]
  have hpos : d.length ≠ 0 := by omega
  simp [QuickFix.startsLine, hpos, hget]

end Document

namespace Document

theorem rawLines_drop_lineEnd (d : Document) :
    Bytes.rawLines (d.text.drop (d.lineEnd d.lastLine)) = [d.text.drop (d.lineEnd d.lastLine)] ∧
      Block.senseOf (Bytes.lineText (d.text.drop (d.lineEnd d.lastLine))) = .other := by
  rw [lineEnd_lastLine]
  split
  · rename_i h
    obtain ⟨front, hfront⟩ := List.getLast?_eq_some_iff.mp h
    have hdrop : d.text.drop (d.length - 1) = [Bytes.carriageReturn] := by
      rw [length, hfront, List.length_append, List.length_singleton, Nat.add_sub_cancel, List.drop_left]
    rw [hdrop]
    decide
  · have hdrop : d.text.drop d.length = [] := List.drop_eq_nil_of_le (Nat.le_refl _)
    rw [hdrop]
    decide

end Document

namespace Block

def terminatorLine : Bytes := utf8 (terminatorKeyword ++ "\n")

theorem senseOf_terminatorLine : senseOf terminatorLine.lineText = .terminator := by decide

theorem rawLines_terminatorLine (rest : Bytes) :
    Bytes.rawLines (terminatorLine ++ rest) = terminatorLine :: rest.rawLines := by
  have hline : terminatorLine = utf8 terminatorKeyword ++ [Bytes.newline] := by decide
  rw [hline, List.append_assoc, List.singleton_append,
    Bytes.rawLines_line (show Bytes.newline ∉ utf8 terminatorKeyword by decide)]

theorem passAll_header {raw : Bytes} {header : Header} (h : senseOf raw.lineText = .header header)
    (offset : Nat) (rest : List Bytes) (current : Option Begun) :
    passAll offset (raw :: rest) current
      = (current.map (·.finish false)).toList ++ passAll offset (raw :: rest) none := by
  simp [passAll_cons, passLine_header _ _ h]

theorem passAll_terminator {raw : Bytes} (h : senseOf raw.lineText = .terminator) (offset : Nat)
    (rest : List Bytes) (current : Option Begun) :
    passAll offset (raw :: rest) current
      = (current.map (·.finish true)).toList ++ passAll (offset + raw.length) rest none := by
  simp [passAll_cons, passLine_terminator _ _ h]

theorem passAll_singleton_other {raw : Bytes} (h : senseOf raw.lineText = .other) (offset : Nat) :
    passAll offset [raw] none = [] := by
  simp [passAll, pass, passLine_other _ _ h]

/-- Two blocks that have begun alike at the same place. -/
def Begun.Like (a b : Begun) : Prop := a.start = b.start ∧ a.header = b.header

theorem passLine_like {raw raw' : Bytes} (h : senseOf raw.lineText = senseOf raw'.lineText)
    (offset : Nat) (current : Option Begun) :
    (passLine offset raw current).1 = (passLine offset raw' current).1 ∧
      Option.Rel Begun.Like (passLine offset raw current).2 (passLine offset raw' current).2 := by
  unfold passLine
  rw [h]
  cases senseOf raw'.lineText with
  | header header => exact ⟨rfl, .some ⟨rfl, rfl⟩⟩
  | terminator => exact ⟨rfl, .none⟩
  | other =>
    cases current with
    | none => exact ⟨rfl, .none⟩
    | some b => exact ⟨rfl, .some ⟨rfl, rfl⟩⟩

/-- Two documents hold the same blocks but for one, which is terminated in the second document. The
terminated block begins at the same place with the same header. -/
def Mends (d e : Document) (s : Block) : Prop :=
  ∃ pre post pre' t post', scan d = pre ++ s :: post ∧ scan e = pre' ++ t :: post' ∧
    t.start = s.start ∧ t.header = s.header ∧ t.terminated = true ∧
    pre'.map (content e) = pre.map (content d) ∧ post'.map (content e) = post.map (content d)

theorem exists_blocks_of_placed {d e : Document} {front : List Placed} {p q : Placed} {back back' : List Placed}
    (hd : (scan d).map (placed d) = front ++ p :: back) (he : (scan e).map (placed e) = front ++ q :: back')
    (hb : back'.map (·.content) = back.map (·.content)) :
    ∃ pre s post pre' t post', scan d = pre ++ s :: post ∧ placed d s = p ∧ scan e = pre' ++ t :: post' ∧
      placed e t = q ∧ pre'.map (content e) = pre.map (content d) ∧
      post'.map (content e) = post.map (content d) := by
  obtain ⟨pre, rest, hsplit, hpre, hrest⟩ := List.map_eq_append_iff.mp hd
  obtain ⟨s, post, rfl, hs, rfl⟩ := List.map_eq_cons_iff.mp hrest
  obtain ⟨pre', rest', hsplit', hpre', hrest'⟩ := List.map_eq_append_iff.mp he
  obtain ⟨t, post', rfl, ht, rfl⟩ := List.map_eq_cons_iff.mp hrest'
  have hcontent := congrArg (List.map Placed.content) (hpre'.trans hpre.symm)
  rw [List.map_map, List.map_map] at hcontent hb
  exact ⟨pre, s, post, pre', t, post', hsplit, hs, hsplit', ht, hcontent, hb⟩

theorem mends_of_placed {d e : Document} {s : Block} (hs : s ∈ scan d) {front : List Placed}
    {p q : Placed} {back back' : List Placed} (hd : (scan d).map (placed d) = front ++ p :: back)
    (he : (scan e).map (placed e) = front ++ q :: back') (hp : p.start = s.start)
    (hq : q.start = p.start) (hh : q.content.header = p.content.header)
    (ht : q.content.terminated = true)
    (hb : back'.map (·.content) = back.map (·.content)) : Mends d e s := by
  obtain ⟨pre, s', post, pre', t, post', hsplit, rfl, hsplit', rfl, hpre, hpost⟩ :=
    exists_blocks_of_placed hd he hb
  obtain rfl : s' = s := eq_of_start_eq (by simp [hsplit]) hs hp
  exact ⟨pre, post, pre', t, post', hsplit, hsplit', hq, hh, ht, hpre, hpost⟩

end Block

end HostScript
