import HostScript.Proofs.Cursor.Words

set_option autoImplicit false

namespace HostScript

namespace Cursor

variable {text front seen raw : Bytes} {offset : Nat} {c : Cursor}

/-- The token under an offset. A colon on the way back makes it a user function, and without one a dot at
the end of the way makes it a parser function. Any other token is an include if it is the keyword and digits
follow somewhere, or if it is a number behind the keyword; else it is a variable. -/
inductive Classified (text : Bytes) (offset : Nat) : Cursor → Prop where
  | userFunction {front seen raw : Bytes} (found : Found text offset front seen raw) (passed : colon ∈ seen) :
      Classified text offset (taken text offset .userFunction front.length raw)
  | parserFunction {before seen raw space : Bytes} (found : Found text offset (before ++ [dot]) seen raw)
      (passed : colon ∉ seen) (word : IsLastWord before space) :
      Classified text offset { taken text offset .parserFunction (before.length + 1) raw with space }
  | number {front seen gap digits rest : Bytes} (found : Found text offset front seen (utf8 includeKeyword))
      (plain : Plain front seen) (first : FirstDigits text offset gap digits rest) :
      Classified text offset (taken text offset .includeScript (offset + gap.length) digits)
  | noNumber {front seen : Bytes} (found : Found text offset front seen (utf8 includeKeyword))
      (plain : Plain front seen) (none : ∀ b ∈ text.drop offset, Bytes.isDigit b = false) :
      Classified text offset (taken text offset .error front.length (utf8 includeKeyword))
  | behindKeyword {front seen raw : Bytes} (found : Found text offset front seen raw)
      (plain : Plain front seen) (digits : raw.isDigits = true) (keyword : EndsWithInclude front) :
      Classified text offset (taken text offset .includeScript front.length raw)
  | other {front seen raw : Bytes} (found : Found text offset front seen raw) (plain : Plain front seen)
      (keyword : raw ≠ utf8 includeKeyword) (number : ¬ (raw.isDigits = true ∧ EndsWithInclude front)) :
      Classified text offset (taken text offset .variable front.length raw)

/-- A piece of a text between two runes. -/
structure IsPiece (text : Bytes) (c : Cursor) : Prop where
  start_le : c.start ≤ c.stop
  stop_le : c.stop ≤ text.length
  text_eq : c.text = text.slice c.start c.stop
  start_boundary : text.IsBoundary c.start
  stop_boundary : text.IsBoundary c.stop

theorem Found.followsInclude_eq_true (h : Found text offset front seen raw) :
    followsInclude text front.length = true ↔ EndsWithInclude front := by
  obtain ⟨rest, hrest⟩ := h.text_eq
  rw [hrest]
  exact Cursor.followsInclude_eq_true

theorem ne_keyword_of_isDigits (h : raw.isDigits = true) : raw ≠ utf8 includeKeyword := by
  rintro rfl
  revert h
  decide

theorem Classified.atOffset (h : Classified text offset c) (hle : offset ≤ text.length) :
    atOffset text offset = c := by
  cases h with
  | userFunction found passed => rw [found.atOffset hle, if_pos (List.contains_iff_mem.mpr passed)]
  | @parserFunction before seen raw space found passed word =>
    obtain ⟨rest, hrest⟩ := found.text_eq
    have hlen : (before ++ [dot]).length = before.length + 1 := List.length_append
    have hspace : wordBefore text before.length = space := by
      rw [hrest, List.append_assoc]
      exact word.wordBefore
    rw [found.atOffset hle, if_neg (by simpa using passed), if_pos (by simp), hlen, Nat.add_sub_cancel, hspace]
  | @number front seen gap digits rest found plain first =>
    have hslice : text.slice (offset + gap.length) (offset + gap.length + digits.length) = digits := by
      obtain ⟨front, hlen, htext⟩ := first.text_eq
      rw [← hlen, htext, Bytes.slice_append]
    rw [found.atOffset_plain plain hle, plainAt, if_pos (beq_self_eq_true _), first.nextDigits?]
    simp only [hslice]
    rfl
  | noNumber found plain none =>
    obtain ⟨-, hnone⟩ | ⟨gap, digits, rest, first⟩ := nextDigits?_cases text offset
    · rw [found.atOffset_plain plain hle, plainAt, if_pos (beq_self_eq_true _), hnone]
    · obtain ⟨d, more, rfl⟩ := List.exists_cons_of_ne_nil first.nonempty
      have hno := none d (by simp [first.split])
      rw [first.run.all d List.mem_cons_self] at hno
      cases hno
  | behindKeyword found plain digits keyword =>
    have hother := ne_keyword_of_isDigits digits
    rw [found.atOffset_plain plain hle, plainAt, if_neg (by simpa using hother),
      if_pos (by rw [digits, found.followsInclude_eq_true.mpr keyword, Bool.and_self])]
  | other found plain keyword number =>
    rw [found.atOffset_plain plain hle, plainAt, if_neg (by simpa using keyword),
      if_neg (by rwa [Bool.and_eq_true, found.followsInclude_eq_true])]

/-- Of the tokens a text can have under an offset, the cursor takes one. -/
theorem classified_atOffset (hle : offset ≤ text.length) : Classified text offset (atOffset text offset) := by
  have hcursor {c : Cursor} (h : Classified text offset c) : Classified text offset (atOffset text offset) :=
    (h.atOffset hle).symm ▸ h
  obtain ⟨front, seen, raw, found⟩ := exists_found text offset
  by_cases hcolon : colon ∈ seen
  · exact hcursor (.userFunction found hcolon)
  by_cases hdot : front.getLast? = some dot
  · obtain ⟨before, rfl⟩ := List.getLast?_eq_some_iff.mp hdot
    obtain ⟨space, word⟩ := exists_isLastWord before
    exact hcursor (.parserFunction found hcolon word)
  have plain : Plain front seen := ⟨hcolon, hdot⟩
  by_cases hkeyword : raw = utf8 includeKeyword
  · subst hkeyword
    obtain ⟨none, -⟩ | ⟨gap, digits, rest, first⟩ := nextDigits?_cases text offset
    · exact hcursor (.noNumber found plain none)
    · exact hcursor (.number found plain first)
  by_cases hnumber : raw.isDigits = true ∧ EndsWithInclude front
  · exact hcursor (.behindKeyword found plain hnumber.1 hnumber.2)
  · exact hcursor (.other found plain hkeyword hnumber)

theorem Found.isPiece (h : Found text offset front seen raw) (kind : CursorKind) :
    IsPiece text (taken text offset kind front.length raw) := by
  obtain ⟨rest, hrest⟩ := h.text_eq
  have hstop := h.toLooked.isBoundary.add h.token.isBoundary
  exact ⟨Nat.le_add_right _ _, hstop.le_length, by rw [hrest]; exact (Bytes.slice_append _ _ _).symm,
    h.toLooked.isBoundary, hstop⟩

/-- ASCII text is cut off between runes at both of its ends. -/
theorem isPiece_ascii {piece rest : Bytes} (hascii : ∀ b ∈ piece, b < 0x80) (hne : piece ≠ [])
    (kind : CursorKind) :
    IsPiece (front ++ (piece ++ rest)) (taken (front ++ (piece ++ rest)) offset kind front.length piece) := by
  have hstart : Bytes.IsBoundary (front ++ (piece ++ rest)) front.length := by
    obtain ⟨b, more, rfl⟩ := List.exists_cons_of_ne_nil hne
    refine Bytes.isBoundary_of_split (Bytes.runes_append_of_ascii front fun a ha => ?_)
    exact hascii a (Option.some.inj ha ▸ List.mem_cons_self)
  have hstop : Bytes.IsBoundary (front ++ (piece ++ rest)) (front.length + piece.length) := by
    rw [← List.append_assoc, ← List.length_append]
    refine Bytes.isBoundary_behind_ascii rest fun b hb => ?_
    rw [List.getLast?_append_of_ne_nil _ hne] at hb
    exact hascii b (List.mem_of_getLast? hb)
  exact ⟨Nat.le_add_right _ _, hstop.le_length, (Bytes.slice_append _ _ _).symm, hstart, hstop⟩

theorem Classified.isPiece (h : Classified text offset c) : IsPiece text c := by
  cases h with
  | userFunction found passed => exact found.isPiece .userFunction
  | parserFunction found passed word =>
    obtain ⟨hle, hstop, htext, hstart, hend⟩ := found.isPiece .parserFunction
    rw [List.length_append, List.length_singleton] at *
    exact ⟨hle, hstop, htext, hstart, hend⟩
  | @number front seen gap digits rest found plain first =>
    obtain ⟨front, hlen, htext⟩ := first.text_eq
    rw [← hlen, htext]
    exact isPiece_ascii (fun b hb => Bytes.ascii_of_isDigit (first.run.all b hb)) first.nonempty .includeScript
  | noNumber found plain none => exact found.isPiece .error
  | behindKeyword found plain digits keyword => exact found.isPiece .includeScript
  | other found plain keyword number => exact found.isPiece .variable

/-- From every offset of every text the cursor takes what the cuts around the offset make of it and nothing
else, and that is a piece of the text between two runes, also when the offset is not between two runes. -/
theorem atOffset_classified (hle : offset ≤ text.length) :
    (∀ c, atOffset text offset = c ↔ Classified text offset c) ∧ IsPiece text (atOffset text offset) := by
  have hclassified := classified_atOffset hle
  refine ⟨fun c => ⟨?_, fun h => h.atOffset hle⟩, hclassified.isPiece⟩
  rintro rfl
  exact hclassified

def dotted : Bytes := utf8 "(öb.üx)"

theorem atOffset_classified_dotted :
    let c : Cursor :=
      { kind := .parserFunction, text := utf8 "üx", atCursor := some replacement, space := utf8 "öb"
        start := 5, stop := 8 }
    6 ≤ dotted.length ∧ Classified dotted 6 c ∧ dotted.IsBoundary 5 ∧ dotted.IsBoundary 8 := by
  intro c
  have hlen : 6 ≤ dotted.length := by decide +kernel
  obtain ⟨hiff, hpiece⟩ := atOffset_classified hlen
  have hcursor : atOffset dotted 6 = c := by decide +kernel
  rw [Int.cast_ofNat_Int] at hpiece
  rw [hcursor] at hpiece
  exact ⟨hlen, (hiff c).mp hcursor, hpiece.start_boundary, hpiece.stop_boundary⟩

end Cursor

end HostScript
