import HostScript.Proofs.Cursor.Words
import HostScript.Server.Completion

/-!
What stands in front of an offset, as completion reads it. Completion goes back rune by rune and compares
whole words; the cursor decodes the text from its beginning and compares the end of it. They find the same
word, and the same keyword of an include.
-/

set_option autoImplicit false

namespace HostScript

namespace Completion

open Cursor (IsLastWord EndsWithInclude isGap)

variable {front word : Bytes}

/-- The way back over word characters ends in front of the first of them. -/
theorem wordStart_eq {text : Bytes} {before rs : List Rune} {offset fuel : Nat} (hle : offset ≤ text.length)
    (h : Bytes.runes (text.take offset) = before ++ rs) (hrun : IsLastRun (fun r => isWord r.char) before rs)
    (hfuel : rs.length ≤ fuel) : wordStart text fuel offset = offset - Rune.sizes rs := by
  induction fuel generalizing offset rs with
  | zero =>
    obtain rfl := List.eq_nil_of_length_eq_zero (Nat.le_zero.mp hfuel)
    rfl
  | succ fuel ih =>
    rw [wordStart, Bytes.last?_eq, h]
    obtain rfl | ⟨rs, r, rfl⟩ := List.eq_nil_or_concat rs
    · rw [List.append_nil]
      split
      · rename_i q hq
        rw [if_neg (by simp [hrun.ends q hq])]
        rfl
      · rfl
    · -- The runes in front of the last one are those of the text up to it.
      rw [List.concat_eq_append] at h hrun hfuel ⊢
      have hsizes : Rune.sizes (before ++ rs) + r.size = offset := by
        have hall := Bytes.sizes_runes (text.take offset)
        rw [h, List.length_take_of_le hle, ← List.append_assoc, Rune.sizes_append] at hall
        simpa [Rune.sizes] using hall
      have htake : Bytes.runes (text.take (offset - r.size)) = before ++ rs := by
        rw [← List.append_assoc] at h
        have hrunes := Bytes.runes_take h
        rwa [List.take_take, show min (Rune.sizes (before ++ rs)) offset = offset - r.size by omega] at hrunes
      have hr : isWord r.char = true := hrun.all r (by simp)
      have hrest : IsLastRun (fun r => isWord r.char) before rs :=
        ⟨fun q hq => hrun.all q (List.mem_append_left _ hq), hrun.ends⟩
      rw [← List.append_assoc, List.getLast?_concat]
      simp only [hr, if_true]
      rw [ih (by omega) htake hrest (by simpa using hfuel), Rune.sizes_append, Nat.sub_sub, Nat.add_comm]
      rfl

theorem wordEndingAt_append (h : IsLastWord front word) (rest : Bytes) :
    wordEndingAt (front ++ rest) front.length = word := by
  obtain ⟨before, rs, hsplit, hrun, rfl⟩ := h
  have hfront : front = Rune.join before ++ Rune.join rs := by
    rw [← Bytes.join_runes front, hsplit, Rune.join_append]
  have hlen : front.length = (Rune.join before).length + Rune.sizes rs := by
    rw [hfront, List.length_append, Rune.length_join rs]
  have hfuel : rs.length ≤ front.length := by
    have hpos : ∀ r ∈ rs, 0 < r.size := fun r hr =>
      Bytes.size_pos_of_mem_runes (hsplit ▸ List.mem_append_right before hr)
    have hle := Rune.length_le_sizes hpos
    omega
  have htake : Bytes.runes ((front ++ rest).take front.length) = before ++ rs := by rw [List.take_left, hsplit]
  have hstart : wordStart (front ++ rest) front.length front.length = (Rune.join before).length := by
    rw [wordStart_eq (by simp) htake hrun hfuel]
    omega
  rw [wordEndingAt, hstart, hlen, hfront, List.append_assoc, ← Rune.length_join, Bytes.slice_append]

theorem wordEndingAt_eq_iff : wordEndingAt front front.length = word ↔ IsLastWord front word := by
  have hends {word : Bytes} (h : IsLastWord front word) : wordEndingAt front front.length = word := by
    simpa using wordEndingAt_append h []
  refine ⟨?_, hends⟩
  rintro rfl
  obtain ⟨word, hword⟩ := Cursor.exists_isLastWord front
  rwa [hends hword]

/-- A word at the end of a text is the whole last word if no word character stands in front of it. -/
theorem isLastWord_append_iff (hw : word.IsAsciiWord) :
    IsLastWord (front ++ word) word ↔ ∀ r ∈ front.runes.getLast?, isWord r.char = false := by
  have hrunes : (front ++ word).runes = front.runes ++ word.runes :=
    Bytes.runes_append_of_ascii front fun b hb => (hw b (List.mem_of_getElem? hb)).1
  constructor
  · rintro ⟨before, rs, hsplit, hrun, hjoin⟩
    have hrs : word.runes = rs := by rw [hjoin, (Bytes.runes_join hsplit).2]
    rw [hrunes, hrs] at hsplit
    exact List.append_cancel_right hsplit ▸ hrun.ends
  · intro hends
    exact ⟨front.runes, word.runes, hrunes, ⟨fun r hr => Bytes.isWord_of_mem_runes hw hr, hends⟩,
      (Bytes.join_runes word).symm⟩

theorem afterIncludeKeyword_iff {line blanks rest : Bytes} (h : IsLastRun isGap line blanks) :
    afterIncludeKeyword (line ++ blanks ++ rest) (line ++ blanks).length = true ↔ blanks ≠ [] ∧
      ∃ before, line = before ++ utf8 includeKeyword ∧ ∀ r ∈ before.runes.getLast?, isWord r.char = false := by
  have hline : (line ++ blanks).dropRightWhile (fun b => b == Bytes.blank || b == Bytes.tab) = line :=
    h.dropRightWhile
  have hlonger : line.length ≠ (line ++ blanks).length ↔ blanks ≠ [] := by simp
  have hkeyword : (utf8 includeKeyword).IsAsciiWord := by decide +kernel
  simp only [afterIncludeKeyword, List.take_left, hline, Bool.and_eq_true, bne_iff_ne, beq_iff_eq,
    Cursor.endsWith_iff, wordEndingAt_eq_iff, hlonger, and_assoc]
  refine and_congr_right fun _ => ?_
  constructor
  · rintro ⟨⟨before, rfl⟩, hword⟩
    exact ⟨before, rfl, (isLastWord_append_iff hkeyword).mp hword⟩
  · rintro ⟨before, rfl, hends⟩
    exact ⟨⟨before, rfl⟩, (isLastWord_append_iff hkeyword).mpr hends⟩

/-- In front of every offset of every text completion reads what the cursor does: whether the keyword of an
include and blanks stand there, and which word ends there. -/
theorem reads_as_cursor {text : Bytes} {offset : Nat} (hle : offset ≤ text.length) :
    (Cursor.followsInclude text offset = afterIncludeKeyword text offset ∧
      (afterIncludeKeyword text offset = true ↔ EndsWithInclude (text.take offset))) ∧
    (Cursor.wordBefore text offset = wordEndingAt text offset ∧
      IsLastWord (text.take offset) (wordEndingAt text offset)) := by
  obtain ⟨front, rest, rfl, rfl⟩ : ∃ front rest : Bytes, text = front ++ rest ∧ offset = front.length :=
    ⟨text.take offset, text.drop offset, (List.take_append_drop _ _).symm, (List.length_take_of_le hle).symm⟩
  rw [List.take_left]
  obtain ⟨line, blanks, hfront, hrun⟩ := exists_isLastRun isGap front
  have hkeyword : Cursor.followsInclude (front ++ rest) front.length
      = afterIncludeKeyword (front ++ rest) front.length := by
    rw [Bool.eq_iff_iff, hfront, Cursor.followsInclude_iff hrun, afterIncludeKeyword_iff hrun]
  obtain ⟨word, hword⟩ := Cursor.exists_isLastWord front
  refine ⟨⟨hkeyword, ?_⟩, ?_, ?_⟩
  · rw [← hkeyword, Cursor.followsInclude_eq_true]
  · rw [hword.wordBefore, wordEndingAt_append hword]
  · rwa [wordEndingAt_append hword]

def twoKeywords : Bytes := utf8 "öincludescript 7" ++ [0xC3] ++ utf8 "includescript \t8"

theorem reads_as_cursor_twoKeywords :
    (15 ≤ twoKeywords.length ∧ Cursor.wordBefore twoKeywords 15 = wordEndingAt twoKeywords 15 ∧
      wordEndingAt twoKeywords 15 = utf8 "öincludescript") ∧
    (16 ≤ twoKeywords.length ∧ Cursor.followsInclude twoKeywords 16 = afterIncludeKeyword twoKeywords 16 ∧
      afterIncludeKeyword twoKeywords 16 = false) ∧
    33 ≤ twoKeywords.length ∧ Cursor.followsInclude twoKeywords 33 = afterIncludeKeyword twoKeywords 33 ∧
      EndsWithInclude (twoKeywords.take 33) := by
  have hlen : twoKeywords.length = 34 := by decide +kernel
  have hword : 15 ≤ twoKeywords.length := by rw [hlen]; decide
  have hpart : 16 ≤ twoKeywords.length := by rw [hlen]; decide
  have hwhole : 33 ≤ twoKeywords.length := by rw [hlen]; decide
  obtain ⟨hkeyword, hends⟩ := (reads_as_cursor hwhole).1
  exact ⟨⟨hword, (reads_as_cursor hword).2.1, by decide +kernel⟩,
    ⟨hpart, (reads_as_cursor hpart).1.1, by decide +kernel⟩, hwhole, hkeyword, hends.mp (by decide +kernel)⟩

end Completion

end HostScript
