import HostScript.Cursor
import HostScript.Proofs.Text.Backward
import HostScript.Proofs.Text.Run

/-!
What the look around the cursor finds. Each of its parts is described by how the text is cut: backward from
the cursor, forward to the end of the token, to the digits behind, and over the blanks or the word in front.
-/

set_option autoImplicit false

namespace HostScript

namespace Bytes

theorem ascii_of_isDigit {b : UInt8} (h : isDigit b = true) : b < 0x80 := by
  simp only [isDigit, Bool.and_eq_true, decide_eq_true_eq] at h
  exact UInt8.lt_of_le_of_lt h.2 (by decide)

theorem slice_append (front part rest : Bytes) :
    (front ++ (part ++ rest)).slice front.length (front.length + part.length) = part := by
  rw [slice, List.drop_left, Nat.add_sub_cancel_left, List.take_left]

end Bytes

namespace Cursor

variable {text front seen raw : Bytes} {offset : Nat}

theorem delimiters_ascii : ∀ b ∈ delimiters, b < 0x80 ∧ isWord (Char.ofNat b.toNat) = false := by
  decide +kernel

/-- Whether the look backward ends at a byte. -/
def ends (b : UInt8) : Bool := delimiters.contains b || b == dot

theorem ascii_of_ends {b : UInt8} (h : ends b = true) : b < 0x80 := by
  simp only [ends, Bool.or_eq_true, List.contains_iff_mem, beq_iff_eq] at h
  rcases h with h | rfl
  · exact (delimiters_ascii b h).1
  · decide

/-- The text up to the cursor, cut behind the last byte that ends the look backward. The byte under the
cursor is the last that is seen. -/
structure Looked (text : Bytes) (offset : Nat) (front seen : Bytes) : Prop where
  split : text.take (offset + 1) = front ++ seen
  run : IsLastRun (fun b => !ends b) front seen

theorem exists_looked (text : Bytes) (offset : Nat) : ∃ front seen, Looked text offset front seen := by
  obtain ⟨front, seen, hsplit, hrun⟩ := exists_isLastRun (fun b => !ends b) (text.take (offset + 1))
  exact ⟨front, seen, hsplit, hrun⟩

theorem lookBack_seen (hs : ∀ b ∈ seen, (!ends b) = true) (userFunction : Bool) (before : Bytes) :
    lookBack userFunction (seen ++ before) = lookBack (userFunction || seen.contains colon) before := by
  induction seen generalizing userFunction with
  | nil => rw [List.nil_append, List.contains_nil, Bool.or_false]
  | cons b seen ih =>
    have hb := hs b List.mem_cons_self
    simp only [ends, Bool.not_or, Bool.and_eq_true, Bool.not_eq_true', beq_eq_false_iff_ne] at hb
    have ih := ih fun c hc => hs c (List.mem_cons_of_mem _ hc)
    rw [List.cons_append, lookBack, hb.1, if_neg (by decide), if_neg hb.2, List.contains_cons]
    split
    · rename_i hcolon
      simp [ih, hcolon]
    · rename_i hcolon
      have hne : (colon == b) = false := by simpa using Ne.symm hcolon
      rw [ih, hne, Bool.false_or]

theorem lookBack_front (hf : ∀ b ∈ front.getLast?, ends b = true) (userFunction : Bool) :
    lookBack userFunction front.reverse = ⟨front.length, userFunction, front.getLast? == some dot⟩ := by
  have hplain : dot ∉ delimiters ∧ dot ≠ colon := by decide
  obtain rfl | ⟨before, b, rfl⟩ := List.eq_nil_or_concat front
  · rfl
  · rw [List.concat_eq_append] at hf ⊢
    have hb := hf b (by simp)
    simp only [ends, Bool.or_eq_true, List.contains_iff_mem, beq_iff_eq] at hb
    rw [List.reverse_append, List.reverse_singleton, List.singleton_append, lookBack]
    rcases hb with hb | rfl
    · have hdot : b ≠ dot := fun hdot => hplain.1 (hdot ▸ hb)
      simp [hb, hdot]
    · simp [hplain]

namespace Looked

theorem lookBack (h : Looked text offset front seen) :
    Cursor.lookBack false (text.take (offset + 1)).reverse
      = ⟨front.length, seen.contains colon, front.getLast? == some dot⟩ := by
  have hseen : ∀ b ∈ seen.reverse, (!ends b) = true := fun b hb => h.run.all b (List.mem_reverse.mp hb)
  have hfront : ∀ b ∈ front.getLast?, ends b = true := fun b hb => by simpa using h.run.ends b hb
  rw [h.split, List.reverse_append, lookBack_seen hseen, lookBack_front hfront, List.contains_reverse,
    Bool.false_or]

theorem text_eq (h : Looked text offset front seen) : text = front ++ text.drop front.length := by
  have hprefix : front <+: text := (List.prefix_append front seen).trans (h.split ▸ List.take_prefix _ _)
  obtain ⟨rest, rfl⟩ := hprefix
  rw [List.drop_left]

theorem isBoundary (h : Looked text offset front seen) : text.IsBoundary front.length := by
  rw [h.text_eq]
  refine Bytes.isBoundary_behind_ascii _ fun b hb => ascii_of_ends ?_
  simpa using h.run.ends b hb

end Looked

/-- What is read from `start` on: a number of runes whatever they are, as far as there are so many, and
then all word characters. -/
def IsToken (text : Bytes) (start skip : Nat) (raw : Bytes) : Prop :=
  ∃ word rest, (Bytes.runes (text.drop start)).drop skip = word ++ rest ∧
    IsRun (fun r => isWord r.char) word rest ∧ raw = Rune.join ((Bytes.runes (text.drop start)).take skip ++ word)

theorem exists_isToken (text : Bytes) (start skip : Nat) : ∃ raw, IsToken text start skip raw := by
  obtain ⟨word, rest, hsplit, hrun⟩ :=
    exists_isRun (fun r => isWord r.char) ((Bytes.runes (text.drop start)).drop skip)
  exact ⟨_, word, rest, hsplit, hrun, rfl⟩

namespace IsToken

variable {start skip : Nat}

theorem tokenEnd {userFunction : Bool} (h : IsToken text start (if userFunction then 6 else 1) raw) :
    Cursor.tokenEnd text start userFunction = start + raw.length := by
  obtain ⟨word, rest, hsplit, hrun, rfl⟩ := h
  simp only [Cursor.tokenEnd, hsplit, hrun.takeWhile, Rune.length_join, Rune.sizes_append]
  omega

theorem isBoundary (h : IsToken text start skip raw) : Bytes.IsBoundary (text.drop start) raw.length := by
  obtain ⟨word, rest, hsplit, -, rfl⟩ := h
  refine ⟨(Bytes.runes (text.drop start)).take skip ++ word, ⟨rest, ?_⟩, (Rune.length_join _).symm⟩
  rw [List.append_assoc, ← hsplit, List.take_append_drop]

theorem drop_eq (h : IsToken text start skip raw) : ∃ rest, text.drop start = raw ++ rest := by
  obtain ⟨word, rest, hsplit, -, rfl⟩ := h
  refine ⟨Rune.join rest, ?_⟩
  rw [← Rune.join_append, List.append_assoc, ← hsplit, List.take_append_drop, Bytes.join_runes]

end IsToken

/-- Digits behind an offset, the first ones there are and as many as stand side by side. -/
structure FirstDigits (text : Bytes) (offset : Nat) (gap digits rest : Bytes) : Prop where
  split : text.drop offset = gap ++ (digits ++ rest)
  gap : ∀ b ∈ gap, Bytes.isDigit b = false
  nonempty : digits ≠ []
  run : IsRun Bytes.isDigit digits rest

theorem FirstDigits.text_eq {gap digits rest : Bytes} (h : FirstDigits text offset gap digits rest) :
    ∃ front : Bytes, front.length = offset + gap.length ∧ text = front ++ (digits ++ rest) := by
  have hle : offset ≤ text.length := by
    have hlen := congrArg List.length h.split
    have hpos := List.length_pos_of_ne_nil h.nonempty
    simp only [List.length_drop, List.length_append] at hlen
    omega
  refine ⟨text.take offset ++ gap, by rw [List.length_append, List.length_take_of_le hle], ?_⟩
  rw [List.append_assoc, ← h.split, List.take_append_drop]

theorem FirstDigits.nextDigits? {gap digits rest : Bytes} (h : FirstDigits text offset gap digits rest) :
    Cursor.nextDigits? text offset = some (offset + gap.length, offset + gap.length + digits.length) := by
  obtain ⟨d, more, rfl⟩ := List.exists_cons_of_ne_nil h.nonempty
  have hgap : IsRun (fun b => !Bytes.isDigit b) gap (d :: (more ++ rest)) :=
    .of_cons (fun b hb => by simp [h.gap b hb]) (by rw [h.run.all d List.mem_cons_self, Bool.not_true])
  have hskip : (text.drop offset).takeWhile (fun b => !Bytes.isDigit b) = gap := by
    rw [h.split, List.cons_append, hgap.takeWhile]
  have hrest : text.drop (offset + gap.length) = d :: more ++ rest := by
    rw [← List.drop_drop, h.split, List.drop_left]
  simp only [Cursor.nextDigits?, hskip, hrest, h.run.takeWhile]
  rw [if_neg (by simp)]

theorem nextDigits?_cases (text : Bytes) (offset : Nat) :
    (∀ b ∈ text.drop offset, Bytes.isDigit b = false) ∧ nextDigits? text offset = none ∨
      ∃ gap digits rest, FirstDigits text offset gap digits rest := by
  obtain ⟨gap, more, hsplit, hgap⟩ := exists_isRun (fun b => !Bytes.isDigit b) (text.drop offset)
  obtain ⟨digits, rest, rfl, hdigits⟩ := exists_isRun Bytes.isDigit more
  have hno : ∀ b ∈ gap, Bytes.isDigit b = false := fun b hb => by simpa using hgap.all b hb
  by_cases hne : digits = []
  · subst hne
    -- Nothing follows the gap: a byte there would have to be a digit and not to be one.
    obtain rfl : rest = [] := by
      cases rest with
      | nil => rfl
      | cons b rest =>
        have hnot := hgap.ends b rfl
        rw [hdigits.ends b rfl] at hnot
        cases hnot
    rw [List.append_nil, List.append_nil] at hsplit
    refine .inl ⟨hsplit ▸ hno, ?_⟩
    have hskip : (text.drop offset).takeWhile (fun b => !Bytes.isDigit b) = gap := by
      rw [hsplit]
      simpa using hgap.takeWhile
    have hrest : text.drop (offset + gap.length) = [] := by
      rw [← List.drop_drop, hsplit, List.drop_length]
    simp [nextDigits?, hskip, hrest]
  · exact .inr ⟨gap, digits, rest, hsplit, hno, hne, hdigits⟩

/-- A text that ends with the keyword of an include, as a whole word, and one or more blanks or tabs. -/
def EndsWithInclude (text : Bytes) : Prop :=
  ∃ before blanks, text = before ++ (utf8 includeKeyword ++ blanks) ∧ blanks ≠ [] ∧
    (∀ b ∈ blanks, b = Bytes.blank ∨ b = Bytes.tab) ∧ ∀ r ∈ before.runes.getLast?, isWord r.char = false

/-- Whether a byte may stand between the keyword of an include and its number. -/
def isGap (b : UInt8) : Bool := b == Bytes.blank || b == Bytes.tab

theorem endsWith_iff {bs tail : Bytes} : bs.endsWith tail = true ↔ ∃ front, bs = front ++ tail := by
  rw [Bytes.endsWith, List.isSuffixOf_iff_suffix]
  exact exists_congr fun _ => eq_comm

theorem followsInclude_iff {line blanks rest : Bytes} (h : IsLastRun isGap line blanks) :
    followsInclude (line ++ blanks ++ rest) (line ++ blanks).length = true ↔ blanks ≠ [] ∧
      ∃ before, line = before ++ utf8 includeKeyword ∧ ∀ r ∈ before.runes.getLast?, isWord r.char = false := by
  have hline : (line ++ blanks).dropRightWhile (fun b => b == Bytes.blank || b == Bytes.tab) = line :=
    h.dropRightWhile
  simp only [followsInclude, List.take_left, hline]
  by_cases hends : ∃ before, line = before ++ utf8 includeKeyword
  · obtain ⟨before, rfl⟩ := hends
    have htrue : Bytes.endsWith (before ++ utf8 includeKeyword) (utf8 includeKeyword) = true :=
      endsWith_iff.mpr ⟨before, rfl⟩
    simp [htrue, Bytes.last?_eq, Option.all_eq_true]
  · have hfalse : Bytes.endsWith line (utf8 includeKeyword) = false :=
      Bool.eq_false_iff.mpr fun htrue => hends (endsWith_iff.mp htrue)
    simp only [hfalse, Bool.not_false, Bool.or_true, if_true, Bool.false_eq_true, false_iff, not_and,
      not_exists]
    exact fun _ before hbefore => absurd ⟨before, hbefore⟩ hends

theorem followsInclude_eq_true {rest : Bytes} :
    followsInclude (front ++ rest) front.length = true ↔ EndsWithInclude front := by
  constructor
  · intro h
    obtain ⟨line, blanks, rfl, hrun⟩ := exists_isLastRun isGap front
    obtain ⟨hne, before, rfl, hword⟩ := (followsInclude_iff hrun).mp h
    refine ⟨before, blanks, List.append_assoc _ _ _, hne, fun b hb => ?_, hword⟩
    simpa [isGap] using hrun.all b hb
  · rintro ⟨before, blanks, rfl, hne, hblanks, hword⟩
    have hlast : (before ++ utf8 includeKeyword).getLast? = some 116 := by
      rw [List.getLast?_append_of_ne_nil _ (by decide)]
      decide
    have hrun : IsLastRun isGap (before ++ utf8 includeKeyword) blanks := by
      refine ⟨fun b hb => by simpa [isGap] using hblanks b hb, fun b hb => ?_⟩
      obtain rfl := Option.some.inj (hlast.symm.trans hb)
      decide
    rw [← List.append_assoc before]
    exact (followsInclude_iff hrun).mpr ⟨hne, before, rfl, hword⟩

/-- The word characters that a text ends with. -/
def IsLastWord (text word : Bytes) : Prop :=
  ∃ before rs, text.runes = before ++ rs ∧ IsLastRun (fun r => isWord r.char) before rs ∧ word = Rune.join rs

theorem exists_isLastWord (text : Bytes) : ∃ word, IsLastWord text word := by
  obtain ⟨before, rs, hsplit, hrun⟩ := exists_isLastRun (fun r => isWord r.char) text.runes
  exact ⟨_, before, rs, hsplit, hrun, rfl⟩

theorem IsLastWord.wordBefore {word rest : Bytes} (h : IsLastWord front word) :
    Cursor.wordBefore (front ++ rest) front.length = word := by
  obtain ⟨before, rs, hsplit, hrun, rfl⟩ := h
  rw [Cursor.wordBefore, List.take_left, hsplit, List.reverse_append, hrun.reverse.takeWhile,
    List.reverse_reverse]

/-- What the look backward and the token forward from there are. Six runes of a user function belong to its
token whatever they are. -/
structure Found (text : Bytes) (offset : Nat) (front seen raw : Bytes) : Prop
    extends Looked text offset front seen where
  token : IsToken text front.length (if seen.contains colon then 6 else 1) raw

theorem exists_found (text : Bytes) (offset : Nat) : ∃ front seen raw, Found text offset front seen raw := by
  obtain ⟨front, seen, hlooked⟩ := exists_looked text offset
  obtain ⟨raw, htoken⟩ := exists_isToken text front.length (if seen.contains colon then 6 else 1)
  exact ⟨front, seen, raw, hlooked, htoken⟩

theorem Found.text_eq (h : Found text offset front seen raw) : ∃ rest, text = front ++ (raw ++ rest) := by
  obtain ⟨rest, hrest⟩ := h.token.drop_eq
  exact ⟨rest, hrest ▸ h.toLooked.text_eq⟩

/-- A piece of the text as the token under an offset. -/
def taken (text : Bytes) (offset : Nat) (kind : CursorKind) (start : Nat) (raw : Bytes) : Cursor :=
  { kind, text := raw, atCursor := (Bytes.head? (text.drop offset)).map (·.char), start
    stop := start + raw.length }

/-- The token under an offset that no colon and no dot makes a function. -/
def plainAt (text : Bytes) (offset start : Nat) (raw : Bytes) : Cursor :=
  if raw == utf8 includeKeyword then
    match nextDigits? text offset with
    | some (start, stop) => { taken text offset .includeScript start (text.slice start stop) with stop }
    | none => taken text offset .error start raw
  else if raw.isDigits && followsInclude text start then taken text offset .includeScript start raw
  else taken text offset .variable start raw

theorem Found.atOffset (h : Found text offset front seen raw) (hle : offset ≤ text.length) :
    Cursor.atOffset text offset =
      if seen.contains colon then taken text offset .userFunction front.length raw
      else if front.getLast? == some dot then
        { taken text offset .parserFunction front.length raw with space := wordBefore text (front.length - 1) }
      else plainAt text offset front.length raw := by
  have hin : ¬ ((offset : Int) < 0 ∨ (text.length : Int) < offset) := by omega
  have hslice : text.slice front.length (front.length + raw.length) = raw := by
    obtain ⟨rest, hrest⟩ := h.text_eq
    rw [hrest, Bytes.slice_append]
  simp only [Cursor.atOffset, Bool.or_eq_true, decide_eq_true_eq, if_neg hin, Int.toNat_natCast,
    h.toLooked.lookBack, h.token.tokenEnd, hslice]
  rfl

/-- The look backward neither passed a colon nor ended at a dot. -/
structure Plain (front seen : Bytes) : Prop where
  colon : colon ∉ seen
  dot : front.getLast? ≠ some dot

theorem Found.atOffset_plain (h : Found text offset front seen raw) (hp : Plain front seen)
    (hle : offset ≤ text.length) : Cursor.atOffset text offset = plainAt text offset front.length raw := by
  have hcolon : seen.contains Cursor.colon = false := Bool.eq_false_iff.mpr fun hc => hp.colon (by simpa using hc)
  have hdot : (front.getLast? == some Cursor.dot) = false := beq_eq_false_iff_ne.mpr hp.dot
  rw [h.atOffset hle, hcolon, hdot, if_neg (by decide), if_neg (by decide)]

end Cursor

end HostScript
