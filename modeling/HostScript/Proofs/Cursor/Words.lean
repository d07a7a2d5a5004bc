import HostScript.Proofs.Cursor.Parts
import HostScript.Proofs.Text.Digits

set_option autoImplicit false

namespace HostScript

namespace Bytes

/-- Word characters of one byte each. -/
def IsAsciiWord (bs : Bytes) : Prop := ∀ b ∈ bs, b < 0x80 ∧ isWord (Char.ofNat b.toNat) = true

instance (bs : Bytes) : Decidable bs.IsAsciiWord :=
  inferInstanceAs (Decidable (∀ b ∈ bs, b < 0x80 ∧ isWord (Char.ofNat b.toNat) = true))

/-- What is shown of an ASCII byte by going through all of them. -/
theorem forall_ascii {P : UInt8 → Prop} (h : ∀ n < 128, P (UInt8.ofNat n)) {b : UInt8} (hb : b < 0x80) :
    P b := by
  have hn := h b.toNat (UInt8.lt_iff_toNat_lt.mp hb)
  rwa [UInt8.ofNat_toNat] at hn

theorem runes_word {word : Bytes} (hw : word.IsAsciiWord) (after : Bytes) :
    runes (word ++ after) = runes word ++ runes after := by
  have hascii : ∀ b ∈ word, b < 0x80 := fun b hb => (hw b hb).1
  rw [runes_ascii_append hascii, runes_ascii hascii]

theorem isWord_of_mem_runes {word : Bytes} (hw : word.IsAsciiWord) {r : Rune} (hr : r ∈ runes word) :
    isWord r.char = true := by
  rw [runes_ascii fun b hb => (hw b hb).1] at hr
  obtain ⟨b, hb, rfl⟩ := List.mem_map.mp hr
  exact (hw b hb).2

theorem isRun_runes_word {word after : Bytes} (hw : word.IsAsciiWord)
    (ha : ∀ r ∈ after.head?, isWord r.char = false) :
    IsRun (fun r => isWord r.char) (runes word) (runes after) := by
  refine ⟨fun r hr => isWord_of_mem_runes hw hr, fun r hr => ha r ?_⟩
  cases after with
  | nil => cases hr
  | cons b after => rwa [runes_cons] at hr

end Bytes

namespace Cursor

open Bytes (IsAsciiWord)

theorem plain_of_word {b : UInt8} (hb : b < 0x80) (hw : isWord (Char.ofNat b.toNat) = true) :
    ends b = false ∧ b ≠ colon :=
  Bytes.forall_ascii (P := fun b => isWord (Char.ofNat b.toNat) = true → ends b = false ∧ b ≠ colon)
    (by decide +kernel) hb hw

section Word

variable {front word after : Bytes} (hf : ∀ b ∈ front.getLast?, b ∈ delimiters) (hw : word.IsAsciiWord)
  (ha : ∀ r ∈ after.head?, isWord r.char = false)

include hw ha in
theorem isToken_word (hne : word ≠ []) : IsToken (front ++ (word ++ after)) front.length 1 word := by
  obtain ⟨b, more, rfl⟩ := List.exists_cons_of_ne_nil hne
  have hmore : IsAsciiWord more := fun c hc => hw c (List.mem_cons_of_mem _ hc)
  have hrunes : Bytes.runes ((front ++ (b :: more ++ after)).drop front.length)
      = ⟨Char.ofNat b.toNat, [b]⟩ :: (Bytes.runes more ++ Bytes.runes after) := by
    rw [List.drop_left, List.cons_append, Bytes.runes_cons_ascii (hw b List.mem_cons_self).1,
      Bytes.runes_word hmore]
  refine ⟨Bytes.runes more, Bytes.runes after, ?_, Bytes.isRun_runes_word hmore ha, ?_⟩
  · rw [hrunes, List.drop_succ_cons, List.drop_zero]
  · rw [hrunes, List.take_succ_cons, List.take_zero, List.singleton_append, Rune.join_cons, Bytes.join_runes]
    rfl

include hf hw ha in
theorem found_word {o : Nat} (hlow : front.length ≤ o) (hhigh : o < front.length + word.length) :
    ∃ seen, Plain front seen ∧ Found (front ++ (word ++ after)) o front seen word := by
  obtain ⟨k, hk⟩ : ∃ k, o + 1 = front.length + k := ⟨o + 1 - front.length, by omega⟩
  have hne : word ≠ [] := by
    rintro rfl
    simp only [List.length_nil] at hhigh
    omega
  have hplain {b : UInt8} (hb : b ∈ word.take k) : ends b = false ∧ b ≠ colon :=
    have hmem := List.mem_of_mem_take hb
    plain_of_word (hw b hmem).1 (hw b hmem).2
  have hcolon : colon ∉ word.take k := fun h => (hplain h).2 rfl
  have hdot : front.getLast? ≠ some dot := fun hlast => absurd (hf dot hlast) (by decide)
  refine ⟨word.take k, ⟨hcolon, hdot⟩, ⟨?_, ⟨fun b hb => by simp [(hplain hb).1], fun b hb => ?_⟩⟩, ?_⟩
  · rw [hk, List.take_length_add_append, List.take_append_of_le_length (by omega)]
  · simp [ends, hf b hb]
  · rw [if_neg (by simpa using hcolon)]
    exact isToken_word hw ha hne

include hf hw ha in
theorem atOffset_word {o : Nat} (hlow : front.length ≤ o) (hhigh : o < front.length + word.length) :
    atOffset (front ++ (word ++ after)) o = plainAt (front ++ (word ++ after)) o front.length word := by
  obtain ⟨seen, hplain, hfound⟩ := found_word hf hw ha hlow hhigh
  refine hfound.atOffset_plain hplain ?_
  simp only [List.length_append]
  omega

end Word

end Cursor

end HostScript
