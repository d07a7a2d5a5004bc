import HostScript.Proofs.Text.Encoding

set_option autoImplicit false

namespace HostScript

/-- The code units of a character: its number, or two surrogates for a number beyond U+FFFF. -/
def utf16Char (c : Char) : List Nat :=
  if c.toNat < 0x10000 then [c.toNat]
  else [0xD800 + (c.toNat - 0x10000) / 0x400, 0xDC00 + (c.toNat - 0x10000) % 0x400]

/-- The UTF-16 code units of a text. -/
def utf16 (s : String) : List Nat := s.toList.flatMap utf16Char

@[simp] theorem utf16_append (s t : String) : utf16 (s ++ t) = utf16 s ++ utf16 t := by
  simp [utf16]

theorem length_utf16Char (c : Char) : (utf16Char c).length = unitsOf c := by
  unfold utf16Char unitsOf
  split <;> rfl

/-- Positions count code units. -/
theorem units_utf8 (s : String) : Bytes.units (utf8 s) = (utf16 s).length := by
  rw [Bytes.units, Bytes.runes_utf8, utf16]
  induction s.toList with
  | nil => rfl
  | cons c cs ih =>
    rw [List.map_cons, Rune.units, List.flatMap_cons, List.length_append, length_utf16Char, ih]
    rfl

theorem length_utf8 (s : String) : (utf8 s).length = s.utf8ByteSize := by
  rw [utf8, Array.length_toList, ← String.size_toByteArray]
  rfl

def IsAscii (s : String) : Prop := ∀ c ∈ s.toList, c.toNat < 128

instance (s : String) : Decidable (IsAscii s) :=
  decidable_of_iff (s.toList.all fun c => c.toNat < 128) (by simp [IsAscii])

theorem isAscii_append {s t : String} : IsAscii (s ++ t) ↔ IsAscii s ∧ IsAscii t := by
  simp [IsAscii, or_imp, forall_and]

theorem unitsOf_utf8Size (c : Char) :
    unitsOf c ≤ c.utf8Size ∧ (unitsOf c = c.utf8Size ↔ c.toNat < 128) := by
  have hone : c.utf8Size = 1 ↔ c.toNat < 128 := by
    rw [Char.utf8Size_eq_one_iff, UInt32.le_iff_toNat_le]
    exact Nat.lt_succ_iff.symm
  have hfour : c.utf8Size = 4 ↔ ¬ c.toNat < 0x10000 := by
    rw [Char.utf8Size_eq_four_iff, UInt32.lt_iff_toNat_lt, Nat.not_lt]
    exact Iff.rfl
  have hpos := c.utf8Size_pos
  unfold unitsOf
  split <;> omega

theorem length_utf16_flatMap (cs : List Char) :
    (cs.flatMap utf16Char).length ≤ (cs.flatMap String.utf8EncodeChar).length ∧
      ((cs.flatMap utf16Char).length = (cs.flatMap String.utf8EncodeChar).length ↔
        ∀ c ∈ cs, c.toNat < 128) := by
  induction cs with
  | nil => simp
  | cons c cs ih =>
    obtain ⟨hle, hiff⟩ := unitsOf_utf8Size c
    simp only [List.flatMap_cons, List.length_append, List.forall_mem_cons, length_utf16Char,
      String.length_utf8EncodeChar, ← hiff, ← ih.2]
    omega

theorem utf8ByteSize_eq_flatMap (s : String) :
    s.utf8ByteSize = (s.toList.flatMap String.utf8EncodeChar).length := by
  rw [← length_utf8, ← utf8_ofList, String.ofList_toList]

theorem length_utf16_eq_iff (s : String) : (utf16 s).length = s.utf8ByteSize ↔ IsAscii s := by
  rw [utf8ByteSize_eq_flatMap]
  exact (length_utf16_flatMap s.toList).2

end HostScript
