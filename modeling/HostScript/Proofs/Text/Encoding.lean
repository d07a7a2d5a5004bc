import HostScript.Proofs.Text.Digits

/-!
Encoded characters. A character is decoded from its bytes whatever follows them, so the text of encoded
strings is read back as those strings, and what is put behind one is decoded for itself.
-/

set_option autoImplicit false

namespace HostScript

namespace Bytes

theorem toNat_ofNat {n : Nat} (h : n < 256) : (UInt8.ofNat n).toNat = n := by
  rw [UInt8.toNat_ofNat', Nat.mod_eq_of_lt h]

theorem isTail_iff (b : UInt8) : isTail b = true ↔ 128 ≤ b.toNat ∧ b.toNat ≤ 191 := by
  simp only [isTail, Bool.and_eq_true, decide_eq_true_eq, UInt8.le_iff_toNat_le]
  exact Iff.rfl

theorem isSecond_of_tail {first second : UInt8} (ht : isTail second = true)
    (hthree : first.toNat = 0xE0 → 0xA0 ≤ second.toNat)
    (hsurrogate : first.toNat = 0xED → second.toNat ≤ 0x9F)
    (hfour : first.toNat = 0xF0 → 0x90 ≤ second.toNat)
    (hlimit : first.toNat = 0xF4 → second.toNat ≤ 0x8F) : isSecond first second = true := by
  obtain ⟨hlow, hhigh⟩ := (isTail_iff second).mp ht
  unfold isSecond
  simp only [← UInt8.toNat_inj, UInt8.le_iff_toNat_le]
  split
  · rename_i h
    have hk := hthree h
    simpa using And.intro hk hhigh
  · split
    · rename_i h
      have hk := hsurrogate h
      simpa using And.intro hlow hk
    · split
      · rename_i h
        have hk := hfour h
        simpa using And.intro hk hhigh
      · split
        · rename_i h
          have hk := hlimit h
          simpa using And.intro hlow hk
        · exact ht

section Heads

variable {b c d e : UInt8} (bs : Bytes)

theorem wellFormedHead?_one (hb : b.toNat ≤ 127) :
    wellFormedHead? b bs = some ⟨Char.ofNat b.toNat, [b]⟩ := by
  have h : b < 0x80 := UInt8.lt_iff_toNat_lt.mpr (Nat.lt_succ_of_le hb)
  simp [wellFormedHead?, h]

theorem wellFormedHead?_two (hlow : 194 ≤ b.toNat) (hhigh : b.toNat ≤ 223) (hc : isTail c = true) :
    wellFormedHead? b (c :: bs) = some ⟨Char.ofNat (b.toNat % 32 * 64 + tailBits c), [b, c]⟩ := by
  unfold wellFormedHead?
  simp only [UInt8.lt_iff_toNat_lt, UInt8.le_iff_toNat_le, Bool.and_eq_true, decide_eq_true_eq,
    UInt8.reduceToNat]
  rw [if_neg (by omega), if_pos ⟨hlow, hhigh⟩, if_pos hc]

theorem wellFormedHead?_three (hlow : 224 ≤ b.toNat) (hhigh : b.toNat ≤ 239)
    (hc : isSecond b c = true) (hd : isTail d = true) : wellFormedHead? b (c :: d :: bs)
      = some ⟨Char.ofNat (b.toNat % 16 * 4096 + tailBits c * 64 + tailBits d), [b, c, d]⟩ := by
  unfold wellFormedHead?
  simp only [UInt8.lt_iff_toNat_lt, UInt8.le_iff_toNat_le, Bool.and_eq_true, decide_eq_true_eq,
    UInt8.reduceToNat]
  rw [if_neg (by omega), if_neg (by omega), if_pos ⟨hlow, hhigh⟩, if_pos ⟨hc, hd⟩]

theorem wellFormedHead?_four (hlow : 240 ≤ b.toNat) (hhigh : b.toNat ≤ 244)
    (hc : isSecond b c = true) (hd : isTail d = true) (he : isTail e = true) :
    wellFormedHead? b (c :: d :: e :: bs) = some ⟨Char.ofNat (b.toNat % 8 * 262144
      + tailBits c * 4096 + tailBits d * 64 + tailBits e), [b, c, d, e]⟩ := by
  unfold wellFormedHead?
  simp only [UInt8.lt_iff_toNat_lt, UInt8.le_iff_toNat_le, Bool.and_eq_true, decide_eq_true_eq,
    UInt8.reduceToNat]
  rw [if_neg (by omega), if_neg (by omega), if_neg (by omega), if_pos ⟨hlow, hhigh⟩,
    if_pos ⟨⟨hc, hd⟩, he⟩]

end Heads

theorem isTail_ofNat {k : Nat} (h : k < 64) : isTail (UInt8.ofNat (k + 0x80)) = true ∧
    tailBits (UInt8.ofNat (k + 0x80)) = k ∧ (UInt8.ofNat (k + 0x80)).toNat = k + 0x80 := by
  have hk : (UInt8.ofNat (k + 0x80)).toNat = k + 0x80 := toNat_ofNat (by omega)
  rw [isTail_iff, tailBits, hk]
  omega

theorem toNat_ne_surrogate (ch : Char) :
    ch.val.toNat < 0xD800 ∨ 0xDFFF < ch.val.toNat ∧ ch.val.toNat < 0x110000 := ch.valid

theorem wellFormedHead?_encode (ch : Char) : ∃ b tail, String.utf8EncodeChar ch = b :: tail ∧
    ∀ bs, wellFormedHead? b (tail ++ bs) = some ⟨ch, b :: tail⟩ := by
  have hvalid := toNat_ne_surrogate ch
  have hchar {n : Nat} (h : n = ch.val.toNat) : Char.ofNat n = ch := by
    rw [h]
    exact Char.ofNat_toNat ch
  unfold String.utf8EncodeChar
  simp only
  generalize ch.val.toNat = v at hvalid hchar ⊢
  obtain ⟨t0, b0, n0⟩ := isTail_ofNat (show v % 64 < 64 by omega)
  obtain ⟨t1, b1, n1⟩ := isTail_ofNat (show v / 64 % 64 < 64 by omega)
  obtain ⟨t2, b2, n2⟩ := isTail_ofNat (show v / 4096 % 64 < 64 by omega)
  split
  · have hb : (UInt8.ofNat v).toNat = v := toNat_ofNat (by omega)
    refine ⟨_, _, rfl, fun bs => ?_⟩
    rw [List.nil_append, wellFormedHead?_one bs (by omega), hchar hb]
  · split
    · have hb : (UInt8.ofNat (v / 64 % 0x20 + 0xc0)).toNat = v / 64 % 0x20 + 0xc0 := toNat_ofNat (by omega)
      refine ⟨_, _, rfl, fun bs => ?_⟩
      rw [List.singleton_append, wellFormedHead?_two bs (by omega) (by omega) t0, hchar (by omega)]
    · split
      · have hb : (UInt8.ofNat (v / 4096 % 0x10 + 0xe0)).toNat = v / 4096 % 0x10 + 0xe0 :=
          toNat_ofNat (by omega)
        refine ⟨_, _, rfl, fun bs => ?_⟩
        have hs : isSecond (UInt8.ofNat (v / 4096 % 0x10 + 0xe0)) _ = true := isSecond_of_tail t1
          (by omega) (by omega) (by omega) (by omega)
        rw [List.cons_append, List.singleton_append,
          wellFormedHead?_three bs (by omega) (by omega) hs t0, hchar (by omega)]
      · have hb : (UInt8.ofNat (v / 262144 % 0x08 + 0xf0)).toNat = v / 262144 % 0x08 + 0xf0 :=
          toNat_ofNat (by omega)
        refine ⟨_, _, rfl, fun bs => ?_⟩
        have hs : isSecond (UInt8.ofNat (v / 262144 % 0x08 + 0xf0)) _ = true := isSecond_of_tail t2
          (by omega) (by omega) (by omega) (by omega)
        rw [List.cons_append, List.cons_append, List.singleton_append,
          wellFormedHead?_four bs (by omega) (by omega) hs t1 t0, hchar (by omega)]

theorem exists_rune_of_mem {b : UInt8} (hb : b < 0x80) {bs : Bytes} (h : b ∈ bs) :
    ∃ r ∈ runes bs, r.char = Char.ofNat b.toNat := by
  obtain ⟨front, back, rfl⟩ := List.append_of_mem h
  rw [runes_append_ascii hb]
  exact ⟨⟨Char.ofNat b.toNat, [b]⟩, by simp, rfl⟩

theorem toNat_of_ofNat {v : Nat} {c : Char} (hc : c.toNat ≠ 0) (h : Char.ofNat v = c) : v = c.toNat := by
  rw [← h]
  by_cases hv : v.isValidChar
  · rw [Char.ofNat, dif_pos hv]
    rfl
  · rw [← h, Char.ofNat, dif_neg hv] at hc
    exact absurd rfl hc

theorem isSecond_bounds {first second : UInt8} (h : isSecond first second = true) :
    (first.toNat = 0xE0 → 160 ≤ second.toNat) ∧ (first.toNat = 0xF0 → 144 ≤ second.toNat) ∧
      second.toNat ≤ 191 := by
  simp only [isSecond, isTail, ← UInt8.toNat_inj, UInt8.le_iff_toNat_le, UInt8.reduceToNat] at h
  split at h
  · simp at h; omega
  · split at h
    · simp at h; omega
    · split at h
      · simp at h; omega
      · split at h <;> simp at h <;> omega

/-- Longer sequences stand for no ASCII character, so such a character is its own byte. -/
theorem wellFormedHead?_ascii {b : UInt8} {bs : Bytes} {r : Rune} (h : wellFormedHead? b bs = some r)
    (hzero : r.char.toNat ≠ 0) (hascii : r.char.toNat < 0x80) : r.bytes = [b] ∧ b.toNat = r.char.toNat := by
  unfold wellFormedHead? at h
  simp only [UInt8.lt_iff_toNat_lt, UInt8.le_iff_toNat_le, Bool.and_eq_true, decide_eq_true_eq,
    UInt8.reduceToNat] at h
  split at h
  · obtain rfl := Option.some.inj h
    exact ⟨rfl, toNat_of_ofNat hzero rfl⟩
  · split at h
    · split at h
      · split at h
        · obtain rfl := Option.some.inj h
          have hv := toNat_of_ofNat hzero rfl
          omega
        · cases h
      · cases h
    · split at h
      · split at h
        · split at h
          · rename_i hsecond
            obtain rfl := Option.some.inj h
            have hv := toNat_of_ofNat hzero rfl
            obtain ⟨hlow, -, hhigh⟩ := isSecond_bounds hsecond.1
            simp only [tailBits] at hv hascii
            omega
          · cases h
        · cases h
      · split at h
        · split at h
          · split at h
            · rename_i hsecond
              obtain rfl := Option.some.inj h
              have hv := toNat_of_ofNat hzero rfl
              obtain ⟨-, hlow, hhigh⟩ := isSecond_bounds hsecond.1.1
              simp only [tailBits] at hv hascii
              omega
            · cases h
          · cases h
        · cases h

theorem bytes_of_ascii {bs : Bytes} {r : Rune} (hr : r ∈ runes bs) {a : UInt8} (hzero : a ≠ 0)
    (ha : a < 0x80) (hc : r.char = Char.ofNat a.toNat) : r.bytes = [a] := by
  have hascii : ∀ k < 128, (Char.ofNat k).toNat = k := by decide
  have hreplacement : ∀ k < 128, replacement ≠ Char.ofNat k := by decide
  have hk : a.toNat < 128 := UInt8.lt_iff_toNat_lt.mp ha
  have hchar : r.char.toNat = a.toNat := by rw [hc, hascii _ hk]
  have hne : a.toNat ≠ 0 := fun h => hzero (UInt8.toNat_inj.mp h)
  obtain ⟨b, rest, hhead⟩ := exists_headRune hr
  unfold headRune at hhead
  cases h : wellFormedHead? b rest with
  | none =>
    rw [h] at hhead
    rw [hhead] at hc
    exact absurd hc (hreplacement _ hk)
  | some q =>
    rw [h] at hhead
    obtain rfl : r = q := hhead
    obtain ⟨hbytes, hb⟩ := wellFormedHead?_ascii h (by omega) (by omega)
    rw [hbytes, UInt8.toNat_inj.mp (hb.trans hchar)]

def encoded (c : Char) : Rune := ⟨c, String.utf8EncodeChar c⟩

theorem runes_encode (c : Char) (bs : Bytes) :
    runes (String.utf8EncodeChar c ++ bs) = encoded c :: runes bs := by
  obtain ⟨b, tail, hc, hhead⟩ := wellFormedHead?_encode c
  have hr : headRune b (tail ++ bs) = encoded c := by simp [headRune, hhead, encoded, hc]
  have hsize : (encoded c).size - 1 = tail.length := by simp [Rune.size, encoded, hc]
  rw [hc, List.cons_append, runes_cons, hr, hsize, List.drop_left]

/-- What follows an encoded string is decoded for itself. -/
theorem runes_utf8_append (s : String) (bs : Bytes) :
    runes (utf8 s ++ bs) = s.toList.map encoded ++ runes bs := by
  rw [← String.ofList_toList (s := s), utf8_ofList, String.toList_ofList]
  induction s.toList with
  | nil => rfl
  | cons c cs ih =>
    rw [List.flatMap_cons, List.append_assoc, runes_encode, ih]
    rfl

theorem runes_utf8 (s : String) : runes (utf8 s) = s.toList.map encoded := by
  simpa [runes, runesAfter] using runes_utf8_append s []

theorem toText_utf8 (s : String) : toText (utf8 s) = s := by
  have hchars : (s.toList.map encoded).map (·.char) = s.toList := by
    rw [List.map_map]
    exact List.map_id _
  rw [toText, runes_utf8, hchars, String.ofList_toList]

end Bytes

end HostScript
