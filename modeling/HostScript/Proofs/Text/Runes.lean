import HostScript.Text.Rune

/-!
The runes of a byte sequence. They take up all of its bytes, and an ASCII byte is a rune of its own,
wherever it stands. Trimming takes white space runes from both ends.
-/

set_option autoImplicit false

namespace HostScript

theorem unitsOf_pos (c : Char) : 0 < unitsOf c := by
  unfold unitsOf
  split <;> omega

theorem unitsOf_le_two (c : Char) : unitsOf c ≤ 2 := by
  unfold unitsOf
  split <;> omega

namespace Rune

theorem units_append (rs ts : List Rune) : units (rs ++ ts) = units rs + units ts := by
  induction rs with
  | nil => simp [units]
  | cons r rs ih => simp [units, ih, Nat.add_assoc]

theorem sizes_append (rs ts : List Rune) : sizes (rs ++ ts) = sizes rs + sizes ts := by
  induction rs with
  | nil => simp [sizes]
  | cons r rs ih => simp [sizes, ih, Nat.add_assoc]

theorem join_cons (r : Rune) (rs : List Rune) : join (r :: rs) = r.bytes ++ join rs := rfl

theorem join_append (rs ts : List Rune) : join (rs ++ ts) = join rs ++ join ts := List.flatMap_append

theorem length_join (rs : List Rune) : (join rs).length = sizes rs := by
  induction rs with
  | nil => rfl
  | cons r rs ih =>
    rw [join_cons, List.length_append, ih]
    rfl

end Rune

namespace Bytes

/-- A well-formed sequence is one whatever follows it. -/
theorem wellFormedHead?_eq_some {b : UInt8} {bs : Bytes} {r : Rune}
    (h : wellFormedHead? b bs = some r) :
    ∃ tail, r.bytes = b :: tail ∧ tail <+: bs ∧ ∀ rest, wellFormedHead? b (tail ++ rest) = some r := by
  unfold wellFormedHead? at h
  split at h
  · rename_i hb
    exact ⟨[], by simp [← Option.some.inj h], List.nil_prefix, by simp [wellFormedHead?, hb, h]⟩
  · rename_i hb
    split at h
    · rename_i htwo
      split at h
      · rename_i c rest
        split at h
        · rename_i hc
          exact ⟨[c], by simp [← Option.some.inj h], by simp, by simp [wellFormedHead?, hb, htwo, hc, h]⟩
        · exact absurd h (by simp)
      · exact absurd h (by simp)
    · rename_i htwo
      split at h
      · rename_i hthree
        split at h
        · rename_i c d rest
          split at h
          · rename_i hcd
            exact ⟨[c, d], by simp [← Option.some.inj h], by simp,
              by simp [wellFormedHead?, hb, htwo, hthree, hcd, h]⟩
          · exact absurd h (by simp)
        · exact absurd h (by simp)
      · rename_i hthree
        split at h
        · rename_i hfour
          split at h
          · rename_i c d e rest
            split at h
            · rename_i hcde
              exact ⟨[c, d, e], by simp [← Option.some.inj h], by simp,
                by simp [wellFormedHead?, hb, htwo, hthree, hfour, hcde, h]⟩
            · exact absurd h (by simp)
          · exact absurd h (by simp)
        · exact absurd h (by simp)

theorem headRune_bytes (b : UInt8) (bs : Bytes) :
    ∃ tail, (headRune b bs).bytes = b :: tail ∧ tail <+: bs := by
  unfold headRune
  cases h : wellFormedHead? b bs with
  | none => exact ⟨[], rfl, List.nil_prefix⟩
  | some r =>
    obtain ⟨tail, ht, hp, _⟩ := wellFormedHead?_eq_some h
    exact ⟨tail, ht, hp⟩

theorem headRune_size (b : UInt8) (bs : Bytes) :
    0 < (headRune b bs).size ∧ (headRune b bs).size - 1 ≤ bs.length := by
  obtain ⟨tail, ht, hp⟩ := headRune_bytes b bs
  have hl := hp.length_le
  simp only [Rune.size, ht, List.length_cons]
  omega

theorem unitsOf_headRune_le (b : UInt8) (bs : Bytes) :
    unitsOf (headRune b bs).char ≤ (headRune b bs).size := by
  have hascii : ∀ k < 128, unitsOf (Char.ofNat k) ≤ 1 := by decide
  unfold headRune
  cases h : wellFormedHead? b bs with
  | none =>
    have hone : unitsOf replacement ≤ 1 := by decide
    exact hone
  | some r =>
    obtain ⟨tail, ht, _, hlocal⟩ := wellFormedHead?_eq_some h
    have htwo := unitsOf_le_two r.char
    cases tail with
    | cons c tail =>
      simp only [Option.getD_some, Rune.size, ht, List.length_cons]
      omega
    | nil =>
      have hone := hlocal []
      by_cases hb : b < 0x80
      · simp only [wellFormedHead?, hb, if_true, Option.some.injEq] at hone
        rw [← hone]
        exact hascii b.toNat (UInt8.lt_iff_toNat_lt.mp hb)
      · simp [wellFormedHead?, hb] at hone

theorem exists_headRune {skip : Nat} {bs : Bytes} {r : Rune} (h : r ∈ runesAfter skip bs) :
    ∃ b rest, r = headRune b rest := by
  fun_induction runesAfter skip bs with
  | case1 skip => exact absurd h List.not_mem_nil
  | case2 skip b bs ih => exact ih h
  | case3 b bs ih =>
    cases List.mem_cons.mp h with
    | inl h => exact ⟨b, bs, h⟩
    | inr h => exact ih h

theorem size_pos_of_mem_runesAfter {skip : Nat} {bs : Bytes} {r : Rune} (h : r ∈ runesAfter skip bs) :
    0 < r.size := by
  obtain ⟨b, rest, rfl⟩ := exists_headRune h
  exact (headRune_size b rest).1

theorem size_pos_of_mem_runes {bs : Bytes} {r : Rune} (h : r ∈ runes bs) : 0 < r.size :=
  size_pos_of_mem_runesAfter h

theorem units_runesAfter_le (skip : Nat) (bs : Bytes) :
    Rune.units (runesAfter skip bs) ≤ Rune.sizes (runesAfter skip bs) := by
  fun_induction runesAfter skip bs with
  | case1 skip => exact Nat.le_refl _
  | case2 skip b bs ih => exact ih
  | case3 b bs ih => exact Nat.add_le_add (unitsOf_headRune_le b bs) ih

theorem join_runesAfter (skip : Nat) (bs : Bytes) : Rune.join (runesAfter skip bs) = bs.drop skip := by
  fun_induction runesAfter skip bs with
  | case1 skip => simp [Rune.join]
  | case2 skip b bs ih => simpa using ih
  | case3 b bs ih =>
    obtain ⟨tail, ht, rest, rfl⟩ := headRune_bytes b bs
    have hs : (headRune b (tail ++ rest)).size - 1 = tail.length := by simp [Rune.size, ht]
    rw [hs, List.drop_left] at ih
    simpa [Rune.join, ht, hs] using ih

theorem join_runes (bs : Bytes) : Rune.join (runes bs) = bs := join_runesAfter 0 bs

theorem sizes_runes (bs : Bytes) : Rune.sizes (runes bs) = bs.length := by
  rw [← Rune.length_join, join_runes]

theorem units_le_length (bs : Bytes) : units bs ≤ bs.length :=
  sizes_runes bs ▸ units_runesAfter_le 0 bs

theorem runesAfter_eq (skip : Nat) (bs : Bytes) : runesAfter skip bs = runes (bs.drop skip) := by
  induction bs generalizing skip with
  | nil => simp [runes, runesAfter]
  | cons b bs ih =>
    cases skip with
    | zero => rfl
    | succ skip => simpa [runesAfter] using ih skip

theorem runes_cons (b : UInt8) (bs : Bytes) :
    runes (b :: bs) = headRune b bs :: runes (bs.drop ((headRune b bs).size - 1)) := by
  rw [← runesAfter_eq]
  rfl

theorem units_eq_zero {bs : Bytes} : bs.units = 0 ↔ bs = [] := by
  cases bs with
  | nil => exact ⟨fun _ => rfl, fun _ => rfl⟩
  | cons b bs =>
    have hpos := unitsOf_pos (headRune b bs).char
    rw [units, runes_cons, Rune.units]
    simp only [reduceCtorEq, iff_false]
    omega

theorem runes_cons_ascii {b : UInt8} (h : b < 0x80) (bs : Bytes) :
    runes (b :: bs) = ⟨Char.ofNat b.toNat, [b]⟩ :: runes bs := by
  have hh : headRune b bs = ⟨Char.ofNat b.toNat, [b]⟩ := by simp [headRune, wellFormedHead?, h]
  simp [runes, runesAfter, hh, Rune.size]

theorem isTail_ascii {a : UInt8} (h : a < 0x80) : isTail a = false := by
  have hn : ¬ 0x80 ≤ a := UInt8.not_le.mpr h
  simp [isTail, hn]

theorem isTail_of_isSecond {first a : UInt8} (h : isSecond first a = true) : isTail a = true := by
  have hwithin {low high : UInt8} (hlow : 0x80 ≤ low) (hhigh : high ≤ 0xBF)
      (h : (low ≤ a && a ≤ high) = true) : isTail a = true := by
    simp only [Bool.and_eq_true, decide_eq_true_eq] at h
    simp [isTail, UInt8.le_trans hlow h.1, UInt8.le_trans h.2 hhigh]
  unfold isSecond at h
  split at h
  · exact hwithin (by decide) (by decide) h
  · split at h
    · exact hwithin (by decide) (by decide) h
    · split at h
      · exact hwithin (by decide) (by decide) h
      · split at h
        · exact hwithin (by decide) (by decide) h
        · exact h

/-- A rune does not reach over a byte that goes on no sequence. -/
theorem headRune_append_lead {a : UInt8} (h : isTail a = false) (b : UInt8) (bs rest : Bytes) :
    headRune b (bs ++ a :: rest) = headRune b bs := by
  have hs : isSecond b a = false := Bool.eq_false_iff.mpr fun hsecond => by
    rw [isTail_of_isSecond hsecond] at h
    cases h
  unfold headRune wellFormedHead?
  match bs with
  | [] => cases rest with
    | nil => simp [h]
    | cons c rest => cases rest <;> simp [h, hs]
  | [c] => cases rest <;> simp [h]
  | [c, d] => simp [h]
  | c :: d :: e :: bs => simp

theorem headRune_append_ascii {a : UInt8} (h : a < 0x80) (b : UInt8) (bs rest : Bytes) :
    headRune b (bs ++ a :: rest) = headRune b bs :=
  headRune_append_lead (isTail_ascii h) b bs rest

theorem runesAfter_append_lead {a : UInt8} (h : isTail a = false) (rest : Bytes) (skip : Nat) (bs : Bytes)
    (hs : skip ≤ bs.length) : runesAfter skip (bs ++ a :: rest) = runesAfter skip bs ++ runes (a :: rest) := by
  induction bs generalizing skip with
  | nil =>
    obtain rfl : skip = 0 := by simpa using hs
    rfl
  | cons b bs ih =>
    cases skip with
    | zero =>
      have hb := (headRune_size b bs).2
      simp [runesAfter, headRune_append_lead h, ih _ hb]
    | succ skip => simpa [runesAfter] using ih skip (by simpa using hs)

theorem runes_append_lead {a : UInt8} (h : isTail a = false) (bs rest : Bytes) :
    runes (bs ++ a :: rest) = runes bs ++ runes (a :: rest) :=
  runesAfter_append_lead h rest 0 bs (Nat.zero_le _)

theorem runes_append_ascii {a : UInt8} (h : a < 0x80) (bs rest : Bytes) :
    runes (bs ++ a :: rest) = runes bs ++ ⟨Char.ofNat a.toNat, [a]⟩ :: runes rest := by
  rw [runes_append_lead (isTail_ascii h), runes_cons_ascii h]

def returnRune : Rune := ⟨'\r', [carriageReturn]⟩

theorem runes_append_return (bs : Bytes) :
    runes (bs ++ [carriageReturn]) = runes bs ++ [returnRune] :=
  runes_append_ascii (by decide) bs []

theorem units_append_return (bs : Bytes) : units (bs ++ [carriageReturn]) = units bs + 1 := by
  rw [units, runes_append_return, Rune.units_append]
  rfl

theorem trim_append_return (bs : Bytes) : trim (bs ++ [carriageReturn]) = trim bs := by
  have hr : isSpace returnRune.char = true := by decide
  simp only [trim, runes_append_return, List.dropWhile_append]
  by_cases he : ((runes bs).dropWhile fun r => isSpace r.char) = []
  · simp [he, hr]
  · simp [he, hr]

theorem trim_cons_indent {b : UInt8} (h : b = blank ∨ b = tab) (bs : Bytes) :
    trim (b :: bs) = trim bs := by
  have hb : b < 0x80 ∧ isSpace (Char.ofNat b.toNat) = true := by
    cases h with
    | inl h => subst h; decide
    | inr h => subst h; decide
  simp [trim, runes_cons_ascii hb.1, hb.2]

theorem trim_dropIndent (bs : Bytes) : trim bs.dropIndent = trim bs := by
  induction bs with
  | nil => rfl
  | cons b bs ih =>
    by_cases h : b = blank ∨ b = tab
    · have hd : dropIndent (b :: bs) = dropIndent bs := by
        rw [dropIndent, List.dropWhile_cons_of_pos (by simpa using h)]
        rfl
      rw [hd, ih, trim_cons_indent h]
    · have hd : dropIndent (b :: bs) = b :: bs := by
        rw [dropIndent, List.dropWhile_cons_of_neg (by simpa using h)]
      rw [hd]

theorem trim_cons_ascii {b : UInt8} (ha : b < 0x80) (hs : isSpace (Char.ofNat b.toNat) = false)
    (bs : Bytes) : ∃ tail, trim (b :: bs) = b :: tail := by
  simp only [trim, runes_cons_ascii ha, List.dropWhile_cons, hs]
  simp only [Bool.false_eq_true, if_false, List.reverse_cons, List.dropWhile_append]
  by_cases he : ((runes bs).reverse.dropWhile fun r => isSpace r.char) = []
  · exact ⟨[], by simp [he, hs, Rune.join]⟩
  · simp [he, Rune.join]

end Bytes

end HostScript
