import HostScript.Proofs.Text.Boundary

/-!
The rune that ends a text. Decoding from the end finds the rune that decoding from the beginning comes to
last, because no rune reaches over the first byte of a well-formed sequence.
-/

set_option autoImplicit false

namespace HostScript

namespace Bytes

theorem isTail_of_wellFormedHead? {b : UInt8} {bs : Bytes} {r : Rune} (h : wellFormedHead? b bs = some r) :
    isTail b = false := by
  refine Bool.eq_false_iff.mpr fun ht => ?_
  simp only [isTail, Bool.and_eq_true, decide_eq_true_eq] at ht
  have hlow : ¬ b < 0x80 := UInt8.not_lt.mpr ht.1
  have hhigh {k : UInt8} (hk : 0xBF < k) : ¬ k ≤ b := UInt8.not_le.mpr (UInt8.lt_of_le_of_lt ht.2 hk)
  simp [wellFormedHead?, hlow, hhigh] at h

theorem size_wellFormedHead?_le {b : UInt8} {bs : Bytes} {r : Rune} (h : wellFormedHead? b bs = some r) :
    r.size ≤ 4 := by
  unfold wellFormedHead? at h
  repeat' split at h
  all_goals
    cases h
  all_goals
    simp [Rune.size]

theorem size_headRune_le (b : UInt8) (bs : Bytes) : (headRune b bs).size ≤ 4 := by
  unfold headRune
  cases h : wellFormedHead? b bs with
  | none => simp [Rune.size]
  | some r => exact size_wellFormedHead?_le h

theorem isTail_of_size_headRune {b : UInt8} {bs : Bytes} (h : 1 < (headRune b bs).size) : isTail b = false := by
  cases hw : wellFormedHead? b bs with
  | none => simp [headRune, hw, Rune.size] at h
  | some r => exact isTail_of_wellFormedHead? hw

theorem lastOfSize?_eq_some {bs : Bytes} {size : Nat} {r : Rune} (hsize : 0 < size) :
    lastOfSize? bs size = some r ↔
      ∃ front b tail, bs = front ++ b :: tail ∧ tail.length + 1 = size ∧ headRune b tail = r ∧ r.size = size := by
  unfold lastOfSize?
  constructor
  · intro h
    split at h
    · rename_i hle
      obtain ⟨b, tail, htail⟩ : ∃ b tail, bs.drop (bs.length - size) = b :: tail := by
        refine List.exists_cons_of_ne_nil fun hnil => ?_
        have hlen := List.drop_eq_nil_iff.mp hnil
        omega
      have hlen := congrArg List.length htail
      rw [List.length_drop, List.length_cons] at hlen
      rw [htail, head?, Option.bind_some] at h
      split at h
      · rename_i hr
        obtain rfl := Option.some.inj h
        exact ⟨bs.take (bs.length - size), b, tail, by rw [← htail, List.take_append_drop], by omega, rfl, hr⟩
      · cases h
    · cases h
  · rintro ⟨front, b, tail, rfl, htail, rfl, hr⟩
    have hlen : (front ++ b :: tail).length - size = front.length := by
      rw [List.length_append, List.length_cons]
      omega
    have hle : size ≤ (front ++ b :: tail).length := by
      rw [List.length_append, List.length_cons]
      omega
    rw [if_pos hle, hlen, List.drop_left, head?, Option.bind_some, if_pos hr]

theorem runes_eq_singleton {b : UInt8} {tail : Bytes} (h : (headRune b tail).size = tail.length + 1) :
    runes (b :: tail) = [headRune b tail] := by
  rw [runes_cons, h, Nat.add_sub_cancel, List.drop_length]
  rfl

/-- A sequence of several bytes that ends the text is what decoding comes to last. -/
theorem getLast?_of_lastOfSize? {bs : Bytes} {size : Nat} {r : Rune} (hsize : 1 < size)
    (h : lastOfSize? bs size = some r) : (runes bs).getLast? = some r := by
  obtain ⟨front, b, tail, rfl, htail, rfl, hr⟩ := (lastOfSize?_eq_some (by omega)).mp h
  rw [runes_append_lead (isTail_of_size_headRune (hr ▸ hsize)), runes_eq_singleton (by omega),
    List.getLast?_append_of_ne_nil _ (List.cons_ne_nil _ _)]
  rfl

theorem lastOfSize?_of_runes {bs : Bytes} {rs : List Rune} {r : Rune} (h : runes bs = rs ++ [r]) :
    (0 < r.size ∧ r.size ≤ 4) ∧ lastOfSize? bs r.size = some r := by
  have hmem : r ∈ runes bs := by simp [h]
  have hpos := size_pos_of_mem_runes hmem
  have hjoin := join_runes bs
  have hlast : runes r.bytes = [r] := by simpa [Rune.join] using (runes_join h).2
  obtain ⟨b, tail, hbytes⟩ := List.exists_cons_of_length_pos hpos
  rw [hbytes, runes_cons, List.cons_eq_cons] at hlast
  have hlen : tail.length + 1 = r.size := by rw [Rune.size, hbytes, List.length_cons]
  refine ⟨⟨hpos, hlast.1 ▸ size_headRune_le b tail⟩, (lastOfSize?_eq_some hpos).mpr ?_⟩
  refine ⟨Rune.join rs, b, tail, ?_, hlen, hlast.1, rfl⟩
  rw [← hjoin, h, ← hbytes]
  simp [Rune.join]

/-- Decoding from the end and from the beginning agree about the last rune. -/
theorem last?_eq (bs : Bytes) : last? bs = (runes bs).getLast? := by
  obtain hnil | ⟨rs, r, hr⟩ := List.eq_nil_or_concat (runes bs)
  · cases bs with
    | nil => rfl
    | cons b bs =>
      rw [runes_cons] at hnil
      cases hnil
  · rw [List.concat_eq_append] at hr
    obtain ⟨⟨hpos, hle⟩, hself⟩ := lastOfSize?_of_runes hr
    have hlast : (runes bs).getLast? = some r := by rw [hr, List.getLast?_concat]
    have hlong (size : Nat) (hsize : 1 < size) :
        lastOfSize? bs size = if r.size = size then some r else none := by
      split
      · rename_i heq
        exact heq ▸ hself
      · rename_i hne
        refine Option.eq_none_iff_forall_ne_some.mpr fun q hq => hne ?_
        obtain rfl : r = q := Option.some.inj (hlast.symm.trans (getLast?_of_lastOfSize? hsize hq))
        obtain ⟨-, -, -, -, -, -, heq⟩ := (lastOfSize?_eq_some (by omega)).mp hq
        exact heq
    have hsizes : r.size = 1 ∨ r.size = 2 ∨ r.size = 3 ∨ r.size = 4 := by omega
    rw [hlast, last?]
    simp only [List.findSome?_cons, hlong 4 (by decide), hlong 3 (by decide), hlong 2 (by decide)]
    rcases hsizes with h | h | h | h
    · rw [h] at hself
      simp [h, hself]
    · simp [h]
    · simp [h]
    · simp [h]

end Bytes

end HostScript
