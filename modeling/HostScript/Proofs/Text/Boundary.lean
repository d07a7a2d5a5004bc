import HostScript.Proofs.Text.Runes
import Mathlib.Data.List.Basic

/-!
Offsets between two runes. A text that is cut at such an offset has the runes of its two parts, and
the runes in front of it do not depend on what stands behind it.
-/

set_option autoImplicit false

namespace HostScript

namespace Rune

theorem sizes_eq_zero {rs : List Rune} (hp : ∀ r ∈ rs, 0 < r.size) (h : sizes rs = 0) : rs = [] := by
  cases rs with
  | nil => rfl
  | cons r rs =>
    have hr := hp r List.mem_cons_self
    simp only [sizes] at h
    omega

theorem length_le_sizes {rs : List Rune} (hp : ∀ r ∈ rs, 0 < r.size) : rs.length ≤ sizes rs := by
  induction rs with
  | nil => exact Nat.le_refl 0
  | cons r rs ih =>
    have hr := hp r List.mem_cons_self
    have hrs := ih fun q hq => hp q (List.mem_cons_of_mem _ hq)
    simp only [List.length_cons, sizes]
    omega

theorem prefix_of_sizes_le {rs ts all : List Rune} (hp : ∀ r ∈ all, 0 < r.size) (hr : rs <+: all)
    (ht : ts <+: all) (h : sizes rs ≤ sizes ts) : rs <+: ts := by
  rcases List.prefix_or_prefix_of_prefix hr ht with hle | ⟨more, rfl⟩
  · exact hle
  · rw [sizes_append] at h
    have hm : ∀ r ∈ more, 0 < r.size := fun r hm => hp r (hr.subset (List.mem_append_right _ hm))
    have hnil : more = [] := sizes_eq_zero hm (by omega)
    simp [hnil]

/-- Every rune takes room, and it has at least one code unit. -/
theorem units_lt_of_sizes_lt {rs ts : List Rune} (h : rs <+: ts) (hlt : sizes rs < sizes ts) :
    units rs < units ts := by
  obtain ⟨more, rfl⟩ := h
  cases more with
  | nil => simp at hlt
  | cons r more =>
    have hr := unitsOf_pos r.char
    rw [units_append, units]
    omega

theorem units_le_of_prefix {rs ts : List Rune} (h : rs <+: ts) : units rs ≤ units ts := by
  obtain ⟨more, rfl⟩ := h
  rw [units_append]
  omega

end Rune

namespace Bytes

theorem headRune_append {b : UInt8} {bs rest : Bytes}
    (h : (headRune b (bs ++ rest)).size ≤ bs.length + 1) :
    headRune b (bs ++ rest) = headRune b bs := by
  cases hw : wellFormedHead? b (bs ++ rest) with
  | some r =>
    obtain ⟨tail, hbytes, hp, hlocal⟩ := wellFormedHead?_eq_some hw
    have hr : headRune b (bs ++ rest) = r := by simp [headRune, hw]
    have hlen : tail.length ≤ bs.length := by
      rw [hr, Rune.size, hbytes, List.length_cons] at h
      omega
    obtain ⟨more, rfl⟩ := List.prefix_of_prefix_length_le hp (List.prefix_append bs rest) hlen
    rw [hr]
    simp [headRune, hlocal]
  | none =>
    cases hs : wellFormedHead? b bs with
    | none => simp [headRune, hw, hs]
    | some r =>
      obtain ⟨tail, _, ⟨more, rfl⟩, hlocal⟩ := wellFormedHead?_eq_some hs
      rw [List.append_assoc, hlocal] at hw
      cases hw

theorem prefix_runes_of_append {as bs : Bytes} {rs : List Rune} (h : rs <+: runes (as ++ bs))
    (hl : Rune.sizes rs ≤ as.length) : rs <+: runes as := by
  induction rs generalizing as with
  | nil => exact List.nil_prefix
  | cons r rs ih =>
    have hr : 0 < r.size := size_pos_of_mem_runes (h.subset List.mem_cons_self)
    simp only [Rune.sizes] at hl
    cases as with
    | nil =>
      simp only [List.length_nil] at hl
      omega
    | cons a as =>
      rw [List.cons_append, runes_cons, List.cons_prefix_cons] at h
      obtain ⟨rfl, h⟩ := h
      simp only [List.length_cons] at hl
      have hhead : headRune a (as ++ bs) = headRune a as := headRune_append (by omega)
      rw [hhead] at h hl hr ⊢
      rw [List.drop_append_of_le_length (by omega)] at h
      rw [runes_cons, List.cons_prefix_cons]
      refine ⟨rfl, ih h ?_⟩
      rw [List.length_drop]
      omega

/-- A text may be cut in front of an ASCII byte. -/
theorem runes_append_of_ascii (bs : Bytes) {rest : Bytes} (h : ∀ a ∈ rest[0]?, a < 0x80) :
    runes (bs ++ rest) = runes bs ++ runes rest := by
  cases rest with
  | nil => simp [runes, runesAfter]
  | cons a rest =>
    have ha : a < 0x80 := h a rfl
    rw [runes_append_ascii ha, runes_cons_ascii ha]

theorem runes_drop {bs : Bytes} {rs ts : List Rune} (h : runes bs = rs ++ ts) :
    runes (bs.drop (Rune.sizes rs)) = ts := by
  induction rs generalizing bs with
  | nil => simpa [Rune.sizes] using h
  | cons r rs ih =>
    cases bs with
    | nil => simp [runes, runesAfter] at h
    | cons b bs =>
      rw [runes_cons, List.cons_append, List.cons.injEq] at h
      obtain ⟨rfl, h⟩ := h
      have hb := (headRune_size b bs).1
      have hs : Rune.sizes (headRune b bs :: rs) = (headRune b bs).size - 1 + Rune.sizes rs + 1 := by
        simp only [Rune.sizes]
        omega
      rw [hs, List.drop_succ_cons, ← List.drop_drop]
      exact ih h

theorem runes_take {bs : Bytes} {rs ts : List Rune} (h : runes bs = rs ++ ts) :
    runes (bs.take (Rune.sizes rs)) = rs := by
  have hlen : Rune.sizes rs + Rune.sizes ts = bs.length := by
    rw [← Rune.sizes_append, ← h, sizes_runes]
  have htake : (bs.take (Rune.sizes rs)).length = Rune.sizes rs := by
    rw [List.length_take]
    omega
  have hp : rs <+: runes (bs.take (Rune.sizes rs) ++ bs.drop (Rune.sizes rs)) := by
    rw [List.take_append_drop, h]
    exact List.prefix_append rs ts
  obtain ⟨more, hmore⟩ := prefix_runes_of_append hp (Nat.le_of_eq htake.symm)
  have hsizes := sizes_runes (bs.take (Rune.sizes rs))
  rw [← hmore, Rune.sizes_append, htake] at hsizes
  have hpos : ∀ r ∈ more, 0 < r.size := by
    intro r hr
    exact size_pos_of_mem_runes (hmore ▸ List.mem_append_right rs hr)
  rw [← hmore, Rune.sizes_eq_zero hpos (by omega), List.append_nil]

/-- Runes that stand side by side are each decoded for themselves. -/
theorem runes_join {bs : Bytes} {rs ts : List Rune} (h : runes bs = rs ++ ts) :
    runes (Rune.join rs) = rs ∧ runes (Rune.join ts) = ts := by
  have hjoin := join_runes bs
  rw [h, Rune.join_append] at hjoin
  have htake := runes_take h
  have hdrop := runes_drop h
  rw [← hjoin, ← Rune.length_join, List.take_left] at htake
  rw [← hjoin, ← Rune.length_join, List.drop_left] at hdrop
  exact ⟨htake, hdrop⟩

/-- The offset stands between two runes, or at an end of the text. -/
def IsBoundary (bs : Bytes) (k : Nat) : Prop := ∃ rs, rs <+: runes bs ∧ Rune.sizes rs = k

namespace IsBoundary

variable {bs : Bytes} {k : Nat}

theorem runes_split (h : bs.IsBoundary k) : runes bs = runes (bs.take k) ++ runes (bs.drop k) := by
  obtain ⟨rs, ⟨ts, h⟩, rfl⟩ := h
  rw [runes_take h.symm, runes_drop h.symm, h]

theorem le_length (h : bs.IsBoundary k) : k ≤ bs.length := by
  obtain ⟨rs, ⟨ts, h⟩, rfl⟩ := h
  rw [← sizes_runes bs, ← h, Rune.sizes_append]
  omega

theorem of_append {as : Bytes} (h : (as ++ bs).IsBoundary k) (hk : k ≤ as.length) :
    as.IsBoundary k := by
  obtain ⟨rs, hp, rfl⟩ := h
  exact ⟨rs, prefix_runes_of_append hp hk, rfl⟩

theorem add {a : Nat} (ha : bs.IsBoundary a) (h : IsBoundary (bs.drop a) k) : bs.IsBoundary (a + k) := by
  obtain ⟨rs, ⟨ts, hts⟩, rfl⟩ := ha
  obtain ⟨more, hmore, rfl⟩ := h
  rw [runes_drop hts.symm] at hmore
  refine ⟨rs ++ more, ?_, Rune.sizes_append rs more⟩
  rw [← hts]
  exact (List.prefix_append_right_inj rs).mpr hmore

theorem sub {a : Nat} (ha : bs.IsBoundary a) (h : bs.IsBoundary k) (hle : a ≤ k) :
    IsBoundary (bs.drop a) (k - a) := by
  obtain ⟨rs, hrs, rfl⟩ := ha
  obtain ⟨ks, hks, rfl⟩ := h
  obtain ⟨more, rfl⟩ := Rune.prefix_of_sizes_le (fun r => size_pos_of_mem_runes) hrs hks hle
  obtain ⟨ts, hts⟩ := hks
  refine ⟨more, ⟨ts, ?_⟩, by rw [Rune.sizes_append]; omega⟩
  rw [List.append_assoc] at hts
  exact (runes_drop hts.symm).symm

end IsBoundary

theorem isBoundary_of_split {as bs : Bytes} (h : runes (as ++ bs) = runes as ++ runes bs) :
    (as ++ bs).IsBoundary as.length :=
  ⟨runes as, ⟨runes bs, h.symm⟩, sizes_runes as⟩

/-- A boundary of a part of a text between two boundaries is one of the text. -/
theorem isBoundary_of_slice {bs : Bytes} {a b k : Nat} (ha : bs.IsBoundary a) (hb : bs.IsBoundary b)
    (hle : a ≤ b) (h : (bs.slice a b).IsBoundary k) : bs.IsBoundary (a + k) := by
  refine ha.add ?_
  obtain ⟨rs, hrs, rfl⟩ := h
  refine ⟨rs, ?_, rfl⟩
  rw [(ha.sub hb hle).runes_split]
  exact hrs.trans (List.prefix_append _ _)

theorem isBoundary_length (bs : Bytes) : bs.IsBoundary bs.length :=
  ⟨runes bs, List.prefix_refl _, sizes_runes bs⟩

theorem isBoundary_zero (bs : Bytes) : bs.IsBoundary 0 := ⟨[], List.nil_prefix, rfl⟩

theorem isBoundary_behind_ascii {front : Bytes} (rest : Bytes) (h : ∀ b ∈ front.getLast?, b < 0x80) :
    (front ++ rest).IsBoundary front.length := by
  obtain rfl | ⟨before, b, rfl⟩ := List.eq_nil_or_concat front
  · exact isBoundary_zero rest
  · rw [List.concat_eq_append] at h ⊢
    have hb : b < 0x80 := h b (by simp)
    refine isBoundary_of_split ?_
    rw [List.append_assoc, List.singleton_append, runes_append_ascii hb, runes_append_ascii hb, List.append_assoc]
    rfl

end Bytes

end HostScript
