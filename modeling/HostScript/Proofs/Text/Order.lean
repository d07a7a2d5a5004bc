import HostScript.Proofs.Text.Digits
import HostScript.Proofs.Text.Encoding
import HostScript.Text.Split
import Mathlib.Data.String.Basic

/-!
The order of strings. Strings are ordered as their bytes are, because a greater character has greater bytes,
and sorting puts them in ascending order.
-/

set_option autoImplicit false

namespace HostScript

/-- The first byte in which two characters differ is less in the lesser one, and neither of them begins
the other. -/
theorem encode_lt {c d : Char} (h : c < d) (as bs : Bytes) :
    String.utf8EncodeChar c ++ as < String.utf8EncodeChar d ++ bs := by
  have hvalid := Bytes.toNat_ne_surrogate d
  have hlt : c.val.toNat < d.val.toNat := h
  unfold String.utf8EncodeChar
  simp only
  generalize c.val.toNat = m at hlt ⊢
  generalize d.val.toNat = n at hlt hvalid ⊢
  -- One case for each pair of lengths; those in which the lesser character is longer do not arise.
  repeat' split
  all_goals
    simp (disch := omega) only [List.cons_append, List.nil_append, List.cons_lt_cons_iff, UInt8.lt_iff_toNat_lt,
      ← UInt8.toNat_inj, UInt8.toNat_ofNat', Nat.mod_eq_of_lt]
    omega

theorem flatMap_encode_lt {cs ds : List Char} (h : cs < ds) :
    cs.flatMap String.utf8EncodeChar < ds.flatMap String.utf8EncodeChar := by
  induction cs generalizing ds with
  | nil =>
    obtain ⟨d, ds, rfl⟩ : ∃ d more, ds = d :: more := by
      refine List.exists_cons_of_ne_nil ?_
      rintro rfl
      exact List.lt_irrefl [] h
    obtain ⟨b, tail, hbytes, -⟩ := Bytes.wellFormedHead?_encode d
    rw [List.flatMap_cons, hbytes]
    exact List.nil_lt_cons _ _
  | cons c cs ih =>
    cases ds with
    | nil => exact absurd h (List.not_lt_nil _)
    | cons d ds =>
      rw [List.flatMap_cons, List.flatMap_cons]
      rcases List.cons_lt_cons_iff.mp h with hlt | ⟨rfl, hlt⟩
      · exact encode_lt hlt _ _
      · exact List.append_left_lt (ih hlt)

theorem utf8_lt_iff (a b : String) : utf8 a < utf8 b ↔ a < b := by
  have hlt {a b : String} (h : a < b) : utf8 a < utf8 b := by
    rw [← String.ofList_toList (s := a), ← String.ofList_toList (s := b), utf8_ofList, utf8_ofList]
    exact flatMap_encode_lt (String.lt_iff_toList_lt.mp h)
  refine ⟨fun h => ?_, hlt⟩
  rcases lt_trichotomy a b with hab | rfl | hba
  · exact hab
  · exact absurd h (List.lt_irrefl _)
  · exact absurd h (List.lt_asymm (hlt hba))

theorem sortStrings_pairwise (xs : List String) : (sortStrings xs).Pairwise (· ≤ ·) := by
  have hle (a b : String) : (!decide (b < a)) = true ↔ a ≤ b := by
    rw [Bool.not_eq_true', decide_eq_false_iff_not, not_lt]
  have htrans (a b c : String) (hab : (!decide (b < a)) = true) (hbc : (!decide (c < b)) = true) :
      (!decide (c < a)) = true := (hle a c).mpr (le_trans ((hle a b).mp hab) ((hle b c).mp hbc))
  have htotal (a b : String) : (!decide (b < a) || !decide (a < b)) = true := by
    rw [Bool.or_eq_true, hle, hle]
    exact le_total a b
  exact (List.pairwise_mergeSort htrans htotal xs).imp fun h => (hle _ _).mp h

theorem sortStrings_ascending {xs : List String} (h : xs.Nodup) :
    (sortStrings xs).Pairwise fun a b => utf8 a < utf8 b := by
  have hnodup : (sortStrings xs).Nodup := (List.mergeSort_perm xs _).nodup_iff.mpr h
  refine ((sortStrings_pairwise xs).and hnodup).imp fun ⟨hle, hne⟩ => ?_
  exact (utf8_lt_iff _ _).mpr (lt_of_le_of_ne hle hne)

end HostScript
