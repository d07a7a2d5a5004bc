import HostScript.Text.Split
import Mathlib.Data.List.Basic

set_option autoImplicit false

namespace HostScript

variable {sep : Char} {cs : List Char} {parts : List (List Char)}

theorem splitChars_eq_splitOn (sep : Char) (cs : List Char) : splitChars sep cs = cs.splitOn sep := by
  induction cs with
  | nil => exact (List.splitOn_nil sep).symm
  | cons c cs ih =>
    rw [splitChars, List.splitOn_cons_eq_if_modifyHead, ih]
    obtain ⟨part, more, hparts⟩ := List.exists_cons_of_ne_nil (List.splitOn_ne_nil sep cs)
    rw [hparts]
    by_cases h : c = sep <;> simp [h]

theorem joinChars_eq_intercalate (sep : Char) (parts : List (List Char)) :
    joinChars sep parts = [sep].intercalate parts := by
  induction parts with
  | nil => rfl
  | cons part parts ih =>
    cases parts with
    | nil => exact List.intercalate_singleton.symm
    | cons next more =>
      rw [List.intercalate_cons_of_ne_nil (List.cons_ne_nil next more), ← ih, joinChars]
      · simp
      · simp

theorem splitChars_ne_nil (sep : Char) (cs : List Char) : splitChars sep cs ≠ [] := by
  rw [splitChars_eq_splitOn]
  exact List.splitOn_ne_nil sep cs

theorem splitChars_joinChars (h : ∀ part ∈ parts, sep ∉ part) (hne : parts ≠ []) :
    splitChars sep (joinChars sep parts) = parts := by
  rw [splitChars_eq_splitOn, joinChars_eq_intercalate, List.splitOn_intercalate sep h hne]

theorem splitChars_append (sep : Char) (as bs : List Char) :
    splitChars sep (as ++ sep :: bs) = splitChars sep as ++ splitChars sep bs := by
  simp only [splitChars_eq_splitOn, List.splitOn_append_cons_self]

theorem of_mem_splitChars {part : List Char} (h : part ∈ splitChars sep cs) : ∀ c ∈ part, c ≠ sep ∧ c ∈ cs := by
  fun_induction splitChars sep cs generalizing part with
  | case1 => simp_all
  | case2 cs ih =>
    rcases List.mem_cons.mp h with rfl | h
    · simp
    · exact fun c hc => (ih h c hc).imp_right (List.mem_cons_of_mem _)
  | case3 c cs hc hnil ih => exact absurd hnil (splitChars_ne_nil sep cs)
  | case4 c cs hc first more hparts ih =>
    rw [hparts] at ih
    rcases List.mem_cons.mp h with rfl | h
    · intro d hd
      rcases List.mem_cons.mp hd with rfl | hd
      · exact ⟨hc, List.mem_cons_self⟩
      · exact (ih List.mem_cons_self d hd).imp_right (List.mem_cons_of_mem _)
    · exact fun d hd => (ih (List.mem_cons_of_mem _ h) d hd).imp_right (List.mem_cons_of_mem _)

theorem mem_joinChars {c : Char} (h : c ∈ joinChars sep parts) : c = sep ∨ ∃ part ∈ parts, c ∈ part := by
  fun_induction joinChars sep parts with
  | case1 => simp at h
  | case2 part => exact .inr ⟨part, List.mem_singleton_self part, h⟩
  | case3 part parts hne ih =>
    rcases List.mem_append.mp h with h | h
    · exact .inr ⟨part, List.mem_cons_self, h⟩
    · rcases List.mem_cons.mp h with rfl | h
      · exact .inl rfl
      · exact (ih h).imp_right fun ⟨next, hnext, hc⟩ => ⟨next, List.mem_cons_of_mem _ hnext, hc⟩

end HostScript
