import HostScript.Proofs.Text.Runes

set_option autoImplicit false

namespace HostScript

theorem toNat_of_isDigit {c : Char} (h : c.isDigit = true) : 48 ≤ c.toNat ∧ c.toNat ≤ 57 := by
  simp only [Char.isDigit, Bool.and_eq_true, decide_eq_true_eq] at h
  exact ⟨UInt32.le_iff_toNat_le.mp h.1, UInt32.le_iff_toNat_le.mp h.2⟩

theorem utf8_ofList (cs : List Char) : utf8 (String.ofList cs) = cs.flatMap String.utf8EncodeChar := by
  simp [utf8, String.toByteArray_ofList, List.utf8Encode]

theorem utf8_ofList_digits {cs : List Char} (h : ∀ c ∈ cs, c.isDigit = true) :
    utf8 (String.ofList cs) = cs.map fun c => UInt8.ofNat c.toNat := by
  rw [utf8_ofList]
  induction cs with
  | nil => rfl
  | cons c cs ih =>
    have hc := toNat_of_isDigit (h c List.mem_cons_self)
    have hle : c.val.toNat ≤ 127 := Nat.le_trans hc.2 (by decide)
    rw [List.flatMap_cons, List.map_cons, ih fun d hd => h d (List.mem_cons_of_mem _ hd)]
    have hone : String.utf8EncodeChar c = [UInt8.ofNat c.toNat] := if_pos hle
    rw [hone, List.singleton_append]

theorem isDigit_of_mem_toDigits {n : Nat} {c : Char} (h : c ∈ Nat.toDigits 10 n) :
    c.isDigit = true := Nat.isDigit_of_mem_toDigits (by decide) (by decide) h

theorem utf8_toString (n : Nat) :
    utf8 (toString n) = (Nat.toDigits 10 n).map fun c => UInt8.ofNat c.toNat :=
  utf8_ofList_digits fun _ hc => isDigit_of_mem_toDigits hc

theorem toNat_of_mem_utf8_toString {n : Nat} {b : UInt8} (h : b ∈ utf8 (toString n)) :
    48 ≤ b.toNat ∧ b.toNat ≤ 57 := by
  rw [utf8_toString] at h
  obtain ⟨c, hc, rfl⟩ := List.mem_map.mp h
  have hd := toNat_of_isDigit (isDigit_of_mem_toDigits hc)
  rw [UInt8.toNat_ofNat', Nat.mod_eq_of_lt (by omega)]
  exact hd

namespace Bytes

theorem notMem_utf8_toString {b : UInt8} (n : Nat) (h : b.toNat < 48) : b ∉ utf8 (toString n) := by
  intro hm
  have hd := toNat_of_mem_utf8_toString hm
  omega

theorem digitsValue_utf8_toString (n : Nat) : digitsValue (utf8 (toString n)) = n := by
  have hread : ∀ (cs : List Char) (m : Nat), (∀ c ∈ cs, c.isDigit = true) →
      (cs.map fun c => UInt8.ofNat c.toNat).foldl (fun n b => 10 * n + (b.toNat - 48)) m
        = Nat.ofDigitChars 10 cs m := by
    intro cs
    induction cs with
    | nil => intro m _; rfl
    | cons c cs ih =>
      intro m h
      have hc := toNat_of_isDigit (h c List.mem_cons_self)
      have hb : (UInt8.ofNat c.toNat).toNat = c.toNat := by
        rw [UInt8.toNat_ofNat', Nat.mod_eq_of_lt (by omega)]
      rw [List.map_cons, List.foldl_cons, hb, Nat.ofDigitChars_cons,
        ih _ fun d hd => h d (List.mem_cons_of_mem _ hd)]
      rfl
  rw [digitsValue, utf8_toString, hread _ 0 fun _ hc => isDigit_of_mem_toDigits hc]
  exact Nat.ofDigitChars_toDigits (by decide) (by decide)

theorem number?_le {bs : Bytes} {n : Nat} (h : number? bs = some n) : n ≤ numberLimit := by
  unfold number? at h
  split at h
  · simp only [Option.ite_none_right_eq_some, Option.some.injEq] at h
    omega
  · cases h

theorem number?_utf8_toString {n : Nat} (h : n ≤ numberLimit) :
    number? (utf8 (toString n)) = some n := by
  have hne : utf8 (toString n) ≠ [] := by
    intro hnil
    rw [utf8_toString, List.map_eq_nil_iff] at hnil
    exact Nat.toDigits_ne_nil hnil
  have hall : (utf8 (toString n)).all isDigit = true := by
    rw [List.all_eq_true]
    intro b hb
    have hd := toNat_of_mem_utf8_toString hb
    simp only [isDigit, Bool.and_eq_true, decide_eq_true_eq, UInt8.le_iff_toNat_le]
    exact hd
  have hdigits : isDigits (utf8 (toString n)) = true := by
    rw [isDigits, hall, Bool.and_true, Bool.not_eq_true', List.isEmpty_eq_false_iff]
    exact hne
  simp only [number?, hdigits, digitsValue_utf8_toString, h, if_true]

theorem runes_ascii_append {as : Bytes} (h : ∀ b ∈ as, b < 0x80) (bs : Bytes) :
    runes (as ++ bs) = as.map (fun b => ⟨Char.ofNat b.toNat, [b]⟩) ++ runes bs := by
  induction as with
  | nil => rfl
  | cons b as ih =>
    rw [List.cons_append, runes_cons_ascii (h b List.mem_cons_self),
      ih fun c hc => h c (List.mem_cons_of_mem _ hc)]
    rfl

theorem runes_ascii {bs : Bytes} (h : ∀ b ∈ bs, b < 0x80) :
    runes bs = bs.map fun b => ⟨Char.ofNat b.toNat, [b]⟩ := by
  have happend := runes_ascii_append h []
  rw [List.append_nil] at happend
  exact happend.trans (List.append_nil _)

theorem trim_visible {bs : Bytes} (h : ∀ b ∈ bs, b < 0x80 ∧ isSpace (Char.ofNat b.toNat) = false) :
    trim bs = bs := by
  have hrunes := runes_ascii fun b hb => (h b hb).1
  have hkeep : ∀ rs : List Rune, (∀ r ∈ rs, r ∈ runes bs) →
      (rs.dropWhile fun r => isSpace r.char) = rs := by
    intro rs hrs
    cases rs with
    | nil => rfl
    | cons r rs =>
      have hr := hrs r List.mem_cons_self
      rw [hrunes] at hr
      obtain ⟨b, hb, rfl⟩ := List.mem_map.mp hr
      rw [List.dropWhile_cons_of_neg]
      simp [(h b hb).2]
  simp only [trim]
  rw [hkeep _ fun r hr => hr, hkeep _ fun r hr => by simpa using hr, List.reverse_reverse, join_runes]

theorem trim_utf8_toString (n : Nat) : trim (utf8 (toString n)) = utf8 (toString n) := by
  refine trim_visible fun b hb => ?_
  have hd := toNat_of_mem_utf8_toString hb
  refine ⟨UInt8.lt_iff_toNat_lt.mpr (Nat.lt_of_le_of_lt hd.2 (by decide)), ?_⟩
  have hspace : ∀ k < 58, 48 ≤ k → isSpace (Char.ofNat k) = false := by decide
  exact hspace b.toNat (by omega) hd.1

end Bytes

end HostScript
