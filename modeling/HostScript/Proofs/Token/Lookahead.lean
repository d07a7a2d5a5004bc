import HostScript.Proofs.Token.Classes

/-!
How far the lexer looks. A token is settled by the runes it takes and the one behind them, or two behind
the digits of a number, so a token that ends before a place does not depend on what stands there.
-/

set_option autoImplicit false

namespace HostScript

theorem toNat_lt_of_isWord {c : Char} (h : isWord c = true) : c.toNat < 256 := by
  have humlauts : ∀ u ∈ umlauts, u.toNat < 256 := by
    have hall : (umlauts.all fun u => decide (u.toNat < 256)) = true := by decide
    exact fun u hu => of_decide_eq_true (List.all_eq_true.mp hall u hu)
  simp only [isWord, isWordStart, isDigit, Bool.or_eq_true, Bool.and_eq_true, beq_iff_eq,
    decide_eq_true_eq, List.contains_iff_mem] at h
  have hle {d : Char} (hd : d.toNat < 256) (hcd : c ≤ d) : c.toNat < 256 :=
    Nat.lt_of_le_of_lt (UInt32.le_iff_toNat_le.mp hcd) hd
  rcases h with ((((rfl | h) | h) | h) | h)
  · decide
  · exact hle (by decide) h.2
  · exact hle (by decide) h.2
  · exact humlauts c h
  · exact hle (by decide) h.2

theorem forall_isWord {P : Char → Prop} (h : ∀ n < 256, isWord (Char.ofNat n) = true → P (Char.ofNat n))
    {c : Char} (hc : isWord c = true) : P c := by
  have hn := h c.toNat (toNat_lt_of_isWord hc)
  rw [Char.ofNat_toNat] at hn
  exact hn hc

theorem isWord_of_isWordStart {c : Char} (h : isWordStart c = true) : isWord c = true := by
  simp [isWord, h]

theorem isSpace_of_isWord {c : Char} (h : isWord c = true) : isSpace c = false :=
  forall_isWord (P := fun c => isSpace c = false) (by decide +kernel) h

theorem isDigit_of_isWordStart {c : Char} (h : isWordStart c = true) : isDigit c = false :=
  forall_isWord (P := fun c => isWordStart c = true → isDigit c = false) (by decide +kernel)
    (isWord_of_isWordStart h) h

namespace Lexer

theorem lexeme_of_isWordStart {c : Char} (h : isWordStart c = true) (rest : List Rune) :
    lexeme c rest = ⟨.identifier, Scanner.run isWord rest, none⟩ := by
  have hother : single? c = none ∧ c ≠ '/' ∧ c ≠ '"' ∧ c ≠ '\'' :=
    forall_isWord (P := fun c => isWordStart c = true → single? c = none ∧ c ≠ '/' ∧ c ≠ '"' ∧ c ≠ '\'')
      (by decide +kernel) (isWord_of_isWordStart h) h
  obtain ⟨hsingle, hslash, hstring, hchar⟩ := hother
  simp [lexeme, hsingle, hslash, hstring, hchar, isDigit_of_isWordStart h, h]

theorem lexeme_of_single {c : Char} {kind : TokenKind} (h : single? c = some kind) (rest : List Rune) :
    lexeme c rest = ⟨kind, 0, none⟩ := by
  simp [lexeme, h]

theorem single?_of_dot {c : Char} {rest : List Rune} (h : (lexeme c rest).kind = .dot) :
    single? c = some .dot := by
  cases hs : single? c with
  | some kind => rw [lexeme_of_single hs] at h; rw [← h]
  | none =>
    have hl := lexeme_lexes c rest
    generalize lexeme c rest = x at h hl
    cases hl with
    | single hk => rw [hs] at hk; cases hk
    | quoted hl => cases hl <;> cases h
    | _ => cases h

theorem eq_dot_of_single? {c : Char} (h : single? c = some .dot) : c = '.' := by
  unfold single? at h
  split at h <;> first | rfl | cases h

section Lookahead

variable {front back back' : List Rune}

theorem run_append_of_lt {p : Char → Bool} (h : Scanner.run p (front ++ back) < front.length) :
    Scanner.run p (front ++ back') = Scanner.run p (front ++ back) := by
  induction front with
  | nil => exact absurd h (Nat.not_lt_zero _)
  | cons r front ih =>
    simp only [List.cons_append, Scanner.run_cons, List.length_cons] at h ⊢
    split
    · rename_i hr
      rw [if_pos hr] at h
      rw [ih (by omega)]
    · rfl

theorem two_le_of_commentLength? {rs : List Rune} {n : Nat} (h : commentLength? rs = some n) : 2 ≤ n := by
  induction rs generalizing n with
  | nil => cases h
  | cons r rs ih =>
    rw [commentLength?_cons] at h
    split at h
    · exact Nat.le_of_eq (Option.some.inj h)
    · obtain ⟨m, hm, rfl⟩ := Option.map_eq_some_iff.mp h
      exact Nat.le_succ_of_le (ih hm)

theorem commentLength?_append {n : Nat} (h : commentLength? (front ++ back) = some n)
    (hn : n ≤ front.length) : commentLength? (front ++ back') = some n := by
  induction front generalizing n with
  | nil =>
    have htwo := two_le_of_commentLength? h
    simp only [List.length_nil] at hn
    omega
  | cons r front ih =>
    have htwo := two_le_of_commentLength? h
    -- The mark is looked for in two runes, of which both stand in front.
    obtain ⟨q, front, rfl⟩ : ∃ q qs, front = q :: qs := by
      refine List.exists_cons_of_ne_nil fun hnil => ?_
      simp only [hnil, List.length_singleton] at hn
      omega
    rw [List.cons_append, commentLength?_cons] at h ⊢
    simp only [List.cons_append, List.map_cons, List.head?_cons] at h ⊢
    split
    · rename_i hmark
      rwa [if_pos hmark] at h
    · rename_i hmark
      rw [if_neg hmark] at h
      obtain ⟨m, hm, rfl⟩ := Option.map_eq_some_iff.mp h
      have hrest := ih hm (by simpa using hn)
      simp only [List.cons_append] at hrest
      rw [hrest]
      rfl

theorem quotedLength_plain {quote : Char} {r : Rune} (hn : r.char ≠ '\n') (hq : r.char ≠ quote)
    (hb : r.char ≠ '\\') (rs : List Rune) : quotedLength quote (r :: rs)
      = ((quotedLength quote rs).1 + 1, (quotedLength quote rs).2) := by
  rw [quotedLength.eq_def]
  simp only [hn, hq, hb, if_false]

theorem quotedLength_escape {quote : Char} {r s : Rune} (hn : r.char ≠ '\n') (hq : r.char ≠ quote)
    (hb : r.char = '\\') (hs : s.char ≠ '\n') (rs : List Rune) : quotedLength quote (r :: s :: rs)
      = ((quotedLength quote rs).1 + 2, (quotedLength quote rs).2) := by
  rw [quotedLength.eq_def]
  simp only
  rw [if_neg hn, if_neg hq, if_pos hb, if_neg hs]

theorem quotedLength_append (quote : Char) (h : (quotedLength quote (front ++ back)).1 < front.length) :
    quotedLength quote (front ++ back') = quotedLength quote (front ++ back) := by
  fun_induction quotedLength quote front with
  | case1 => exact absurd h (Nat.not_lt_zero _)
  | case2 r rs hn =>
    unfold quotedLength
    simp only [List.cons_append, hn, if_true]
  | case3 r rs hn hq =>
    unfold quotedLength
    simp only [List.cons_append, hq, if_true]
  | case4 r hn hq hb s rs hs =>
    unfold quotedLength
    simp only [List.cons_append, hb, hs, if_true]
  | case5 r hn hq hb s rs hs n closed heq ih =>
    simp only [List.cons_append, quotedLength_escape hn hq hb hs] at h ⊢
    rw [ih (by simpa using h)]
  | case6 r hn hq hb =>
    -- The rune that the backslash protects is not in front any more.
    refine absurd h (Nat.not_lt.mpr ?_)
    rw [List.singleton_append, quotedLength.eq_def]
    simp only
    rw [if_neg hn, if_neg hq, if_pos hb]
    cases back with
    | nil => exact Nat.le_refl 1
    | cons s rs =>
      simp only
      split
      · exact Nat.le_refl 1
      · exact Nat.le_add_left 1 _
  | case7 r rs hn hq hb n closed heq ih =>
    simp only [List.cons_append, quotedLength_plain hn hq hb] at h ⊢
    rw [ih (by simpa using h)]

theorem slash_append (h : (slash (front ++ back)).more < front.length) :
    slash (front ++ back') = slash (front ++ back) := by
  cases front with
  | nil => exact absurd h (Nat.not_lt_zero _)
  | cons r front =>
    simp only [slash, List.cons_append, List.length_cons] at h ⊢
    split
    · rename_i hr
      rw [if_pos hr] at h
      have hrun : Scanner.run (· != '\n') (front ++ back) < front.length := by
        simp only at h
        omega
      rw [run_append_of_lt hrun]
    · rename_i hline
      split
      · rename_i hr
        rw [if_neg hline, if_pos hr] at h
        cases hn : commentLength? (front ++ back) with
        | some n =>
          simp only [hn] at h
          rw [commentLength?_append hn (by omega)]
        | none =>
          simp only [hn, List.length_append] at h
          omega
      · rfl

theorem run_le_number (rs : List Rune) : Scanner.run isDigit rs ≤ (number rs).more := by
  unfold number
  simp only
  split
  · split
    · simp only
      omega
    · exact Nat.le_refl _
  · exact Nat.le_refl _

theorem number_whole {rs tail : List Rune} {p : Rune} {n : Nat} (hrun : Scanner.run isDigit rs = n)
    (hd : rs.drop n = p :: tail) (ht : ∀ q ∈ tail.head?, isDigit q.char = false) :
    number rs = ⟨.number, n, none⟩ := by
  unfold number
  simp only [hrun, hd]
  cases tail with
  | nil => rfl
  | cons q tail => simp [ht q rfl]

theorem number_eq {rs tail : List Rune} {p q : Rune} {n : Nat} (hrun : Scanner.run isDigit rs = n)
    (hd : rs.drop n = p :: q :: tail) : number rs =
      if isDigit q.char && p.char == '.' then ⟨.number, n + 2 + Scanner.run isDigit tail, none⟩
      else ⟨.number, n, none⟩ := by
  unfold number
  simp only [hrun, hd]

theorem number_append (hb : ∀ r ∈ back'.head?, isDigit r.char = false)
    (h : (number (front ++ back)).more < front.length) :
    number (front ++ back') = number (front ++ back) := by
  have hlt := Nat.lt_of_le_of_lt (run_le_number _) h
  have hrun : Scanner.run isDigit (front ++ back') = Scanner.run isDigit (front ++ back) := run_append_of_lt hlt
  generalize hn : Scanner.run isDigit (front ++ back) = n at hlt hrun
  have hdrop (rs : List Rune) : (front ++ rs).drop n = front.drop n ++ rs :=
    List.drop_append_of_le_length (Nat.le_of_lt hlt)
  have hlen : (front.drop n).length = front.length - n := List.length_drop
  match hd : front.drop n with
  | [] =>
    rw [hd, List.length_nil] at hlen
    omega
  | [p] =>
    have hsplit (ts : List Rune) : (front ++ ts).drop n = p :: ts := by
      rw [hdrop, hd]
      rfl
    rw [number_whole hrun (hsplit back') hb]
    cases back with
    | nil => exact (number_whole hn (hsplit []) (by simp)).symm
    | cons q back =>
      have hback := number_eq hn (hsplit (q :: back))
      split at hback
      · rw [hback] at h
        rw [hd, List.length_singleton] at hlen
        simp only at h
        omega
      · exact hback.symm
  | p :: q :: rs =>
    have hsplit (ts : List Rune) : (front ++ ts).drop n = p :: q :: (rs ++ ts) := by
      rw [hdrop, hd]
      rfl
    have hback := number_eq hn (hsplit back)
    rw [number_eq hrun (hsplit back'), hback]
    split
    · rename_i hf
      rw [hback, if_pos hf] at h
      rw [hd] at hlen
      have hrest : Scanner.run isDigit (rs ++ back) < rs.length := by
        simp only [List.length_cons] at h hlen
        omega
      rw [run_append_of_lt hrest]
    · rfl

theorem quoted_append {quote : Char} {kind : TokenKind} {message : String}
    (h : (quoted quote kind message (front ++ back)).more < front.length) :
    quoted quote kind message (front ++ back') = quoted quote kind message (front ++ back) := by
  have hmore (rs : List Rune) : (quoted quote kind message rs).more = (quotedLength quote rs).1 := by
    unfold quoted
    simp only
    split <;> rfl
  rw [hmore] at h
  simp only [quoted, quotedLength_append quote h]

/-- A token that ends in front of a place, and not right there, does not depend on what stands behind it,
as long as that is no digit. -/
theorem lexeme_append {c : Char} (hb : ∀ r ∈ back'.head?, isDigit r.char = false)
    (h : (lexeme c (front ++ back)).more < front.length) :
    lexeme c (front ++ back') = lexeme c (front ++ back) := by
  unfold lexeme at h ⊢
  cases hs : single? c with
  | some kind => rfl
  | none =>
    simp only [hs] at h ⊢
    split
    · rename_i hc
      rw [if_pos hc] at h
      exact slash_append h
    · rename_i hslash
      rw [if_neg hslash] at h
      split
      · rename_i hc
        rw [if_pos hc] at h
        exact quoted_append h
      · rename_i hstring
        rw [if_neg hstring] at h
        split
        · rename_i hc
          rw [if_pos hc] at h
          exact quoted_append h
        · rename_i hchar
          rw [if_neg hchar] at h
          split
          · rename_i hd
            rw [if_pos hd] at h
            exact number_append hb h
          · rename_i hd
            rw [if_neg hd] at h
            split
            · rename_i hw
              rw [if_pos hw] at h
              simp only at h
              rw [run_append_of_lt h]
            · rfl

end Lookahead

end Lexer

end HostScript
