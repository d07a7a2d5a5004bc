import HostScript.Token.Lexer

/-!
The lexical grammar as a relation. There is one rule for each way in which a token can go on after
its first character, and the lexer follows these rules and no others.
-/

set_option autoImplicit false

namespace HostScript

theorem Scanner.run_cons (p : Char → Bool) (r : Rune) (rs : List Rune) :
    run p (r :: rs) = if p r.char then run p rs + 1 else 0 := by
  unfold run
  rw [List.takeWhile_cons]
  split <;> rfl

theorem Scanner.run_spec (p : Char → Bool) (rs : List Rune) :
    (∀ r ∈ rs.take (run p rs), p r.char = true) ∧
      ∀ r ts, rs.drop (run p rs) = r :: ts → p r.char = false := by
  induction rs with
  | nil => simp [run]
  | cons q rs ih =>
    obtain ⟨htaken, hstop⟩ := ih
    rw [run_cons]
    by_cases hq : p q.char = true
    · simp only [hq, if_true, List.take_succ_cons, List.drop_succ_cons]
      refine ⟨fun r hr => ?_, hstop⟩
      cases List.mem_cons.mp hr with
      | inl hr => rw [hr]; exact hq
      | inr hr => exact htaken r hr
    · rw [if_neg hq]
      refine ⟨fun r hr => absurd hr List.not_mem_nil, fun r ts hr => ?_⟩
      rw [List.drop_zero] at hr
      rw [← (List.cons.inj hr).1]
      simpa using hq

namespace Lexer

/-- Quotes with the kind of their literals and the message about one that is not closed. -/
inductive Literal : Char → TokenKind → String → Prop where
  | string : Literal '"' .string unterminatedString
  | char : Literal '\'' .char unterminatedChar

/-- A character that begins no other token. -/
structure Foreign (c : Char) : Prop where
  not_wordStart : isWordStart c = false
  not_digit : isDigit c = false
  not_quote : c ≠ '"' ∧ c ≠ '\''
  not_operator : c ∉ operators
  not_single : single? c = none

inductive Lexes (c : Char) (rest : List Rune) : Lexeme → Prop where
  | single {kind : TokenKind} : single? c = some kind → Lexes c rest ⟨kind, 0, none⟩
  | lineComment {r : Rune} {rs : List Rune} : c = '/' → rest = r :: rs → r.char = '/' →
      Lexes c rest ⟨.comment, 1 + Scanner.run (· != '\n') rs, none⟩
  | blockComment {r : Rune} {rs : List Rune} {n : Nat} : c = '/' → rest = r :: rs → r.char = '*' →
      commentLength? rs = some n → Lexes c rest ⟨.comment, 1 + n, none⟩
  | openComment {r : Rune} {rs : List Rune} : c = '/' → rest = r :: rs → r.char = '*' →
      commentLength? rs = none → Lexes c rest ⟨.error, 1 + rs.length, some unterminatedComment⟩
  | slash : c = '/' → (∀ r rs, rest = r :: rs → r.char ≠ '/' ∧ r.char ≠ '*') →
      Lexes c rest ⟨.operator, 0, none⟩
  | quoted {kind : TokenKind} {message : String} {n : Nat} : Literal c kind message →
      quotedLength c rest = (n, true) → Lexes c rest ⟨kind, n, none⟩
  | openQuoted {kind : TokenKind} {message : String} {n : Nat} : Literal c kind message →
      quotedLength c rest = (n, false) → Lexes c rest ⟨.error, n, some message⟩
  | whole {n : Nat} : isDigit c = true → Scanner.run isDigit rest = n →
      (∀ p d rs, rest.drop n = p :: d :: rs → p.char = '.' → isDigit d.char = false) →
      Lexes c rest ⟨.number, n, none⟩
  | fraction {p d : Rune} {rs : List Rune} {n : Nat} : isDigit c = true →
      Scanner.run isDigit rest = n → rest.drop n = p :: d :: rs → p.char = '.' →
      isDigit d.char = true → Lexes c rest ⟨.number, n + 2 + Scanner.run isDigit rs, none⟩
  | identifier : isWordStart c = true →
      Lexes c rest ⟨.identifier, Scanner.run isWord rest, none⟩
  | operator : c ∈ operators → c ≠ '/' → Lexes c rest ⟨.operator, 0, none⟩
  | invalid {message : String} : Foreign c → Lexes c rest ⟨.invalid, 0, some message⟩

theorem slash_lexes (rest : List Rune) : Lexes '/' rest (slash rest) := by
  cases rest with
  | nil => exact .slash rfl (by simp)
  | cons r rs =>
    unfold slash
    simp only
    split
    · rename_i hr
      exact .lineComment rfl rfl hr
    · rename_i hline
      split
      · rename_i hr
        cases hn : commentLength? rs with
        | some n => exact .blockComment rfl rfl hr hn
        | none => exact .openComment rfl rfl hr hn
      · rename_i hblock
        refine .slash rfl fun q qs hq => ?_
        rw [(List.cons.inj hq).1] at hline hblock
        exact ⟨hline, hblock⟩

theorem quoted_lexes {quote : Char} {kind : TokenKind} {message : String}
    (h : Literal quote kind message) (rest : List Rune) :
    Lexes quote rest (quoted quote kind message rest) := by
  cases hq : quotedLength quote rest with
  | mk n closed =>
    simp only [quoted, hq]
    cases closed with
    | true => exact .quoted h hq
    | false => exact .openQuoted h hq

theorem number_lexes {c : Char} (h : isDigit c = true) (rest : List Rune) :
    Lexes c rest (number rest) := by
  unfold number
  simp only
  split
  · rename_i p d rs hd
    split
    · rename_i hf
      simp only [Bool.and_eq_true, beq_iff_eq] at hf
      exact .fraction h rfl hd hf.2 hf.1
    · rename_i hf
      simp only [Bool.and_eq_true, beq_iff_eq, not_and] at hf
      refine .whole h rfl fun q e qs he hq => ?_
      rw [hd] at he
      obtain ⟨rfl, rfl, -⟩ : p = q ∧ d = e ∧ rs = qs := by simpa using he
      exact Bool.eq_false_iff.mpr fun hdigit => hf hdigit hq
  · rename_i hshort
    exact .whole h rfl fun q e qs he _ => absurd he (hshort q e qs)

/-- The lexer follows the grammar. -/
theorem lexeme_lexes (c : Char) (rest : List Rune) :
    Lexes c rest (lexeme c rest) := by
  unfold lexeme
  split
  · rename_i kind hk
    exact .single hk
  · rename_i hsingle
    split
    · rename_i hc
      exact hc ▸ slash_lexes rest
    · rename_i hslash
      split
      · rename_i hc
        exact hc ▸ quoted_lexes .string rest
      · rename_i hstring
        split
        · rename_i hc
          exact hc ▸ quoted_lexes .char rest
        · rename_i hchar
          split
          · rename_i hd
            exact number_lexes hd rest
          · rename_i hd
            split
            · rename_i hw
              exact .identifier hw
            · rename_i hw
              split
              · rename_i ho
                exact .operator (by simpa using ho) hslash
              · rename_i ho
                exact .invalid
                  { not_wordStart := by simpa using hw
                    not_digit := by simpa using hd
                    not_quote := ⟨hstring, hchar⟩
                    not_operator := by simpa using ho
                    not_single := hsingle }

theorem single?_ne {c : Char} {kind : TokenKind} (h : single? c = some kind) :
    kind ≠ .error ∧ kind ≠ .invalid ∧ kind ≠ .eof ∧ kind ≠ .comment := by
  unfold single? at h
  split at h <;> simp only [Option.some.injEq, reduceCtorEq] at h <;> subst h <;> decide

theorem Lexes.kind_ne_eof {c : Char} {rest : List Rune} {x : Lexeme} (h : Lexes c rest x) :
    x.kind ≠ .eof := by
  cases h with
  | single hk => exact (single?_ne hk).2.2.1
  | quoted hl => cases hl <;> simp
  | _ => simp

theorem Lexes.message_eq_none {c : Char} {rest : List Rune} {x : Lexeme} (h : Lexes c rest x)
    (he : x.kind ≠ .error) (hi : x.kind ≠ .invalid) : x.message = none := by
  cases h with
  | openComment => exact absurd rfl he
  | openQuoted => exact absurd rfl he
  | invalid => exact absurd rfl hi
  | _ => rfl

end Lexer

end HostScript
