import HostScript.Proofs.Token.Lookahead
import HostScript.Proofs.Token.Shift

/-!
One identifier in the place of another. Behind a dot the tokens begin anew whatever word stands there, so
all other tokens stay as they are, but for the places of those behind it.
-/

set_option autoImplicit false

namespace HostScript

namespace Lexer

def word (r : Rune) (rest : List Rune) : List Rune := r :: rest.take (lexeme r.char rest).more

/-- The token at the head of runes that begin at an offset. -/
def headToken (offset : Int) (r : Rune) (rest : List Rune) : Token :=
  ⟨(lexeme r.char rest).kind, ((lexeme r.char rest).message.map utf8).getD (Rune.join (word r rest)),
    ⟨offset, offset + Rune.sizes (word r rest)⟩⟩

/-- The tokens of runes that begin at an offset. -/
inductive Yields : Int → List Rune → List Token → Prop where
  | nil {o : Int} : Yields o [] [endToken o]
  | space {o : Int} {r : Rune} {rs : List Rune} {ts : List Token} : isSpace r.char = true →
      Yields (o + r.size) rs ts → Yields o (r :: rs) ts
  | token {o : Int} {r : Rune} {rest : List Rune} {ts : List Token} : isSpace r.char = false →
      Yields (o + Rune.sizes (word r rest)) (rest.drop (lexeme r.char rest).more) ts →
      Yields o (r :: rest) (headToken o r rest :: ts)

theorem skipSpace_split {s : Scanner} (hp : s.pending = []) :
    ∃ gap, (∀ r ∈ gap, isSpace r.char = true) ∧ s.rest = gap ++ (skipSpace s).rest ∧
      (skipSpace s).start = s.start + Rune.sizes gap ∧ (skipSpace s).pending = [] ∧
      ∀ r rest, (skipSpace s).rest = r :: rest → isSpace r.char = false := by
  obtain ⟨hspaces, hstop⟩ := Scanner.run_spec isSpace s.rest
  refine ⟨s.rest.take (Scanner.run isSpace s.rest), hspaces, ?_⟩
  rw [skipSpace_eq hp]
  refine ⟨(List.take_append_drop _ _).symm, ?_, rfl, hstop⟩
  simp [Scanner.ignore, Scanner.advance, Scanner.next, hp]

namespace Yields

theorem spaces {gap rs : List Rune} (hg : ∀ r ∈ gap, isSpace r.char = true) {o : Int} {ts : List Token}
    (h : Yields (o + Rune.sizes gap) rs ts) : Yields o (gap ++ rs) ts := by
  induction gap generalizing o with
  | nil => simpa [Rune.sizes] using h
  | cons r gap ih =>
    refine .space (hg r List.mem_cons_self) (ih (fun q hq => hg q (List.mem_cons_of_mem _ hq)) ?_)
    rwa [Rune.sizes, Int.natCast_add, ← Int.add_assoc] at h

theorem of_scanner {s : Scanner} (hp : s.pending = []) : Yields s.start s.rest (tokensFrom s) := by
  fun_induction tokensFrom s with
  | case1 s he =>
    obtain ⟨gap, hgap, hrest, hstart, hpending, _⟩ := skipSpace_split hp
    cases hr : (skipSpace s).rest with
    | nil =>
      have hend : (readToken s).1 = endToken (s.start + Rune.sizes gap) := by
        simp [readToken, hr, endToken, Scanner.span, Scanner.next, hpending, hstart, Rune.sizes]
      rw [hend, hrest, hr]
      exact spaces hgap .nil
    | cons r rest =>
      rw [readToken_cons hpending hr] at he
      exact absurd he (lexeme_lexes r.char rest).kind_ne_eof
  | case2 s he ih =>
    obtain ⟨gap, hgap, hrest, hstart, hpending, hvisible⟩ := skipSpace_split hp
    cases hr : (skipSpace s).rest with
    | nil => exact absurd (by simp [readToken, hr]) he
    | cons r rest =>
      have hread := readToken_cons hpending hr
      have htoken : (readToken s).1 = headToken (s.start + Rune.sizes gap) r rest := by
        rw [hread]
        simp [headToken, word, Scanner.ignore, Scanner.advance, Scanner.next, hpending, hr, hstart]
      have hnext : (readToken s).2.start = s.start + Rune.sizes gap + Rune.sizes (word r rest) ∧
          (readToken s).2.rest = rest.drop (lexeme r.char rest).more := by
        rw [hread]
        simp [word, Scanner.ignore, Scanner.advance, Scanner.next, hpending, hr, hstart]
      have hmore := ih (readToken_span hp).2.2.2
      rw [hnext.1, hnext.2] at hmore
      rw [hrest, hr, htoken]
      exact spaces hgap (.token (hvisible r rest hr) hmore)

/-- Runes yield tokens in one way only. -/
theorem unique {o : Int} {rs : List Rune} {ts us : List Token} (h : Yields o rs ts) (h' : Yields o rs us) :
    ts = us := by
  induction h generalizing us with
  | nil => cases h'; rfl
  | space hr _ ih =>
    cases h' with
    | space _ h' => exact ih h'
    | token hr' => exact absurd hr (by simp [hr'])
  | token hr _ ih =>
    cases h' with
    | space hr' => exact absurd hr' (by simp [hr])
    | token _ h' => rw [ih h']

theorem tokens {text : Bytes} {start stop : Nat} (hle : start ≤ stop) (hs : stop ≤ text.length) :
    Yields start (text.slice start stop).runes (tokens text start stop) := by
  have h := of_scanner (s := Scanner.ofSpan text start stop) rfl
  rw [Scanner.ofSpan_eq hle hs] at h
  rwa [Lexer.tokens, Scanner.ofSpan_eq hle hs]

theorem total (o : Int) (rs : List Rune) : ∃ ts, Yields o rs ts :=
  ⟨_, of_scanner (s := ⟨o, [], rs, none⟩) rfl⟩

theorem moved {o : Int} {rs : List Rune} {ts : List Token} (h : Yields o rs ts) (n : Nat) :
    Yields (n + o) rs (ts.map (·.moved n)) := by
  induction h with
  | nil => exact .nil
  | space hr _ ih => exact .space hr (by rwa [Int.add_assoc])
  | @token o r rest ts hr _ ih =>
    have hhead : (headToken o r rest).moved n = headToken (n + o) r rest := by
      simp only [headToken, Token.moved, Span.moved, Int.add_assoc]
    rw [List.map_cons, hhead]
    exact .token hr (by rwa [Int.add_assoc])

theorem bounds {o : Int} {rs : List Rune} {ts : List Token} (h : Yields o rs ts)
    (hp : ∀ r ∈ rs, 0 < r.size) : ∀ t ∈ ts, o ≤ t.span.start ∧ t.span.start ≤ t.span.stop ∧
      (t.kind ≠ .eof → t.span.start < t.span.stop) := by
  induction h with
  | nil =>
    intro t ht
    rw [List.mem_singleton.mp ht]
    exact ⟨Int.le_refl _, Int.le_refl _, fun hk => absurd rfl hk⟩
  | space _ _ ih =>
    intro t ht
    obtain ⟨hlow, hlt⟩ := ih (fun q hq => hp q (List.mem_cons_of_mem _ hq)) t ht
    exact ⟨by omega, hlt⟩
  | @token o r rest ts _ _ ih =>
    have hr := hp r List.mem_cons_self
    intro t ht
    cases List.mem_cons.mp ht with
    | inl ht =>
      rw [ht]
      simp only [headToken, word, Rune.sizes]
      omega
    | inr ht =>
      obtain ⟨hlow, hlt⟩ := ih (fun q hq => hp q (List.mem_cons_of_mem _ (List.mem_of_mem_drop hq))) t ht
      exact ⟨by omega, hlt⟩

theorem before {o : Int} {rs : List Rune} {pre post : List Token} {t : Token}
    (h : Yields o rs (pre ++ t :: post)) (hp : ∀ r ∈ rs, 0 < r.size) :
    ∀ u ∈ pre, u.span.start < u.span.stop ∧ u.span.stop ≤ t.span.start := by
  generalize hts : pre ++ t :: post = ts at h
  induction h generalizing pre with
  | nil =>
    cases pre with
    | nil => simp
    | cons u pre => simp at hts
  | space _ _ ih => exact ih (fun q hq => hp q (List.mem_cons_of_mem _ hq)) hts
  | @token o r rest ts _ h ih =>
    have hpos : ∀ q ∈ rest.drop (lexeme r.char rest).more, 0 < q.size :=
      fun q hq => hp q (List.mem_cons_of_mem _ (List.mem_of_mem_drop hq))
    cases pre with
    | nil => simp
    | cons u pre =>
      rw [List.cons_append, List.cons.injEq] at hts
      obtain ⟨rfl, rfl⟩ := hts
      have hr := hp r List.mem_cons_self
      have ht := (h.bounds hpos t (by simp)).1
      intro v hv
      cases List.mem_cons.mp hv with
      | inl hv =>
        rw [hv]
        simp only [headToken, word, Rune.sizes] at ht ⊢
        omega
      | inr hv => exact ih hpos rfl v hv

theorem front_ne_nil {o : Int} {rs front : List Rune} {ts : List Token} (h : Yields o rs ts)
    (hp : ∀ r ∈ rs, 0 < r.size) {t : Token} (ht : t ∈ ts) (hk : t.kind ≠ .eof)
    (hstop : t.span.stop = o + Rune.sizes front) : front ≠ [] := by
  rintro rfl
  obtain ⟨hlow, -, hlt⟩ := h.bounds hp t ht
  have hstart := hlt hk
  simp only [Rune.sizes] at hstop
  omega

end Yields

/-- The last rune is a dot. -/
def EndsWithDot (rs : List Rune) : Prop := ∃ front r, rs = front ++ [r] ∧ r.char = '.'

theorem EndsWithDot.append {rs : List Rune} (h : EndsWithDot rs) (front : List Rune) :
    EndsWithDot (front ++ rs) := by
  obtain ⟨init, r, rfl, hr⟩ := h
  exact ⟨front ++ init, r, by simp, hr⟩

namespace Yields

section Front

variable {f : Rune} {front back : List Rune}

theorem word_append (hlt : (lexeme f.char (front ++ back)).more < front.length) :
    word f (front ++ back) = f :: front.take (lexeme f.char (front ++ back)).more := by
  rw [word, List.take_append_of_le_length (Nat.le_of_lt hlt)]

theorem headToken_append {back' : List Rune} (hb' : ∀ r ∈ back'.head?, isDigit r.char = false)
    (hlt : (lexeme f.char (front ++ back)).more < front.length) (o : Int) :
    word f (front ++ back') = word f (front ++ back) ∧
      headToken o f (front ++ back') = headToken o f (front ++ back) := by
  have hlexeme := lexeme_append hb' hlt
  have hword : word f (front ++ back') = word f (front ++ back) := by
    rw [word_append (hlexeme ▸ hlt), word_append hlt, hlexeme]
  exact ⟨hword, by rw [headToken, headToken, hword, hlexeme]⟩

theorem sizes_word_add (hlt : (lexeme f.char (front ++ back)).more < front.length) :
    Rune.sizes (word f (front ++ back)) + Rune.sizes (front.drop (lexeme f.char (front ++ back)).more)
      = Rune.sizes (f :: front) := by
  rw [word_append hlt, ← Rune.sizes_append, List.cons_append, List.take_append_drop]

theorem more_lt_of_stop {o : Int} {ts : List Token} {t : Token}
    (h : Yields (o + Rune.sizes (word f (front ++ back)))
      ((front ++ back).drop (lexeme f.char (front ++ back)).more) ts)
    (hp : ∀ r ∈ front ++ back, 0 < r.size) (ht : t ∈ ts) (hk : t.kind ≠ .eof)
    (hstop : t.span.stop = o + Rune.sizes (f :: front)) :
    (lexeme f.char (front ++ back)).more < front.length := by
  obtain ⟨hlow, -, hless⟩ := h.bounds (fun q hq => hp q (List.mem_of_mem_drop hq)) t ht
  have hless := hless hk
  by_contra hge
  obtain ⟨k, hmore⟩ := Nat.exists_eq_add_of_le (Nat.le_of_not_lt hge)
  rw [word, hmore, List.take_length_add_append, Rune.sizes, Rune.sizes_append] at hlow
  rw [Rune.sizes] at hstop
  omega

end Front

/-- A dot cuts the tokens in two: those up to it come from the runes up to it, whatever stands behind
them. -/
theorem cut {o : Int} {front back : List Rune} {pre post : List Token} {dot : Token}
    (h : Yields o (front ++ back) (pre ++ dot :: post)) (hp : ∀ r ∈ front ++ back, 0 < r.size)
    (hdot : dot.kind = .dot) (hstop : dot.span.stop = o + Rune.sizes front) :
    EndsWithDot front ∧ Yields (o + Rune.sizes front) back post ∧
      ∀ back' us, (∀ r ∈ back'.head?, isDigit r.char = false) →
        Yields (o + Rune.sizes front) back' us → Yields o (front ++ back') (pre ++ dot :: us) := by
  have heof : dot.kind ≠ .eof := by simp [hdot]
  generalize hall : front ++ back = all at h hp
  generalize hts : pre ++ dot :: post = ts at h
  induction h generalizing front pre with
  | @nil o =>
    have hmem : dot ∈ [endToken o] := by simp [← hts]
    rw [List.mem_singleton.mp hmem] at heof
    exact absurd rfl heof
  | @space o r rs ts hr h ih =>
    have hne := (Yields.space hr h).front_ne_nil hp (by simp [← hts]) heof hstop
    obtain ⟨f, front, rfl⟩ := List.exists_cons_of_ne_nil hne
    rw [List.cons_append, List.cons.injEq] at hall
    obtain ⟨rfl, hall⟩ := hall
    have hoff : o + Rune.sizes (f :: front) = o + f.size + Rune.sizes front := by
      simp only [Rune.sizes]
      omega
    rw [hoff] at hstop ⊢
    obtain ⟨hends, hpost, hback⟩ := ih hstop hall (fun q hq => hp q (List.mem_cons_of_mem _ hq)) hts
    exact ⟨hends.append [f], hpost, fun back' us hb' hus => .space hr (hback back' us hb' hus)⟩
  | @token o r rest ts hr h ih =>
    have hne := (Yields.token hr h).front_ne_nil hp (by simp [← hts]) heof hstop
    obtain ⟨f, front, rfl⟩ := List.exists_cons_of_ne_nil hne
    rw [List.cons_append, List.cons.injEq] at hall
    obtain ⟨rfl, rfl⟩ := hall
    have hpos : ∀ q ∈ front ++ back, 0 < q.size := fun q hq => hp q (List.mem_cons_of_mem _ hq)
    cases pre with
    | nil =>
      -- The token at the head is the dot, and nothing else stands in front.
      obtain ⟨rfl, rfl⟩ := List.cons.inj hts
      have hsingle := single?_of_dot hdot
      have hhead (rs : List Rune) : headToken o f rs = ⟨.dot, f.bytes, ⟨o, o + f.size⟩⟩ ∧
          word f rs = [f] ∧ rs.drop (lexeme f.char rs).more = rs := by
        simp [headToken, word, lexeme_of_single hsingle, Rune.join, Rune.sizes]
      obtain ⟨ht, hw, hd⟩ := hhead (front ++ back)
      rw [hw, hd] at h
      rw [ht] at hstop
      simp only [Rune.sizes] at hstop
      obtain rfl : front = [] :=
        Rune.sizes_eq_zero (fun q hq => hpos q (List.mem_append_left _ hq)) (by omega)
      refine ⟨⟨[], f, rfl, eq_dot_of_single? hsingle⟩, h, fun back' us _ hus => ?_⟩
      obtain ⟨ht', hw', hd'⟩ := hhead back'
      have htoken : Yields _ (_ :: back') _ := .token hr (by rwa [hw', hd'])
      rwa [ht', ← ht] at htoken
    | cons p pre =>
      rw [List.cons_append, List.cons.injEq] at hts
      obtain ⟨rfl, rfl⟩ := hts
      have hlt := h.more_lt_of_stop hpos (by simp) heof hstop
      have hdrop (rs : List Rune) : (front ++ rs).drop (lexeme f.char (front ++ back)).more
          = front.drop (lexeme f.char (front ++ back)).more ++ rs :=
        List.drop_append_of_le_length (Nat.le_of_lt hlt)
      have hsizes : o + Rune.sizes (word f (front ++ back))
          + Rune.sizes (front.drop (lexeme f.char (front ++ back)).more) = o + Rune.sizes (f :: front) := by
        rw [← sizes_word_add hlt, Int.natCast_add, Int.add_assoc]
      obtain ⟨hends, hpost, hback⟩ := ih (by rw [hstop, hsizes]) (hdrop back).symm
        (fun q hq => hpos q (List.mem_of_mem_drop hq)) rfl
      rw [hsizes] at hpost hback
      have hends := hends.append (f :: front.take (lexeme f.char (front ++ back)).more)
      rw [List.cons_append, List.take_append_drop] at hends
      refine ⟨hends, hpost, fun back' us hb' hus => ?_⟩
      obtain ⟨hword, hhead⟩ := headToken_append hb' hlt o
      have htoken : Yields o (_ :: (front ++ back')) _ := .token hr
        (by rw [hword, lexeme_append hb' hlt, hdrop]; exact hback back' us hb' hus)
      rwa [hhead] at htoken

end Yields

theorem run_eq_length {p : Char → Bool} {body back : List Rune} (h : ∀ r ∈ body, p r.char = true)
    (hb : EndsBefore p (back.map Rune.char)) : Scanner.run p (body ++ back) = body.length := by
  induction body with
  | nil =>
    cases back with
    | nil => rfl
    | cons r back =>
      have hr : p r.char = false := hb r.char (by simp)
      simp [Scanner.run_cons, hr]
  | cons r body ih =>
    rw [List.cons_append, Scanner.run_cons, if_pos (h r List.mem_cons_self),
      ih fun q hq => h q (List.mem_cons_of_mem _ hq)]
    rfl

def identifierToken (offset : Int) (name : List Rune) : Token :=
  ⟨.identifier, Rune.join name, ⟨offset, offset + Rune.sizes name⟩⟩

namespace Yields

/-- An identifier is a token of its own, if no word character follows. -/
theorem identifier {o : Int} {name back : List Rune} {ts : List Token}
    (hn : IsIdentifier (name.map Rune.char) (back.map Rune.char))
    (h : Yields (o + Rune.sizes name) back ts) : Yields o (name ++ back) (identifierToken o name :: ts) := by
  obtain ⟨c, cs, hname, hc, hcs⟩ := hn.spelling
  obtain ⟨r, body, rfl, rfl, rfl⟩ := List.map_eq_cons_iff.mp hname
  have hbody : ∀ q ∈ body, isWord q.char = true := fun q hq => hcs _ (List.mem_map_of_mem hq)
  have hlexeme : lexeme r.char (body ++ back) = ⟨.identifier, body.length, none⟩ := by
    rw [lexeme_of_isWordStart hc, run_eq_length hbody hn.longest]
  have hword : word r (body ++ back) = r :: body := by rw [word, hlexeme, List.take_left]
  have hhead : headToken o r (body ++ back) = identifierToken o (r :: body) := by
    rw [headToken, hword, hlexeme]
    rfl
  rw [← hhead, List.cons_append]
  refine .token (isSpace_of_isWord (isWord_of_isWordStart hc)) ?_
  rwa [hword, hlexeme, List.drop_left]

theorem of_identifier {o : Int} {rs : List Rune} {t : Token} {ts : List Token} (h : Yields o rs (t :: ts))
    (hp : ∀ r ∈ rs, 0 < r.size) (hk : t.kind = .identifier) (hstart : t.span.start = o) :
    ∃ name back, rs = name ++ back ∧ IsIdentifier (name.map Rune.char) (back.map Rune.char) ∧
      t = identifierToken o name ∧ Yields (o + Rune.sizes name) back ts := by
  cases h with
  | nil => cases hk
  | @space _ r rs ts hr h =>
    have hlow := (h.bounds (fun q hq => hp q (List.mem_cons_of_mem _ hq)) t List.mem_cons_self).1
    have hpos := hp r List.mem_cons_self
    omega
  | @token _ r rest ts hr h =>
    have hkind : (lexeme r.char rest).kind = .identifier := hk
    have hlexes := lexeme_lexes r.char rest
    have hmessage := hlexes.message_eq_none (by simp [hkind]) (by simp [hkind])
    have hclass : InClass [] _ _ _ := hlexes.inClass hr (by simp [hmessage])
    rw [hkind] at hclass
    refine ⟨word r rest, rest.drop (lexeme r.char rest).more, ?_, hclass, ?_, h⟩
    · rw [word, List.cons_append, List.take_append_drop]
    · rw [headToken, hkind, hmessage]
      rfl

theorem exists_moved (rs : List Rune) (hp : ∀ r ∈ rs, 0 < r.size) :
    ∃ us : List Token, (∀ u ∈ us, 0 ≤ u.span.start ∧ u.span.start ≤ u.span.stop) ∧
      ∀ n : Nat, Yields n rs (us.map (·.moved n)) := by
  obtain ⟨us, hus⟩ := total 0 rs
  refine ⟨us, fun u hu => ?_, fun n => by simpa using hus.moved n⟩
  obtain ⟨hlow, hle, -⟩ := hus.bounds hp u hu
  exact ⟨hlow, hle⟩

end Yields

end Lexer

/-- A name at the offsets `[start, stop)` and the one that is put in its place. -/
structure Renaming where
  start : Nat
  stop : Nat
  name : Bytes
  start_lt_stop : start < stop
  name_ne_nil : name ≠ []

namespace Renaming

variable (r : Renaming)

/-- Where an offset in front of the name or behind it is found afterwards. -/
def offset (o : Int) : Int := if o ≤ r.start then o else o - r.stop + (r.start + r.name.length : Nat)

def token (t : Token) : Token :=
  ⟨t.kind, if t.span.start = r.start then r.name else t.text, ⟨r.offset t.span.start, r.offset t.span.stop⟩⟩

@[simp] theorem token_kind (t : Token) : (r.token t).kind = t.kind := rfl

/-- The offset does not lie within the name. -/
def Clear (o : Int) : Prop := o ≤ r.start ∨ r.stop ≤ o

theorem offset_of_le {o : Int} (h : o ≤ r.start) : r.offset o = o := if_pos h

theorem offset_stop_add {k : Int} (h : 0 ≤ k) : r.offset (r.stop + k) = (r.start + r.name.length : Nat) + k := by
  have hlt := r.start_lt_stop
  unfold offset
  rw [if_neg (by omega)]
  omega

theorem offset_inj {a b : Int} (ha : r.Clear a) (hb : r.Clear b) : r.offset a = r.offset b ↔ a = b := by
  have hlt := r.start_lt_stop
  have hpos := List.length_pos_of_ne_nil r.name_ne_nil
  unfold offset Clear at *
  split <;> split <;> omega

theorem token_before {t : Token} (hlt : t.span.start < t.span.stop) (hle : t.span.stop ≤ r.start) :
    r.token t = t := by
  have hne : t.span.start ≠ r.start := by omega
  rw [token, if_neg hne, r.offset_of_le hle, r.offset_of_le (by omega)]

theorem token_behind {t : Token} (h : 0 ≤ t.span.start ∧ t.span.start ≤ t.span.stop) :
    r.token (t.moved r.stop) = t.moved (r.start + r.name.length) := by
  have hlt := r.start_lt_stop
  have hne : (t.moved r.stop).span.start ≠ r.start := by
    simp only [Token.moved, Span.moved]
    omega
  rw [token, if_neg hne]
  simp only [Token.moved, Span.moved, r.offset_stop_add h.1, r.offset_stop_add (Int.le_trans h.1 h.2)]

theorem token_name {old new : List Rune} (hstop : r.stop = r.start + Rune.sizes old)
    (hname : r.name = Rune.join new) :
    r.token (Lexer.identifierToken r.start old) = Lexer.identifierToken r.start new := by
  have hlen : r.name.length = Rune.sizes new := by rw [hname, Rune.length_join]
  have hoff := r.offset_stop_add (Int.le_refl 0)
  rw [Int.add_zero, Int.add_zero, hstop, hlen] at hoff
  simp only [Lexer.identifierToken, token, r.offset_of_le (Int.le_refl _), hname, if_true]
  rw [← Int.natCast_add, hoff, Int.natCast_add]

end Renaming

namespace Lexer

/-- Another identifier behind a dot leaves all other tokens as they are, but for the places of those
behind it. -/
theorem Yields.rename {start : Nat} {front back : List Rune} {pre post : List Token} {dot name : Token}
    (h : Yields start (front ++ back) (pre ++ dot :: name :: post))
    (hp : ∀ r ∈ front ++ back, 0 < r.size) (hdot : dot.kind = .dot) (hk : name.kind = .identifier)
    (htouch : dot.span.stop = name.span.start)
    (hstart : name.span.start = (start + Rune.sizes front : Nat)) :
    ∃ old rest : List Rune, back = old ++ rest ∧ EndsWithDot front ∧
      IsIdentifier (old.map Rune.char) (rest.map Rune.char) ∧
      name = identifierToken (start + Rune.sizes front : Nat) old ∧
      ∀ (r : Renaming) (new : List Rune), r.start = start + Rune.sizes front →
        r.stop = r.start + Rune.sizes old → r.name = Rune.join new →
        IsIdentifier (new.map Rune.char) (rest.map Rune.char) →
        Yields start (front ++ (new ++ rest)) ((pre ++ dot :: name :: post).map r.token) := by
  have hoff : (start : Int) + Rune.sizes front = (start + Rune.sizes front : Nat) :=
    (Int.natCast_add _ _).symm
  have hsplit : Yields start (front ++ back) ((pre ++ [dot]) ++ name :: post) := by simpa using h
  have hbefore := hsplit.before hp
  obtain ⟨hends, hname, hback⟩ := h.cut hp hdot (by rw [htouch, hstart, hoff])
  rw [hoff] at hname hback
  generalize start + Rune.sizes front = at_ at hname hback hstart ⊢
  obtain ⟨old, rest, rfl, hold, heq, hpost⟩ :=
    hname.of_identifier (fun r hr => hp r (List.mem_append_right _ hr)) hk hstart
  obtain ⟨behind, hnonneg, hbehind⟩ := Yields.exists_moved rest fun r hr => hp r (by simp [hr])
  rw [← Int.natCast_add] at hpost
  obtain rfl := hpost.unique (hbehind _)
  refine ⟨old, rest, rfl, hends, hold, heq, ?_⟩
  rintro r new rfl hstop hnew hident
  have hlen : r.name.length = Rune.sizes new := by rw [hnew, Rune.length_join]
  have hpre : (pre ++ [dot]).map r.token = pre ++ [dot] := by
    conv_rhs => rw [← List.map_id (pre ++ [dot])]
    refine List.map_congr_left fun u hu => ?_
    obtain ⟨hlt, hle⟩ := hbefore u hu
    exact r.token_before hlt (hstart ▸ hle)
  have hmoved : (behind.map (·.moved (r.start + Rune.sizes old))).map r.token
      = behind.map (·.moved (r.start + Rune.sizes new)) := by
    rw [List.map_map]
    refine List.map_congr_left fun u hu => ?_
    simp only [Function.comp_apply]
    rw [← hstop, r.token_behind (hnonneg u hu), hlen]
  have hall := hback (new ++ rest) (identifierToken r.start new :: behind.map (·.moved (r.start + Rune.sizes new)))
    (fun q hq => ?_) (.identifier hident ?_)
  · have htokens : (pre ++ dot :: name :: behind.map (·.moved (r.start + Rune.sizes old))).map r.token
        = pre ++ dot :: identifierToken r.start new :: behind.map (·.moved (r.start + Rune.sizes new)) := by
      rw [List.append_cons, List.map_append, hpre, List.map_cons, hmoved, heq, r.token_name hstop hnew]
      exact (List.append_cons _ _ _).symm
    rwa [htokens]
  · obtain ⟨c, cs, hspell, hc, -⟩ := hident.spelling
    obtain ⟨f, fs, rfl, rfl, -⟩ := List.map_eq_cons_iff.mp hspell
    cases Option.mem_some.mp hq
    exact isDigit_of_isWordStart hc
  · rw [← Int.natCast_add]
    exact hbehind _

end Lexer

end HostScript
