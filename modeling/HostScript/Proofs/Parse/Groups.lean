import HostScript.Proofs.Parse.Account

/-!
Tokens between two delimiters. If their delimiters are well nested they are words and groups one after
another, and each word stands directly among them or is enclosed by one of the groups. While the tokens
are read, only some of their groups are closed.
-/

set_option autoImplicit false

namespace HostScript

namespace Parse

@[simp] theorem delimiters_append (ts us : List Token) : delimiters (ts ++ us) = delimiters ts ++ delimiters us := by
  simp [delimiters]

theorem delimiters_of_delimiter {t : Token} (h : isDelimiter t = true) : delimiters [t] = [t.kind] := by
  simpa [delimiters, isDelimiter] using h

theorem delimiters_of_word {t : Token} (h : isDelimiter t = false) : delimiters [t] = [] := by
  simpa [delimiters, isDelimiter] using h

theorem delimiters_eq_append {ts : List Token} {u w : List TokenKind} (h : delimiters ts = u ++ w) :
    ∃ front back, ts = front ++ back ∧ delimiters front = u ∧ delimiters back = w := by
  obtain ⟨us, ws, hkinds, rfl, rfl⟩ := List.filter_eq_append_iff.mp h
  obtain ⟨front, back, rfl, rfl, rfl⟩ := List.map_eq_append_iff.mp hkinds
  exact ⟨front, back, rfl, rfl, rfl⟩

theorem delimiters_eq_cons {ts : List Token} {k : TokenKind} {w : List TokenKind} (h : delimiters ts = k :: w) :
    ∃ front t back, ts = front ++ t :: back ∧ delimiters front = [] ∧ t.kind = k ∧ delimiters back = w := by
  induction ts with
  | nil => cases h
  | cons t ts ih =>
    rw [← List.singleton_append, delimiters_append] at h
    by_cases ht : isDelimiter t = true
    · rw [delimiters_of_delimiter ht] at h
      obtain ⟨hk, hw⟩ := List.cons.inj h
      exact ⟨[], t, ts, rfl, rfl, hk, hw⟩
    · have ht : isDelimiter t = false := by simpa using ht
      rw [delimiters_of_word ht] at h
      obtain ⟨front, u, back, rfl, hfront, hk, hw⟩ := ih h
      refine ⟨t :: front, u, back, rfl, ?_, hk, hw⟩
      rw [← List.singleton_append, delimiters_append, delimiters_of_word ht, hfront]
      rfl

theorem isDelimiter_of_isOpen {t : Token} (h : t.kind.isOpen = true) : isDelimiter t = true := by
  simp [isDelimiter, h]

theorem isDelimiter_of_closer {t : Token} {k : TokenKind} (ho : k.isOpen = true) (h : t.kind = k.closer) :
    isDelimiter t = true := by
  rw [isDelimiter, h]
  revert ho
  cases k <;> decide

/-- Words and groups one after another. -/
inductive Groups : List Token → Prop where
  | nil : Groups []
  | word {t : Token} {ts : List Token} : isDelimiter t = false → Groups ts → Groups (t :: ts)
  | group {o close : Token} {inside rest : List Token} : o.kind.isOpen = true → close.kind = o.kind.closer →
      Groups inside → Groups rest → Groups (o :: (inside ++ close :: rest))

theorem Groups.words {ts rest : List Token} (h : delimiters ts = []) (hr : Groups rest) : Groups (ts ++ rest) := by
  induction ts with
  | nil => exact hr
  | cons t ts ih =>
    rw [← List.singleton_append, delimiters_append, List.append_eq_nil_iff] at h
    refine .word ?_ (ih h.2)
    simpa [delimiters, isDelimiter] using h.1

theorem Nested.groups {word : List TokenKind} (h : Nested word) {ts : List Token} (hts : delimiters ts = word) :
    Groups ts := by
  induction h generalizing ts with
  | nil => simpa using Groups.words hts .nil
  | group ho _ _ ihu ihw =>
    obtain ⟨front, o, back, rfl, hfront, rfl, hback⟩ := delimiters_eq_cons hts
    obtain ⟨inside, back, rfl, hinside, hback⟩ := delimiters_eq_append hback
    obtain ⟨gap, close, rest, rfl, hgap, hclose, hrest⟩ := delimiters_eq_cons hback
    have hwords : delimiters (inside ++ gap) = delimiters inside := by simp [hgap]
    have hgroup := Groups.group ho hclose (ihu (hwords.trans hinside)) (ihw hrest)
    simpa using hgroup.words hfront

theorem Groups.nested {ts : List Token} (h : Groups ts) : Nested (delimiters ts) := by
  induction h with
  | nil => exact .nil
  | @word t ts ht _ ih => rwa [← List.singleton_append, delimiters_append, delimiters_of_word ht]
  | @group o close inside rest ho hclose _ _ ihi ihr =>
    have hsplit : o :: (inside ++ close :: rest) = [o] ++ (inside ++ ([close] ++ rest)) := by simp
    rw [hsplit, delimiters_append, delimiters_append, delimiters_append,
      delimiters_of_delimiter (isDelimiter_of_closer ho hclose), hclose,
      delimiters_of_delimiter (isDelimiter_of_isOpen ho)]
    exact .group ho ihi ihr

/-- All groups that are opened before the token are closed before it. -/
def Direct (ts : List Token) (t : Token) : Prop := ∃ u v, ts = u ++ t :: v ∧ Nested (delimiters u)

/-- The token stands between two delimiters that belong together. -/
structure Encloses (ts : List Token) (t o close : Token) (inside : List Token) : Prop where
  tokens : ∃ u v, ts = u ++ o :: (inside ++ close :: v)
  isOpen : o.kind.isOpen = true
  closer : close.kind = o.kind.closer
  nested : Nested (delimiters inside)
  mem : t ∈ inside

def Enclosed (ts : List Token) (t : Token) : Prop := ∃ o close inside, Encloses ts t o close inside

theorem Direct.prepend {front ts : List Token} {t : Token} (hf : Groups front) (h : Direct ts t) :
    Direct (front ++ ts) t := by
  obtain ⟨u, v, rfl, hu⟩ := h
  exact ⟨front ++ u, v, by simp, delimiters_append front u ▸ hf.nested.append hu⟩

theorem Enclosed.prepend (front : List Token) {ts : List Token} {t : Token} (h : Enclosed ts t) :
    Enclosed (front ++ ts) t := by
  obtain ⟨o, close, inside, ⟨u, v, rfl⟩, ho, hc, hn, hm⟩ := h
  exact ⟨o, close, inside, ⟨front ++ u, v, by simp⟩, ho, hc, hn, hm⟩

theorem Groups.direct_or_enclosed {ts : List Token} (h : Groups ts) {t : Token} (ht : t ∈ ts)
    (hk : isDelimiter t = false) : Direct ts t ∨ Enclosed ts t := by
  induction h with
  | nil => cases ht
  | @word w ts hw _ ih =>
    rcases List.mem_cons.mp ht with rfl | ht
    · exact .inl ⟨[], ts, rfl, .nil⟩
    · exact (ih ht).imp (Direct.prepend (.word hw .nil)) (Enclosed.prepend [w])
  | @group o close inside rest ho hclose hi _ _ ihr =>
    have hsplit : o :: (inside ++ close :: rest) = (o :: (inside ++ [close])) ++ rest := by simp
    rcases List.mem_cons.mp ht with rfl | ht
    · exact absurd (isDelimiter_of_isOpen ho) (by simp [hk])
    · rcases List.mem_append.mp ht with ht | ht
      · exact .inr ⟨o, close, inside, ⟨[], rest, rfl⟩, ho, hclose, hi.nested, ht⟩
      · rcases List.mem_cons.mp ht with rfl | ht
        · exact absurd (isDelimiter_of_closer ho hclose) (by simp [hk])
        · rw [hsplit]
          exact (ihr ht).imp (Direct.prepend (.group ho hclose hi .nil)) (Enclosed.prepend _)

theorem closes_suffix {stack u v : List TokenKind} (h : closes stack (u ++ v) = true) :
    ∃ stack', closes stack' v = true := by
  induction u generalizing stack with
  | nil => exact ⟨stack, h⟩
  | cons k u ih =>
    by_cases ho : k.isOpen = true
    · have hrest : closes (k :: stack) (u ++ v) = true := by simpa [closes, ho] using h
      exact ih hrest
    · cases stack with
      | nil => simp [closes, ho] at h
      | cons top stack =>
        have hboth : top.closer = k ∧ closes stack (u ++ v) = true := by simpa [closes, ho] using h
        exact ih hboth.2

theorem Nested.closed {u v : List TokenKind} {o : TokenKind} (h : Nested (u ++ o :: v)) (ho : o.isOpen = true) :
    ∃ inside rest, v = inside ++ o.closer :: rest ∧ Nested inside := by
  obtain ⟨stack, hs⟩ := closes_suffix ((closes_iff_nested _).mpr h)
  obtain ⟨inside, rest, hv, hinside, -⟩ := unwinds_of_closes (o :: stack) v (by simpa [closes, ho] using hs)
  exact ⟨inside, rest, hv, hinside⟩

theorem Nested.not_closer {u v : List TokenKind} {o : TokenKind} (hu : Nested u) :
    ¬ Nested (u ++ o.closer :: v) := by
  rw [← closes_iff_nested, hu.closes_append, closes, closer_not_isOpen]
  simp

theorem Direct.not_enclosed {ts : List Token} {t : Token} (hnodup : ts.Nodup) (h : Direct ts t) :
    ¬ Enclosed ts t := by
  rintro ⟨o, close, inside, ⟨pre, post, hts⟩, ho, -, hinside, ht⟩
  obtain ⟨u, v, rfl, hu⟩ := h
  obtain ⟨before, after, rfl⟩ := List.append_of_mem ht
  have hsplit : u ++ t :: v = (pre ++ o :: before) ++ t :: (after ++ close :: post) := by simpa using hts
  have hnotin := List.nodup_append.mp (hsplit ▸ hnodup)
  have hnotin' := List.nodup_append.mp hnodup
  obtain ⟨rfl, -, -⟩ := (List.append_cons_inj_of_notMem
    (fun hm => hnotin'.2.2 t hm t List.mem_cons_self rfl)
    (List.nodup_cons.mp hnotin'.2.1).1).mp hsplit
  -- The group that holds the token would be closed before it.
  have hcons : pre ++ o :: before = pre ++ ([o] ++ before) := rfl
  rw [hcons, delimiters_append, delimiters_append, delimiters_of_delimiter (isDelimiter_of_isOpen ho),
    List.singleton_append] at hu
  obtain ⟨closed, rest, hbefore, hclosed⟩ := hu.closed ho
  rw [delimiters_append, hbefore, List.append_assoc, List.cons_append] at hinside
  exact hclosed.not_closer hinside

/-- A word among well-nested delimiters stands directly there or is enclosed, and never both. -/
theorem direct_iff {ts : List Token} {t : Token} (hn : Nested (delimiters ts)) (hnodup : ts.Nodup) (ht : t ∈ ts)
    (hk : isDelimiter t = false) : Direct ts t ↔ ¬ Enclosed ts t :=
  ⟨Direct.not_enclosed hnodup, ((hn.groups rfl).direct_or_enclosed ht hk).resolve_right⟩

theorem split_snoc {α : Type} {as u v : List α} {a b : α} (h : as ++ [a] = u ++ b :: v) :
    (as = u ∧ a = b ∧ v = []) ∨ ∃ w, v = w ++ [a] ∧ as = u ++ b :: w := by
  rcases List.eq_nil_or_concat v with rfl | ⟨w, c, rfl⟩
  · obtain ⟨hu, hb⟩ := List.append_inj' h rfl
    exact .inl ⟨hu, List.singleton_inj.mp hb, rfl⟩
  · have h : as ++ [a] = (u ++ b :: w) ++ [c] := by simpa using h
    obtain ⟨hu, hc⟩ := List.append_inj' h rfl
    obtain rfl := List.singleton_inj.mp hc
    exact .inr ⟨w, List.concat_eq_append, hu⟩

theorem direct_snoc {ts : List Token} {t x : Token} :
    Direct (ts ++ [t]) x ↔ Direct ts x ∨ x = t ∧ Nested (delimiters ts) := by
  constructor
  · rintro ⟨u, v, hsplit, hu⟩
    rcases split_snoc hsplit with ⟨rfl, rfl, -⟩ | ⟨w, -, rfl⟩
    · exact .inr ⟨rfl, hu⟩
    · exact .inl ⟨u, w, rfl, hu⟩
  · rintro (⟨u, v, rfl, hu⟩ | ⟨rfl, hn⟩)
    · exact ⟨u, v ++ [t], by simp, hu⟩
    · exact ⟨ts, [], rfl, hn⟩

/-- The tokens leave groups of these delimiters open, the innermost first, and close all others. -/
def Leaves (opened : List TokenKind) (ts : List Token) : Prop :=
  ∀ stack word, closes stack (delimiters ts ++ word) = closes (opened ++ stack) word

namespace Leaves

variable {opened : List TokenKind} {ts : List Token} {t : Token}

theorem nil : Leaves [] [] := fun _ _ => rfl

theorem word (h : Leaves opened ts) (hk : isDelimiter t = false) : Leaves opened (ts ++ [t]) := by
  intro stack w
  rw [delimiters_append, delimiters_of_word hk, List.append_nil]
  exact h stack w

theorem opens (h : Leaves opened ts) (hk : t.kind.isOpen = true) : Leaves (t.kind :: opened) (ts ++ [t]) := by
  intro stack w
  rw [delimiters_append, delimiters_of_delimiter (isDelimiter_of_isOpen hk), List.append_assoc, h,
    List.singleton_append]
  simp [Parse.closes, hk]

theorem closes {k : TokenKind} (h : Leaves (k :: opened) ts) (hc : t.kind.isClose = true)
    (hk : k.closer = t.kind) : Leaves opened (ts ++ [t]) := by
  intro stack w
  rw [delimiters_append, delimiters_of_delimiter (by simp [isDelimiter, hc]), List.append_assoc, h,
    List.singleton_append, List.cons_append]
  simp [Parse.closes, not_isOpen_of_isClose hc, hk]

theorem nested_iff (h : Leaves opened ts) : Nested (delimiters ts) ↔ opened = [] := by
  have hcloses := h [] []
  rw [List.append_nil, List.append_nil] at hcloses
  rw [← closes_iff_nested, hcloses]
  cases opened <;> simp [Parse.closes]

theorem ne_nil (h : Leaves opened ts) (ho : opened ≠ []) : ts ≠ [] := by
  rintro rfl
  exact ho (h.nested_iff.mp .nil)

end Leaves

end Parse

end HostScript
