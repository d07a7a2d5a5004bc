import HostScript.Proofs.Parse.Nesting

/-!
All that one token of a body does to the open delimiters, to the calls and to the findings. A closing
delimiter ends the innermost group that it fits or none, and a broken literal drops groups of its line;
whatever else the token is, the open delimiters stay as they are, or one more is open.
-/

set_option autoImplicit false

namespace HostScript

namespace Parse

def Opener.alter (o : Opener) (f : Call → Call) (calls : List Call) : List Call :=
  match o.call with
  | some i => calls.modify i f
  | none => calls

def withComma (comma : Int) (c : Call) : Call := { c with commas := c.commas ++ [comma] }

namespace Walk

def newCall? (doc : Document) (w : Walk) (t : Token) : Option Call :=
  if t.kind = .parenOpen then callAt? doc w t else none

def opener (doc : Document) (w : Walk) (t : Token) : Opener :=
  { kind := t.kind, start := t.span.start, line := doc.lineAt t.span.start
    call := (newCall? doc w t).map fun _ => w.calls.length }

/-- What a token does to a walk, apart from being remembered. -/
inductive Move (doc : Document) (w : Walk) (t : Token) (w' : Walk) : Prop where
  | opens : t.kind.isOpen = true → w'.stack = opener doc w t :: w.markContent.stack →
      w'.calls = w.calls ++ (newCall? doc w t).toList → w'.diagnostics = w.diagnostics → Move doc w t w'
  | closes {skipped rest : List Opener} {top : Opener} : t.kind.isClose = true →
      w.stack = skipped ++ top :: rest → top.kind.closer = t.kind → w'.stack = rest →
      w'.calls = top.alter (·.close t.span.start top.content) w.calls →
      w'.diagnostics = w.diagnostics ++ skipped.map (unclosed doc t.span.start) → Move doc w t w'
  | stray {code : String} {message : Bytes} : t.kind.isClose = true →
      code = unexpectedCode ∨ code = mismatchedCode → w'.stack = w.stack → w'.calls = w.calls →
      w'.diagnostics = w.diagnostics ++ [finding doc t.span.start t.span.stop .error code message] →
      Move doc w t w'
  | drops {dropped : List Opener} {message : Bytes} : t.kind = .error →
      t.text ≠ utf8 Lexer.unterminatedComment → w.markContent.stack = dropped ++ w'.stack →
      (∀ o ∈ dropped, o.line = doc.lineAt t.span.start ∧ o.kind ≠ .braceOpen) → w'.calls = w.calls →
      w'.diagnostics = w.diagnostics ++
        [finding doc t.span.start t.span.stop .error unterminatedStringCode message] → Move doc w t w'
  | comma : t.kind = .comma → w'.stack = w.markContent.stack →
      w'.calls = (w.markContent.stack.head?.elim id fun o => o.alter (withComma t.span.start)) w.calls →
      w'.diagnostics = w.diagnostics → Move doc w t w'
  | remarks {severity : Severity} {code : String} {message : Bytes} : t.kind.isOpen = false →
      t.kind.isClose = false → t.kind ≠ .comma → code ∉ delimiterCodes → w'.stack = w.markContent.stack →
      w'.calls = w.calls →
      w'.diagnostics = w.diagnostics ++ [finding doc t.span.start t.span.stop severity code message] →
      Move doc w t w'
  | passes : t.kind.isOpen = false → t.kind.isClose = false → t.kind ≠ .comma →
      w'.stack = w.markContent.stack → w'.calls = w.calls → w'.diagnostics = w.diagnostics → Move doc w t w'

theorem markContent_same (w : Walk) : w.markContent.calls = w.calls ∧ w.markContent.recent = w.recent := by
  unfold markContent
  split <;> exact ⟨rfl, rfl⟩

theorem newCall?_markContent (doc : Document) (w : Walk) (t : Token) :
    (if t.kind = .parenOpen then callAt? doc w.markContent t else none) = newCall? doc w t := by
  unfold newCall? callAt?
  rw [(markContent_same w).2]

theorem exists_first {α : Type} {p : α → Bool} {as : List α} (h : as.any p = true) :
    ∃ a rest, as.drop (as.takeWhile fun a => !p a).length = a :: rest ∧ p a = true := by
  induction as with
  | nil => cases h
  | cons b as ih =>
    by_cases hb : p b = true
    · exact ⟨b, as, by simp [hb], hb⟩
    · obtain ⟨a, rest, hd, ha⟩ := ih (by simpa [hb] using h)
      exact ⟨a, rest, by simpa [hb] using hd, ha⟩

theorem closeGroup_move (doc : Document) (w : Walk) {t : Token} (h : t.kind.isClose = true) :
    Move doc w t (closeGroup doc w t) := by
  unfold closeGroup
  simp only
  split
  · exact .stray h (.inl rfl) rfl rfl rfl
  · split
    · rename_i hany
      obtain ⟨o, kept, hdrop, hfits⟩ := exists_first hany
      have hsplit : (w.stack.takeWhile fun o => !fits t o) ++ o :: kept = w.stack := by
        rw [← hdrop]
        exact List.prefix_iff_eq_append.mp (List.takeWhile_prefix _)
      refine .closes h hsplit.symm (by simpa [fits] using hfits) ?_ ?_ (pop_diagnostics _ _)
      · simp only [pop, hdrop]
      · simp only [pop, hdrop]
        rfl
    · exact .stray h (.inr rfl) rfl rfl rfl

theorem lexicalError_move (doc : Document) (w : Walk) {t : Token} (h : t.kind = .error) :
    Move doc w t (lexicalError doc w.markContent t) := by
  unfold lexicalError
  simp only
  split
  · exact .remarks (by simp [h, TokenKind.isOpen]) (by simp [h, TokenKind.isClose]) (by simp [h]) (by decide)
      rfl (markContent_same w).1 (congrArg (· ++ _) (markContent_diagnostics w))
  · rename_i htext
    refine .drops h htext List.takeWhile_append_dropWhile.symm (fun o ho => ?_) (markContent_same w).1
      (congrArg (· ++ _) (markContent_diagnostics w))
    have hall := List.all_eq_true.mp (List.all_takeWhile (p := fun o : Opener =>
      o.line == doc.lineAt t.span.start && o.kind != .braceOpen)) o ho
    simpa using hall

theorem comma_move (doc : Document) (w : Walk) {t : Token} (h : t.kind = .comma) :
    Move doc w t (Walk.comma w.markContent t) := by
  refine .comma h ?_ ?_ ((comma_diagnostics _ t).trans (markContent_diagnostics w))
  · unfold Walk.comma
    split
    · split <;> rfl
    · rfl
  · unfold Walk.comma
    split
    · rename_i top rest hs
      rw [hs]
      split
      · rename_i i hi
        simp only [Option.elim, List.head?_cons, Opener.alter, hi, (markContent_same w).1]
        rfl
      · rename_i hi
        simp [Opener.alter, hi, (markContent_same w).1]
    · rename_i hs
      rw [hs]
      exact (markContent_same w).1

theorem dispatch_move (doc : Document) (w : Walk) (t : Token) :
    Move doc w t (dispatch doc (if t.kind.isClose then w else w.markContent) t) := by
  by_cases hc : t.kind.isClose = true
  · rw [if_pos hc, dispatch_of_isClose hc]
    exact closeGroup_move doc w hc
  · rw [if_neg hc, dispatch]
    split
    · rename_i he
      exact lexicalError_move doc w he
    · split
      · rename_i hi
        exact .remarks (by simp [hi, TokenKind.isOpen]) (by simp [hi, TokenKind.isClose]) (by simp [hi])
          (by decide) rfl (markContent_same w).1 (congrArg (· ++ _) (markContent_diagnostics w))
      · split
        · rename_i ho
          refine .opens ho ?_ ?_ (markContent_diagnostics w)
          · simp only [openGroup, opener, newCall?_markContent, (markContent_same w).1]
          · simp only [openGroup, newCall?_markContent, (markContent_same w).1]
        · rename_i ho
          split
          · rename_i hcomma
            exact comma_move doc w hcomma
          · rename_i hcomma
            exact .passes (by simpa using ho) (by simpa using hc) hcomma rfl (markContent_same w).1
              (markContent_diagnostics w)

theorem Move.congr {doc : Document} {w v v' : Walk} {t : Token} (h : Move doc w t v)
    (hs : v.stack = v'.stack) (hc : v.calls = v'.calls) (hd : v.diagnostics = v'.diagnostics) :
    Move doc w t v' := by
  cases h with
  | opens hk hstack hcalls hds => exact .opens hk (hs ▸ hstack) (hc ▸ hcalls) (hd ▸ hds)
  | closes hk hsplit hfit hstack hcalls hds =>
    exact .closes hk hsplit hfit (hs ▸ hstack) (hc ▸ hcalls) (hd ▸ hds)
  | stray hk hcode hstack hcalls hds => exact .stray hk hcode (hs ▸ hstack) (hc ▸ hcalls) (hd ▸ hds)
  | drops hk htext hsplit hline hcalls hds =>
    exact .drops hk htext (hs ▸ hsplit) hline (hc ▸ hcalls) (hd ▸ hds)
  | comma hk hstack hcalls hds => exact .comma hk (hs ▸ hstack) (hc ▸ hcalls) (hd ▸ hds)
  | remarks ho hk hne hcode hstack hcalls hds =>
    exact .remarks ho hk hne hcode (hs ▸ hstack) (hc ▸ hcalls) (hd ▸ hds)
  | passes ho hk hne hstack hcalls hds => exact .passes ho hk hne (hs ▸ hstack) (hc ▸ hcalls) (hd ▸ hds)

theorem step_move (doc : Document) (w : Walk) (t : Token) : Move doc w t (step doc w t) :=
  (dispatch_move doc w t).congr rfl rfl rfl

theorem step_recent (doc : Document) (w : Walk) (t : Token) : (step doc w t).recent = (t :: w.recent).take 3 := by
  have hdispatch (v : Walk) : (dispatch doc v t).recent = v.recent := by
    unfold dispatch lexicalError closeGroup pop Walk.comma
    simp only
    repeat' split
    all_goals rfl
  show (t :: (dispatch doc (if t.kind.isClose then w else w.markContent) t).recent).take 3 = _
  rw [hdispatch]
  split
  · rfl
  · rw [(markContent_same w).2]

theorem map_modify {α β : Type} {f : α → β} {g : α → α} {k : β → β} (h : ∀ a, f (g a) = k (f a))
    (as : List α) (i : Nat) : (as.modify i g).map f = (as.map f).modify i k := by
  refine List.ext_getElem? fun j => ?_
  simp only [List.getElem?_map, List.getElem?_modify]
  cases as[j]? with
  | none => rfl
  | some a => by_cases hj : i = j <;> simp [hj, h]

theorem alter_map {β : Type} {f : Call → Call} {k : Call → β} (o : Opener) (calls : List Call)
    (h : ∀ c, k (f c) = k c) : (o.alter f calls).map k = calls.map k := by
  unfold Opener.alter
  split
  · rw [map_modify (k := id) (fun c => by rw [h, id]), List.modify_id]
  · rfl

theorem newCall?_eq_none {doc : Document} {w : Walk} {t : Token} (h : t.kind.isOpen = false) :
    newCall? doc w t = none := by
  unfold newCall?
  split
  · rename_i hk
    rw [hk] at h
    cases h
  · rfl

/-- What neither a comma nor the end of a call changes stays, and only a token that begins a call adds to
it. -/
theorem Move.map_calls {β : Type} {doc : Document} {w w' : Walk} {t : Token} {f : Call → β}
    (h : Move doc w t w') (hclose : ∀ c stop content, f (c.close stop content) = f c)
    (hcomma : ∀ c comma, f (withComma comma c) = f c) :
    w'.calls.map f = w.calls.map f ++ (newCall? doc w t).toList.map f := by
  have hsame (ho : t.kind.isOpen = false) (hc : w'.calls.map f = w.calls.map f) :
      w'.calls.map f = w.calls.map f ++ (newCall? doc w t).toList.map f := by
    rw [hc, newCall?_eq_none ho]
    simp
  cases h with
  | opens hk hs hc hd => rw [hc, List.map_append]
  | @closes _ _ top hk hsplit hfit hs hc hd =>
    exact hsame (not_isOpen_of_isClose hk) (hc ▸ alter_map top _ fun c => hclose c _ _)
  | stray hk hcode hs hc hd => exact hsame (not_isOpen_of_isClose hk) (congrArg _ hc)
  | drops hk htext hsplit hline hc hd => exact hsame (by simp [hk, TokenKind.isOpen]) (congrArg _ hc)
  | comma hk hs hc hd =>
    refine hsame (by simp [hk, TokenKind.isOpen]) ?_
    rw [hc]
    cases w.markContent.stack.head? with
    | none => rfl
    | some o => exact alter_map o _ fun c => hcomma c _
  | remarks ho hk hne hcode hs hc hd => exact hsame ho (congrArg _ hc)
  | passes ho hk hne hs hc hd => exact hsame ho (congrArg _ hc)

end Walk

end Parse

end HostScript
