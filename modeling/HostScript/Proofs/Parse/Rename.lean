import HostScript.Proofs.Parse.Places
import HostScript.Proofs.Token.Rename

/-!
Reading a block in which one identifier stands for another. No step of a walk asks for the text of an
identifier, and all other tokens are the same with their places moved along, so the calls are the same
but for the one that is renamed.
-/

set_option autoImplicit false

namespace HostScript

namespace Parse

/-- What a reading says of a call, wherever the call stands. -/
structure Outline where
  space : Bytes
  name : Bytes
  args : Nat
  commas : Nat
  closed : Bool
  deriving DecidableEq

def outline (c : Call) : Outline := ⟨c.space, c.name, c.args, c.commas.length, c.isClosed⟩

namespace Outline

def close (o : Outline) (hasContent : Bool) : Outline :=
  { o with args := if hasContent then o.commas + 1 else o.args, closed := true }

def comma (o : Outline) : Outline := { o with commas := o.commas + 1 }

def withName (o : Outline) (name : Bytes) : Outline := { o with name }

end Outline

theorem outline_close (c : Call) (offset : Int) (hasContent : Bool) :
    outline (c.close offset hasContent) = (outline c).close hasContent := rfl

theorem outline_comma (c : Call) (offset : Int) :
    outline { c with commas := c.commas ++ [offset] } = (outline c).comma := by
  simp [outline, Outline.comma, Call.isClosed]

end Parse

namespace Renaming

variable (r : Renaming)

def opener (o : Parse.Opener) : Parse.Opener := { o with start := r.offset o.start }

/-- The outline of a call afterwards. -/
def outline (d : Document) (c : Call) : Parse.Outline :=
  if c.nameRange.start = d.positionAt r.start then (Parse.outline c).withName r.name else Parse.outline c

/-- A token of the first document that has its like in the second one. -/
structure Fits (d e : Document) (t : Token) : Prop where
  start_clear : r.Clear t.span.start
  stop_clear : r.Clear t.span.stop
  line : e.lineAt (r.offset t.span.start) = d.lineAt t.span.start
  place : Parse.place d t = d.positionAt r.start → t.span.start = r.start
  identifier : t.span.start = r.start → t.kind = .identifier ∧ t.span.stop = r.stop
  -- So the name is not the namespace of another call.
  no_dot : t.span.start = r.stop → t.kind ≠ .dot

end Renaming

namespace Parse.Walk

/-- A walk over the tokens of a block, and the one over the tokens with the name replaced. -/
structure Renamed (r : Renaming) (d e : Document) (w w' : Walk) : Prop where
  stack : w'.stack = w.stack.map r.opener
  recent : w'.recent = w.recent.map r.token
  fits : ∀ t ∈ w.recent, r.Fits d e t
  calls : w'.calls.map outline = w.calls.map (r.outline d)

section

variable {r : Renaming} {d e : Document} {w w' : Walk} (h : Renamed r d e w w')

include h

theorem Renamed.congr {v v' : Walk} (hs : v.stack = w.stack) (hs' : v'.stack = w'.stack)
    (hr : v.recent = w.recent) (hr' : v'.recent = w'.recent) (hc : v.calls = w.calls)
    (hc' : v'.calls = w'.calls) : Renamed r d e v v' :=
  ⟨by rw [hs, hs', h.stack], by rw [hr, hr', h.recent], by rw [hr]; exact h.fits, by rw [hc, hc', h.calls]⟩

theorem Renamed.report (ds ds' : List Diagnostic) : Renamed r d e (w.report ds) (w'.report ds') :=
  h.congr rfl rfl rfl rfl rfl rfl

theorem Renamed.withStack (stack : List Opener) :
    Renamed r d e { w with stack } { w' with stack := stack.map r.opener } :=
  ⟨rfl, h.recent, h.fits, h.calls⟩

theorem Renamed.modify (i : Nat) {f f' : Call → Call} {g : Outline → Outline}
    (hf : ∀ c, outline (f c) = g (outline c)) (hf' : ∀ c, outline (f' c) = g (outline c))
    (hr : ∀ c, (f c).nameRange = c.nameRange) (hg : ∀ o name, g (o.withName name) = (g o).withName name) :
    Renamed r d e { w with calls := w.calls.modify i f } { w' with calls := w'.calls.modify i f' } := by
  have hrenamed (c : Call) : r.outline d (f c) = g (r.outline d c) := by
    unfold Renaming.outline
    rw [hr, hf]
    split
    · rw [hg]
    · rfl
  refine ⟨h.stack, h.recent, h.fits, ?_⟩
  simp only
  rw [map_modify hf', map_modify hrenamed, h.calls]

theorem Renamed.markContent : Renamed r d e w.markContent w'.markContent := by
  obtain ⟨stack, calls, recent, diagnostics⟩ := w
  obtain ⟨stack', calls', recent', diagnostics'⟩ := w'
  have hs := h.stack
  simp only at hs
  subst hs
  cases stack with
  | nil => exact h
  | cons top rest => exact ⟨rfl, h.recent, h.fits, h.calls⟩

theorem Renamed.pop (t : Token) : Renamed r d e (pop w t) (pop w' (r.token t)) := by
  have hs := h.stack
  unfold Walk.pop
  cases hw : w.stack with
  | nil =>
    rw [hw] at hs
    simp only [hs, List.map_nil]
    exact h
  | cons top rest =>
    rw [hw] at hs
    have hcall : (r.opener top).call = top.call := rfl
    simp only [hs, List.map_cons, hcall]
    cases top.call with
    | none => exact h.withStack rest
    | some i =>
      exact (h.withStack rest).modify i (g := (·.close top.content)) (fun c => outline_close c _ _)
        (fun c => outline_close c _ _) (fun _ => rfl) fun _ _ => rfl

theorem Renamed.comma (t : Token) : Renamed r d e (comma w t) (comma w' (r.token t)) := by
  have hs := h.stack
  unfold Walk.comma
  cases hw : w.stack with
  | nil =>
    rw [hw] at hs
    simp only [hs, List.map_nil]
    exact h
  | cons top rest =>
    rw [hw] at hs
    have hcall : (r.opener top).call = top.call := rfl
    simp only [hs, List.map_cons, hcall]
    cases top.call with
    | none => exact h
    | some i =>
      have hboth := h.modify i (g := Outline.comma) (fun c => outline_comma c t.span.start)
        (fun c => outline_comma c (r.token t).span.start) (fun _ => rfl) fun _ _ => rfl
      rw [hw, hs] at hboth
      exact hboth

theorem Renamed.closeGroup (t : Token) : Renamed r d e (closeGroup d w t) (closeGroup e w' (r.token t)) := by
  have hs := h.stack
  unfold Walk.closeGroup
  simp only
  cases hw : w.stack with
  | nil =>
    rw [hw] at hs
    simp only [hs, List.map_nil]
    exact h.report _ _
  | cons top rest =>
    rw [hw] at hs
    -- Whether a delimiter fits is a matter of kinds, so the same groups are skipped.
    have hany : ((top :: rest).map r.opener).any (Walk.fits (r.token t)) = (top :: rest).any (Walk.fits t) :=
      List.any_map
    have hskipped : ((top :: rest).map r.opener).takeWhile (fun o => !Walk.fits (r.token t) o)
        = ((top :: rest).takeWhile fun o => !Walk.fits t o).map r.opener := List.takeWhile_map
    rw [hs]
    simp only [List.map_cons] at hany hskipped ⊢
    simp only [hany]
    split
    · rw [hskipped, List.length_map, ← List.map_cons, ← List.map_drop]
      exact ((h.report _ _).withStack _).pop t
    · exact h.report _ _

variable {t : Token} (ht : r.Fits d e t)

include ht

theorem Renamed.lexicalError (hk : t.kind = .error) :
    Renamed r d e (lexicalError d w t) (lexicalError e w' (r.token t)) := by
  have htext : (r.token t).text = t.text := by
    refine if_neg fun hstart => ?_
    rw [(ht.identifier hstart).1] at hk
    cases hk
  have hline : e.lineAt (r.token t).span.start = d.lineAt t.span.start := ht.line
  simp only [Walk.lexicalError, htext, hline]
  split
  · exact h.report _ _
  · rw [h.stack, List.dropWhile_map]
    exact (h.report _ _).withStack _

omit ht in
/-- The call that an opening parenthesis begins is the same but for its name. -/
theorem Renamed.callAt? (t : Token) :
    (callAt? e w' (r.token t)).map outline = (callAt? d w t).map (r.outline d) := by
  have hr := h.recent
  have hfits := h.fits
  unfold Walk.callAt?
  match hw : w.recent with
  | [] | [_] | [_, _] =>
    rw [hw] at hr
    simp [hr]
  | name :: dot :: space :: rest =>
    rw [hw] at hr hfits
    have hname := hfits name (by simp)
    have hdot := hfits dot (by simp)
    have hspace := hfits space (by simp)
    have hfirst : (r.token space).span.stop = (r.token dot).span.start ↔ space.span.stop = dot.span.start :=
      r.offset_inj hspace.stop_clear hdot.start_clear
    have hsecond : (r.token dot).span.stop = (r.token name).span.start ↔ dot.span.stop = name.span.start :=
      r.offset_inj hdot.stop_clear hname.start_clear
    simp only [hr, List.map_cons, Renaming.token_kind, hfirst, hsecond]
    split
    · rename_i hcall
      obtain ⟨_, hk, _, htouch, _⟩ := hcall
      have htext : (r.token space).text = space.text := by
        refine if_neg fun hstart => hdot.no_dot ?_ hk
        rw [← htouch, (hspace.identifier hstart).2]
      have hrange : (d.range name.span.start name.span.stop).start = d.positionAt r.start
          ↔ name.span.start = r.start := ⟨hname.place, congrArg d.positionAt⟩
      have hnametext : (r.token name).text = if name.span.start = r.start then r.name else name.text := rfl
      simp only [Option.map_some, outline, Renaming.outline, hrange, htext, hnametext]
      split <;> rfl
    · rfl

theorem Renamed.openGroup : Renamed r d e (openGroup d w t) (openGroup e w' (r.token t)) := by
  have hline : e.lineAt (r.token t).span.start = d.lineAt t.span.start := ht.line
  have hlength : w'.calls.length = w.calls.length := by
    rw [← List.length_map outline, h.calls, List.length_map]
  have hcall : (if t.kind = .parenOpen then Walk.callAt? e w' (r.token t) else none).map outline
      = (if t.kind = .parenOpen then Walk.callAt? d w t else none).map (r.outline d) := by
    split
    · exact h.callAt? t
    · rfl
  simp only [Walk.openGroup, hline, hlength]
  rw [Renaming.token_kind]
  generalize (if t.kind = .parenOpen then Walk.callAt? e w' (r.token t) else none) = call' at hcall ⊢
  generalize (if t.kind = .parenOpen then Walk.callAt? d w t else none) = call at hcall ⊢
  cases call with
  | none =>
    obtain rfl : call' = none := by simpa using hcall
    exact ⟨by simp [h.stack, Renaming.opener, Renaming.token], h.recent, h.fits, by simpa using h.calls⟩
  | some c =>
    obtain ⟨c', rfl, hc⟩ := Option.map_eq_some_iff.mp hcall
    exact ⟨by simp [h.stack, Renaming.opener, Renaming.token], h.recent, h.fits, by simp [h.calls, hc]⟩

theorem Renamed.dispatch : Renamed r d e (dispatch d w t) (dispatch e w' (r.token t)) := by
  unfold Walk.dispatch
  rw [Renaming.token_kind]
  split
  · rename_i hk
    exact h.lexicalError ht hk
  · split
    · exact h.report _ _
    · split
      · exact h.openGroup ht
      · split
        · exact h.closeGroup t
        · split
          · exact h.comma t
          · exact h

theorem Renamed.step : Renamed r d e (step d w t) (step e w' (r.token t)) := by
  have hmarked : Renamed r d e (if t.kind.isClose then w else w.markContent)
      (if (r.token t).kind.isClose then w' else w'.markContent) := by
    rw [Renaming.token_kind]
    split
    · exact h
    · exact h.markContent
  have hd := hmarked.dispatch ht
  refine ⟨hd.stack, ?_, fun u hu => ?_, hd.calls⟩
  · simp only [Walk.step, hd.recent, ← List.map_cons, List.map_take]
  · cases List.mem_cons.mp (List.mem_of_mem_take hu) with
    | inl hu => rw [hu]; exact ht
    | inr hu => exact hd.fits u hu

omit ht in
theorem Renamed.foldl {tokens : List Token} (ht : ∀ t ∈ tokens, r.Fits d e t) :
    Renamed r d e (tokens.foldl (Walk.step d) w) ((tokens.map r.token).foldl (Walk.step e) w') := by
  induction tokens generalizing w w' with
  | nil => exact h
  | cons t tokens ih =>
    exact ih (h.step (ht t List.mem_cons_self)) fun u hu => ht u (List.mem_cons_of_mem _ hu)

end

end Parse.Walk

namespace Parse

theorem codeTokens_renamed (r : Renaming) (tokens : List Token) :
    codeTokens (tokens.map r.token) = (codeTokens tokens).map r.token := List.filter_map

/-- The calls of a block after a renaming. -/
theorem walk_renamed {r : Renaming} {d e : Document} (b b' : Block) {tokens : List Token}
    (ht : ∀ t ∈ codeTokens tokens, r.Fits d e t) :
    (walk e b' (tokens.map r.token)).calls.map outline = (walk d b tokens).calls.map (r.outline d) := by
  have hempty : Walk.Renamed r d e {} {} := ⟨rfl, rfl, by simp, rfl⟩
  rw [walk, codeTokens_renamed]
  exact (hempty.foldl ht).calls

/-- Only the call at the renamed place gets another name, if no two calls stand at one place. -/
theorem map_outline_eq_modify {r : Renaming} {d : Document} {calls : List Call} {i : Nat} {c : Call}
    (hnodup : (calls.map (·.nameRange.start)).Nodup) (hi : calls[i]? = some c)
    (hc : c.nameRange.start = d.positionAt r.start) :
    calls.map (r.outline d) = (calls.map outline).modify i (·.withName r.name) := by
  refine List.ext_getElem? fun j => ?_
  rw [List.getElem?_modify, List.getElem?_map, List.getElem?_map]
  cases hj : calls[j]? with
  | none => rfl
  | some x =>
    have hsame : x.nameRange.start = d.positionAt r.start ↔ i = j := by
      have hcj : (calls.map (·.nameRange.start))[j]? = some x.nameRange.start := by simp [hj]
      have hci : (calls.map (·.nameRange.start))[i]? = some c.nameRange.start := by simp [hi]
      constructor
      · intro hx
        rw [hx, ← hc, ← hci] at hcj
        exact (List.getElem?_inj (by simpa using (List.getElem?_eq_some_iff.mp hi).1) hnodup).mp hcj.symm
      · rintro rfl
        rw [hi] at hj
        rw [← Option.some.inj hj, hc]
    by_cases hij : i = j
    · simp [Renaming.outline, hsame, hij]
    · simp [Renaming.outline, hsame, hij]

end Parse

end HostScript
