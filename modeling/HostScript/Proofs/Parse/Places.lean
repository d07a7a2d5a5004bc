import HostScript.Proofs.Block.Layout
import HostScript.Proofs.Document.RoundTrip
import HostScript.Proofs.Parse.Moves
import HostScript.Proofs.Token.Tiling
import Mathlib.Data.List.Nodup
import Mathlib.Data.List.Perm.Subperm

/-!
Where the findings of a walk begin. Every finding begins where some token of the body does. A token is
reported once, apart from an opening delimiter, which may be found unclosed but only as long as it
waits for its closing one. So no two findings of one code begin at the same place.
-/

set_option autoImplicit false

namespace HostScript

namespace Parse

def place (doc : Document) (t : Token) : Position := doc.positionAt t.span.start

/-- The tokens of a body before its end. -/
def bodyWords (doc : Document) (block : Block) : List Token :=
  (bodyTokens doc block).filter (·.kind != .eof)

theorem codeTokens_sublist (doc : Document) (block : Block) :
    (codeTokens (bodyTokens doc block)).Sublist (bodyWords doc block) :=
  List.monotone_filter_right _ fun _ ht => (Bool.and_eq_true_iff.mp ht).2

section Body

variable {doc : Document} {block : Block} (hb : block ∈ Block.scan doc)

include hb

theorem bodyStart_isBoundary : doc.text.IsBoundary block.bodyStart := by
  obtain ⟨_, h, rfl, he⟩ := Block.exists_beginsAt hb
  obtain ⟨hline, _⟩ := he.bounds
  rw [he.eq_close]
  simp only [Block.close]
  split
  · exact doc.isBoundary_lineStart (h.line + 1)
  · exact doc.isBoundary_lineEnd hline

theorem bodyEnd_isBoundary : doc.text.IsBoundary block.bodyEnd := by
  obtain ⟨_, h, rfl, he⟩ := Block.exists_beginsAt hb
  obtain ⟨m, stop, terminated, _, rfl, _, _⟩ := he.body
  exact doc.isBoundary_lineStart m

theorem start_lt_bodyStart : block.start < block.bodyStart := by
  obtain ⟨_, h, rfl, he⟩ := Block.exists_beginsAt hb
  obtain ⟨_, hlt⟩ := doc.lineStart_lt_lineEnd (doc.line_ne_nil (n := h.line) (by simp [he.role]))
  obtain ⟨m, stop, terminated, _, rfl, _, _⟩ := he.body
  exact Nat.lt_of_lt_of_le hlt (Block.close_headerEnd_le doc h _ _ _)

theorem bodyWords_inside : ∀ t ∈ bodyWords doc block, ∃ o : Nat, t.span.start = o ∧
    block.start < o ∧ o < block.stop ∧ doc.IsBoundary o := by
  intro t ht
  obtain ⟨ht, hk⟩ := List.mem_filter.mp ht
  obtain ⟨_, h, _, he⟩ := Block.exists_beginsAt hb
  obtain ⟨_, _, hbody, hend, _, hstop⟩ := he.bounds
  have hlen : block.bodyEnd ≤ doc.text.length := Nat.le_trans hend hstop
  have hnonempty := (Lexer.tokensFrom_tiling (Scanner.ofSpan_reads doc.text block.bodyStart block.bodyEnd)).nonempty
    t ht (by simpa using hk)
  have hwithin := (Lexer.tokens_within hbody hlen t ht).stop_le
  have hstart := start_lt_bodyStart hb
  obtain ⟨k, hk, hboundary⟩ := Lexer.tokens_start_isBoundary hbody hlen ht
  have htext := Bytes.isBoundary_of_slice (bodyStart_isBoundary hb) (bodyEnd_isBoundary hb) hbody hboundary
  exact ⟨block.bodyStart + k, by omega, by omega, by omega, doc.isBoundary_of_text htext⟩

omit hb in
theorem bodyWords_ascending : (bodyWords doc block).Pairwise fun t u => t.span.start < u.span.start := by
  have htile := Lexer.tokensFrom_tiling (Scanner.ofSpan_reads doc.text block.bodyStart block.bodyEnd)
  refine List.Pairwise.imp_of_mem (fun {t u} ht _ hle => ?_) (htile.ordered.filter _)
  obtain ⟨ht, hk⟩ := List.mem_filter.mp ht
  have hlt := htile.nonempty t ht (by simpa using hk)
  omega

theorem places_inside : ∀ p ∈ (bodyWords doc block).map (place doc), ∃ o : Nat,
    block.start < o ∧ o < block.stop ∧ doc.IsBoundary o ∧ p = doc.positionAt o := by
  intro p hp
  obtain ⟨t, ht, rfl⟩ := List.mem_map.mp hp
  obtain ⟨o, ho, hlow, hhigh, hboundary⟩ := bodyWords_inside hb t ht
  exact ⟨o, hlow, hhigh, hboundary, by rw [place, ho]⟩

theorem places_nodup : ((bodyWords doc block).map (place doc)).Nodup := by
  refine List.pairwise_map.mpr (List.Pairwise.imp_of_mem (fun {t u} ht hu hlt => ?_) bodyWords_ascending)
  obtain ⟨o, ho, _, _, hboundary⟩ := bodyWords_inside hb t ht
  obtain ⟨o', ho', _, _, hboundary'⟩ := bodyWords_inside hb u hu
  rw [place, place, ho, ho']
  intro heq
  have hsame := hboundary.eq_of_positionAt_eq hboundary' heq
  omega

end Body

namespace Walk

def openStarts (w : Walk) : List Int := w.stack.map (·.start)

def openPlaces (doc : Document) (w : Walk) : List Position := w.stack.map fun o => doc.positionAt o.start

theorem openPlaces_eq (doc : Document) (w : Walk) :
    w.openPlaces doc = w.openStarts.map fun start => doc.positionAt start := by
  rw [openPlaces, openStarts, List.map_map]
  rfl

/-- What a token does to the open delimiters and to the findings. -/
inductive Effect (doc : Document) (t : Token) (w w' : Walk) : Prop where
  | complains {d : Diagnostic} : d.range = doc.range t.span.start t.span.stop → d.code ≠ unclosedCode →
      w'.diagnostics = w.diagnostics ++ [d] → w'.openStarts.Sublist w.openStarts → Effect doc t w w'
  | opens : w'.diagnostics = w.diagnostics → w'.openStarts = t.span.start :: w.openStarts →
      Effect doc t w w'
  | closes {skipped : List Opener} {kept : List Int} :
      w.openStarts = skipped.map (·.start) ++ kept →
      w'.diagnostics = w.diagnostics ++ skipped.map (unclosed doc t.span.start) →
      w'.openStarts.Sublist kept → Effect doc t w w'
  | passes : w'.diagnostics = w.diagnostics → w'.openStarts = w.openStarts → Effect doc t w w'

theorem markContent_openStarts (w : Walk) : w.markContent.openStarts = w.openStarts := by
  unfold markContent openStarts
  split
  · rfl
  · rename_i hs
    rw [hs]
    rfl

theorem Move.effect {doc : Document} {w w' : Walk} {t : Token} (h : Move doc w t w') : Effect doc t w w' := by
  have hmark {v : Walk} (hs : v.stack = w.markContent.stack) : v.openStarts = w.openStarts := by
    rw [← markContent_openStarts w, openStarts, hs, openStarts]
  cases h with
  | opens hk hs hc hd =>
    refine .opens hd ?_
    rw [openStarts, hs, List.map_cons, ← markContent_openStarts w]
    rfl
  | @closes skipped rest top hk hsplit hfit hs hc hd =>
    refine .closes (?_ : _ = _ ++ (top.start :: rest.map (·.start))) hd ?_
    · simp [openStarts, hsplit]
    · rw [openStarts, hs]
      exact List.sublist_cons_self _ _
  | stray hk hcode hs hc hd =>
    refine .complains rfl ?_ hd (by rw [openStarts, hs, openStarts])
    rcases hcode with rfl | rfl <;> simp [finding, unexpectedCode, mismatchedCode, unclosedCode]
  | @drops dropped message hk htext hsplit hline hc hd =>
    refine .complains rfl (by simp [finding, unterminatedStringCode, unclosedCode]) hd ?_
    rw [← markContent_openStarts w, openStarts, openStarts, hsplit, List.map_append]
    exact List.sublist_append_right _ _
  | comma hk hs hc hd => exact .passes hd (hmark hs)
  | @remarks severity code message ho hk hcomma hcode hs hc hd =>
    have hne : code ≠ unclosedCode := fun heq => hcode (by simp [heq, delimiterCodes])
    exact .complains rfl hne hd (by rw [hmark hs])
  | passes ho hk hcomma hs hc hd => exact .passes hd (hmark hs)

theorem step_effect (doc : Document) (w : Walk) (t : Token) : Effect doc t w (step doc w t) :=
  (step_move doc w t).effect

/-- The findings about the tokens of `past` and the delimiters that are still open begin at tokens of
their own, for each code apart. -/
structure Tracks (doc : Document) (past : List Token) (w : Walk) : Prop where
  others : ((w.diagnostics.filter (·.code != unclosedCode)).map (·.range.start)).Sublist
    (past.map (place doc))
  -- Delimiters are found unclosed from the innermost outwards, not in the order of the tokens.
  unclosed : ((w.diagnostics.filter (·.code == unclosedCode)).map (·.range.start)
    ++ w.openPlaces doc).Subperm (past.map (place doc))

theorem filter_unclosed (doc : Document) (stop : Int) (os : List Opener) :
    (os.map (Parse.unclosed doc stop)).filter (·.code == unclosedCode) = os.map (Parse.unclosed doc stop) ∧
      (os.map (Parse.unclosed doc stop)).filter (·.code != unclosedCode) = [] := by
  constructor
  · refine List.filter_eq_self.mpr fun d hd => ?_
    obtain ⟨o, _, rfl⟩ := List.mem_map.mp hd
    rfl
  · refine List.filter_eq_nil_iff.mpr fun d hd => ?_
    obtain ⟨o, _, rfl⟩ := List.mem_map.mp hd
    simp [Parse.unclosed, finding]

theorem Tracks.more {doc : Document} {past : List Token} {w : Walk} (h : Tracks doc past w) (t : Token) :
    Tracks doc (past ++ [t]) w := by
  have hmore : (past.map (place doc)).Sublist ((past ++ [t]).map (place doc)) := by simp
  exact ⟨h.others.trans hmore, h.unclosed.trans hmore.subperm⟩

theorem Tracks.unwind {doc : Document} {past : List Token} {w w' : Walk} (h : Tracks doc past w)
    {skipped : List Opener} {kept : List Int} {stop : Int}
    (hw : w.openStarts = skipped.map (·.start) ++ kept)
    (hd : w'.diagnostics = w.diagnostics ++ skipped.map (Parse.unclosed doc stop))
    (hs : w'.openStarts.Sublist kept) : Tracks doc past w' := by
  obtain ⟨hall, hnone⟩ := filter_unclosed doc stop skipped
  constructor
  · rw [hd, List.filter_append, hnone, List.append_nil]
    exact h.others
  · have hunclosed := h.unclosed
    rw [openPlaces_eq, hw, List.map_append, List.map_map, ← List.append_assoc] at hunclosed
    rw [hd, List.filter_append, hall, List.map_append, List.map_map, openPlaces_eq]
    exact ((List.Sublist.refl _).append (hs.map _)).subperm.trans hunclosed

theorem Effect.tracks {doc : Document} {t : Token} {w w' : Walk} {past : List Token}
    (he : Effect doc t w w') (h : Tracks doc past w) : Tracks doc (past ++ [t]) w' := by
  have hplaces : (past ++ [t]).map (place doc) = past.map (place doc) ++ [place doc t] := by simp
  cases he with
  | @complains d hp hc hd hs =>
    constructor
    · have hone : [d].filter (·.code != unclosedCode) = [d] := by simp [hc]
      rw [hd, List.filter_append, List.map_append, hone, hplaces]
      exact h.others.append (by simp [hp, Document.range, place])
    · have hone : [d].filter (·.code == unclosedCode) = [] := by simp [hc]
      rw [hd, List.filter_append, hone, List.append_nil, openPlaces_eq]
      exact ((List.Sublist.refl _).append (hs.map _)).subperm.trans
        (openPlaces_eq doc w ▸ (h.more t).unclosed)
  | opens hd hs =>
    refine ⟨hd ▸ (h.more t).others, ?_⟩
    rw [hd, openPlaces_eq, hs, List.map_cons, hplaces, ← openPlaces_eq]
    refine (List.perm_middle.subperm).trans ?_
    refine ((List.subperm_cons _).mpr h.unclosed).trans ?_
    exact (List.perm_append_singleton _ _).symm.subperm
  | closes hw hd hs => exact (h.unwind hw hd hs).more t
  | passes hd hs =>
    refine ⟨hd ▸ (h.more t).others, ?_⟩
    rw [hd, openPlaces_eq, hs, ← openPlaces_eq]
    exact (h.more t).unclosed

theorem foldl_tracks {doc : Document} {past tokens : List Token} {w : Walk} (h : Tracks doc past w) :
    Tracks doc (past ++ tokens) (tokens.foldl (step doc) w) := by
  induction tokens generalizing past w with
  | nil => simpa using h
  | cons t tokens ih => simpa using ih ((step_effect doc w t).tracks h)

end Walk

/-- No two findings of a list have both place and code in common. -/
def SitesDiffer (ds : List Diagnostic) : Prop := (ds.map fun d => (d.range.start, d.code)).Nodup

theorem sitesDiffer_of_starts {ds : List Diagnostic} (h : (ds.map (·.range.start)).Nodup) : SitesDiffer ds := by
  have hmap : (ds.map fun d => (d.range.start, d.code)).map Prod.fst = ds.map (·.range.start) := by simp
  exact List.Nodup.of_map Prod.fst (hmap.symm ▸ h)

theorem SitesDiffer.perm {ds es : List Diagnostic} (h : SitesDiffer ds) (hp : ds.Perm es) : SitesDiffer es :=
  (hp.map _).nodup_iff.mp h

theorem SitesDiffer.append {ds es : List Diagnostic} (hd : SitesDiffer ds) (he : SitesDiffer es)
    (hc : ∀ x ∈ ds, ∀ y ∈ es, x.code ≠ y.code) : SitesDiffer (ds ++ es) := by
  rw [SitesDiffer, List.map_append]
  refine List.nodup_append.mpr ⟨hd, he, fun a ha b hb heq => ?_⟩
  obtain ⟨x, hx, rfl⟩ := List.mem_map.mp ha
  obtain ⟨y, hy, rfl⟩ := List.mem_map.mp hb
  exact hc x hx y hy (congrArg Prod.snd heq)

theorem walk_tracks (doc : Document) (block : Block) (tokens : List Token) :
    Walk.Tracks doc (codeTokens tokens) (walk doc block tokens) := by
  have hempty : Walk.Tracks doc [] {} := ⟨by simp, by simp [Walk.openPlaces]⟩
  have hall : Walk.Tracks doc (codeTokens tokens) ((codeTokens tokens).foldl (Walk.step doc) {}) := by
    simpa using Walk.foldl_tracks hempty
  exact hall.unwind (List.append_nil _).symm rfl (List.Sublist.refl _)

/-- The findings of a walk begin at tokens, and no two of one code at the same one. -/
theorem walk_sites (block : Block) {doc : Document} {tokens : List Token}
    (h : ((codeTokens tokens).map (place doc)).Nodup) :
    SitesDiffer (walk doc block tokens).diagnostics ∧
      ∀ d ∈ (walk doc block tokens).diagnostics, d.range.start ∈ (codeTokens tokens).map (place doc) := by
  have htracks := walk_tracks doc block tokens
  have hunclosed := (List.sublist_append_left _ _).subperm.trans htracks.unclosed
  constructor
  · have hstarts : SitesDiffer ((walk doc block tokens).diagnostics.filter (·.code == unclosedCode)) := by
      obtain ⟨starts, hperm, hsub⟩ := hunclosed
      exact sitesDiffer_of_starts (hperm.nodup_iff.mp (hsub.nodup h))
    have hothers := sitesDiffer_of_starts (htracks.others.nodup h)
    refine (hstarts.append hothers fun x hx y hy heq => ?_).perm (List.filter_append_perm _ _)
    have hx := (List.mem_filter.mp hx).2
    have hy := (List.mem_filter.mp hy).2
    rw [← heq, bne, hx] at hy
    cases hy
  · intro d hd
    by_cases hc : d.code = unclosedCode
    · exact hunclosed.subset (List.mem_map_of_mem (List.mem_filter.mpr ⟨hd, by simp [hc]⟩))
    · exact htracks.others.subset (List.mem_map_of_mem (List.mem_filter.mpr ⟨hd, by simp [hc]⟩))

/-- How a call is written: its namespace, its name, and where the name stands. -/
structure Spelling where
  space : Bytes
  name : Bytes
  range : Range

def spelling (c : Call) : Spelling := ⟨c.space, c.name, c.nameRange⟩

namespace Spelling

/-- A namespace, a dot and a name that touch one another, and an opening parenthesis. -/
structure Stands (doc : Document) (s : Spelling) (space dot name paren : Token) : Prop where
  space_kind : space.kind = .identifier
  dot_kind : dot.kind = .dot
  name_kind : name.kind = .identifier
  paren_kind : paren.kind = .parenOpen
  space_stop : space.span.stop = dot.span.start
  dot_stop : dot.span.stop = name.span.start
  eq : s = ⟨space.text, name.text, doc.range name.span.start name.span.stop⟩

end Spelling

namespace Walk

def spellings (w : Walk) : List Spelling := w.calls.map spelling

theorem newCall?_stands {doc : Document} {w : Walk} {t : Token} {c : Call} (h : newCall? doc w t = some c) :
    ∃ name dot space rest, w.recent = name :: dot :: space :: rest ∧
      (spelling c).Stands doc space dot name t := by
  unfold newCall? at h
  split at h
  · rename_i hparen
    unfold callAt? at h
    split at h
    · rename_i name dot space rest hr
      split at h
      · rename_i hk
        obtain ⟨hspace, hdot, hname, hfirst, hsecond⟩ := hk
        obtain rfl := Option.some.inj h
        exact ⟨name, dot, space, rest, hr, hspace, hdot, hname, hparen, hfirst, hsecond, rfl⟩
      · cases h
    · cases h
  · cases h

theorem newCall?_of_stands (doc : Document) {w : Walk} {t space dot name : Token} {rest : List Token}
    {s : Spelling} (hr : w.recent = name :: dot :: space :: rest) (hs : s.Stands doc space dot name t) :
    ∃ c, newCall? doc w t = some c := by
  simp only [newCall?, callAt?, hr, hs.space_kind, hs.dot_kind, hs.name_kind, hs.paren_kind, hs.space_stop,
    hs.dot_stop]
  exact ⟨_, rfl⟩

theorem Move.spellings {doc : Document} {w w' : Walk} {t : Token} (h : Move doc w t w') :
    w'.spellings = w.spellings ++ (newCall? doc w t).toList.map spelling :=
  h.map_calls (fun _ _ _ => rfl) fun _ _ => rfl

/-- The calls among the tokens of `past` are written in tokens of their own. -/
structure Names (doc : Document) (past : List Token) (w : Walk) : Prop where
  recent : w.recent = past.reverse.take 3
  places : (w.spellings.map (·.range.start)).Sublist (past.dropLast.map (place doc))
  stand : ∀ s ∈ w.spellings, ∃ pre space dot name paren post,
    past = pre ++ space :: dot :: name :: paren :: post ∧ s.Stands doc space dot name paren

theorem eq_append_of_recent {past rest : List Token} {name dot space : Token}
    (h : past.reverse.take 3 = name :: dot :: space :: rest) :
    ∃ front, past = front ++ [space, dot, name] := by
  obtain ⟨tail, htail⟩ : ∃ tail, past.reverse = name :: dot :: space :: tail := by
    match hp : past.reverse with
    | [] | [_] | [_, _] => simp [hp] at h
    | a :: b :: c :: tail =>
      simp only [hp, List.take_succ_cons, List.cons.injEq] at h
      obtain ⟨rfl, rfl, rfl, _⟩ := h
      exact ⟨tail, rfl⟩
  exact ⟨tail.reverse, by simpa using congrArg List.reverse htail⟩

theorem Names.step {doc : Document} {past : List Token} {w : Walk} (h : Names doc past w) (t : Token) :
    Names doc (past ++ [t]) (step doc w t) := by
  have hspellings := (step_move doc w t).spellings
  have hmore {s : Spelling} (hs : s ∈ w.spellings) : ∃ pre space dot name paren post,
      past ++ [t] = pre ++ space :: dot :: name :: paren :: post ∧ s.Stands doc space dot name paren := by
    obtain ⟨pre, space, dot, name, paren, post, rfl, hstands⟩ := h.stand s hs
    exact ⟨pre, space, dot, name, paren, post ++ [t], by simp, hstands⟩
  have hrecent : (Walk.step doc w t).recent = (past ++ [t]).reverse.take 3 := by
    rw [step_recent, h.recent]
    simp [List.take_take]
  cases hcall : newCall? doc w t with
  | none =>
    rw [hcall, Option.toList_none, List.map_nil, List.append_nil] at hspellings
    refine ⟨hrecent, ?_, fun s hs => hmore (hspellings ▸ hs)⟩
    rw [hspellings, List.dropLast_concat]
    exact h.places.trans ((List.dropLast_sublist past).map _)
  | some c =>
    rw [hcall, Option.toList_some, List.map_singleton] at hspellings
    obtain ⟨name, dot, space, rest, hr, hs⟩ := newCall?_stands hcall
    obtain ⟨front, rfl⟩ := eq_append_of_recent (h.recent ▸ hr)
    refine ⟨hrecent, ?_, fun s' hs' => ?_⟩
    · have hplaces := h.places
      rw [show front ++ [space, dot, name] = (front ++ [space, dot]) ++ [name] by simp,
        List.dropLast_concat] at hplaces
      rw [hspellings, List.dropLast_concat, List.map_append,
        show front ++ [space, dot, name] = (front ++ [space, dot]) ++ [name] by simp, List.map_append]
      refine hplaces.append ?_
      simp [hs.eq, Document.range, place]
    · rw [hspellings] at hs'
      cases List.mem_append.mp hs' with
      | inl hs' => exact hmore hs'
      | inr hs' =>
        rw [List.mem_singleton.mp hs']
        exact ⟨front, space, dot, name, t, [], by simp, hs⟩

theorem foldl_names {doc : Document} {past tokens : List Token} {w : Walk} (h : Names doc past w) :
    Names doc (past ++ tokens) (tokens.foldl (Walk.step doc) w) := by
  induction tokens generalizing past w with
  | nil => simpa using h
  | cons t tokens ih => simpa using ih (h.step t)

end Walk

theorem walk_names (doc : Document) (block : Block) (tokens : List Token) :
    Walk.Names doc (codeTokens tokens) (walk doc block tokens) := by
  have hempty : Walk.Names doc [] {} := ⟨rfl, by simp [Walk.spellings], by simp [Walk.spellings]⟩
  have hall : Walk.Names doc (codeTokens tokens) ((codeTokens tokens).foldl (Walk.step doc) {}) := by
    simpa using Walk.foldl_names hempty
  exact ⟨hall.recent, hall.places, hall.stand⟩

theorem walk_calls (doc : Document) (block : Block) (tokens : List Token) :
    ((walk doc block tokens).calls.map (·.nameRange.start)).Sublist
      ((codeTokens tokens).map (place doc)) := by
  have hplaces := (walk_names doc block tokens).places
  rw [Walk.spellings, List.map_map] at hplaces
  exact hplaces.trans ((List.dropLast_sublist _).map _)

end Parse

end HostScript
