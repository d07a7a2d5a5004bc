import HostScript.Proofs.Parse.Groups
import HostScript.Similar

/-!
The calls of a block whose delimiters are well nested. They are the parentheses behind a namespace, a dot
and a name. While a call is open its place among the open delimiters tells which groups are open in it,
so a comma that meets it as the innermost one stands directly between its arguments.
-/

set_option autoImplicit false

namespace HostScript

namespace Parse

/-- The offsets of the commas that stand directly among the tokens. -/
structure Separates (ts : List Token) (commas : List Int) : Prop where
  ascending : commas.Pairwise (· < ·)
  mem : ∀ x, x ∈ commas ↔ ∃ t, t.kind = .comma ∧ Direct ts t ∧ t.span.start = x

namespace Separates

variable {ts : List Token} {commas : List Int} {t : Token}

theorem nil : Separates [] [] :=
  ⟨.nil, fun x => ⟨nofun, fun ⟨_, _, ⟨_, _, h, _⟩, _⟩ => by simp at h⟩⟩

theorem more (h : Separates ts commas) (hk : t.kind = .comma → ¬ Nested (delimiters ts)) :
    Separates (ts ++ [t]) commas := by
  refine ⟨h.ascending, fun x => (h.mem x).trans ⟨?_, ?_⟩⟩
  · rintro ⟨u, hu, hd, hx⟩
    exact ⟨u, hu, direct_snoc.mpr (.inl hd), hx⟩
  · rintro ⟨u, hu, hd, hx⟩
    rcases direct_snoc.mp hd with hd | ⟨rfl, hn⟩
    · exact ⟨u, hu, hd, hx⟩
    · exact absurd hn (hk hu)

theorem comma (h : Separates ts commas) (hk : t.kind = .comma) (hn : Nested (delimiters ts))
    (ht : ∀ u ∈ ts, u.span.start < t.span.start) : Separates (ts ++ [t]) (commas ++ [t.span.start]) := by
  constructor
  · refine List.pairwise_append.mpr ⟨h.ascending, List.pairwise_singleton _ _, fun x hx y hy => ?_⟩
    obtain ⟨u, -, ⟨front, back, rfl, -⟩, rfl⟩ := (h.mem x).mp hx
    rw [List.mem_singleton.mp hy]
    exact ht u (by simp)
  · intro x
    rw [List.mem_append, List.mem_singleton, h.mem x]
    constructor
    · rintro (⟨u, hu, hd, hx⟩ | rfl)
      · exact ⟨u, hu, direct_snoc.mpr (.inl hd), hx⟩
      · exact ⟨t, hk, direct_snoc.mpr (.inr ⟨rfl, hn⟩), rfl⟩
    · rintro ⟨u, hu, hd, hx⟩
      rcases direct_snoc.mp hd with hd | ⟨rfl, -⟩
      · exact .inl ⟨u, hu, hd, hx⟩
      · exact .inr hx.symm

end Separates

/-- The call of an open delimiter, with the tokens behind it and the groups that they leave open in it. -/
structure Waits (o : Opener) (opened : List TokenKind) (after : List Token) (c : Call) : Prop where
  kind : o.kind = .parenOpen
  start : o.start = c.openAt
  leaves : Leaves opened after
  content : o.content = true ↔ after ≠ []
  closeAt : c.closeAt = none
  args : c.args = 0
  separates : Separates after c.commas

/-- A call with its closing parenthesis and the tokens inside. -/
structure Ended (inside : List Token) (close : Token) (c : Call) : Prop where
  kind : close.kind = .parenClose
  nested : Nested (delimiters inside)
  closeAt : c.closeAt = some close.span.start
  separates : Separates inside c.commas
  args : c.args = if inside = [] then 0 else c.commas.length + 1

/-- How far a call is read, with the tokens behind its parenthesis. -/
inductive Stage (stack : List Opener) (after : List Token) (c : Call) : Prop where
  | waits {front back : List Opener} {o : Opener} : stack = front ++ o :: back →
      Waits o (front.map (·.kind)) after c → Stage stack after c
  | ended {inside rest : List Token} {close : Token} : after = inside ++ close :: rest →
      Ended inside close c → Stage stack after c

/-- The call is written among the tokens, and is read so far. -/
def WrittenIn (doc : Document) (past : List Token) (stack : List Opener) (c : Call) : Prop :=
  ∃ pre space dot name paren after, past = pre ++ space :: dot :: name :: paren :: after ∧
    (spelling c).Stands doc space dot name paren ∧ paren.span.start = c.openAt ∧ Stage stack after c

theorem WrittenIn.step {doc : Document} {past : List Token} {stack stack' : List Opener} {c c' : Call} {t : Token}
    (h : WrittenIn doc past stack c) (hspell : spelling c' = spelling c) (hopen : c'.openAt = c.openAt)
    (hstage : ∀ after, after ⊆ past → Stage stack after c → Stage stack' (after ++ [t]) c') :
    WrittenIn doc (past ++ [t]) stack' c' := by
  obtain ⟨pre, space, dot, name, paren, after, rfl, hstands, hparen, hs⟩ := h
  refine ⟨pre, space, dot, name, paren, after ++ [t], by simp, hspell ▸ hstands, hparen.trans hopen.symm,
    hstage after (fun u hu => ?_) hs⟩
  simp [hu]

section

variable {stack : List Opener} {opened : List TokenKind} {after : List Token} {c : Call} {o : Opener} {t : Token}

theorem Ended.stage {inside rest : List Token} {close : Token} (h : Ended inside close c)
    (ha : after = inside ++ close :: rest) : Stage stack (after ++ [t]) c :=
  .ended (by rw [ha, List.append_assoc, List.cons_append]) h

theorem Waits.nested_iff (h : Waits o opened after c) : Nested (delimiters after) ↔ opened = [] :=
  h.leaves.nested_iff

/-- The innermost open delimiter is no longer empty, and the others are not empty anyway. -/
theorem Waits.exists_marked {w : Walk} {front back : List Opener} (h : Waits o (front.map (·.kind)) after c)
    (hs : w.stack = front ++ o :: back) : ∃ front' o', w.markContent.stack = front' ++ o' :: back ∧
      front'.map (·.kind) = front.map (·.kind) ∧ o'.kind = o.kind ∧ o'.start = o.start ∧ o'.content = true := by
  cases front with
  | nil => exact ⟨[], { o with content := true }, by simp [Walk.markContent, hs], rfl, rfl, rfl, rfl⟩
  | cons top front =>
    refine ⟨{ top with content := true } :: front, o, by simp [Walk.markContent, hs], rfl, rfl, rfl, ?_⟩
    exact h.content.mpr (h.leaves.ne_nil (by simp))

theorem Waits.more {o' : Opener} {opened' : List TokenKind} (h : Waits o opened after c) (hk : o'.kind = o.kind)
    (hs : o'.start = o.start) (hc : o'.content = true) (hl : Leaves opened' (after ++ [t]))
    (hcomma : t.kind = .comma → opened ≠ []) : Waits o' opened' (after ++ [t]) c :=
  ⟨hk.trans h.kind, hs.trans h.start, hl, by simp [hc], h.closeAt, h.args,
    h.separates.more fun hkind hn => hcomma hkind (h.nested_iff.mp hn)⟩

theorem Stage.marks {w : Walk} (h : Stage w.stack after c) (hk : isDelimiter t = false)
    (hcomma : t.kind = .comma → ∀ top ∈ w.stack.head?, c.openAt ≠ top.start) :
    Stage w.markContent.stack (after ++ [t]) c := by
  cases h with
  | @waits front back o hs hw =>
    obtain ⟨front', o', hs', hkinds, hkind, hstart, hcontent⟩ := hw.exists_marked hs
    have hl : Leaves (front'.map (·.kind)) (after ++ [t]) := hkinds ▸ hw.leaves.word hk
    refine .waits hs' (hw.more hkind hstart hcontent hl fun hkind hfront => ?_)
    exact hcomma hkind o (by simp [hs, List.map_eq_nil_iff.mp hfront]) hw.start.symm
  | ended ha he => exact he.stage ha

theorem Stage.opens {w : Walk} (h : Stage w.stack after c) (hk : t.kind.isOpen = true) (ho : o.kind = t.kind) :
    Stage (o :: w.markContent.stack) (after ++ [t]) c := by
  have hcomma : t.kind ≠ .comma := fun hcomma => by simp [hcomma, TokenKind.isOpen] at hk
  cases h with
  | @waits front back _ hs hw =>
    obtain ⟨front', o', hs', hkinds, hkind, hstart, hcontent⟩ := hw.exists_marked hs
    have hsplit : o :: w.markContent.stack = (o :: front') ++ o' :: back := congrArg (o :: ·) hs'
    have hl : Leaves ((o :: front').map (·.kind)) (after ++ [t]) := by
      rw [List.map_cons, hkinds, ho]
      exact hw.leaves.opens hk
    exact .waits hsplit (hw.more hkind hstart hcontent hl fun hkind => absurd hkind hcomma)
  | ended ha he => exact he.stage ha

theorem Stage.closes {top : Opener} (h : Stage (top :: stack) after c) (hk : t.kind.isClose = true)
    (hfit : top.kind.closer = t.kind) (hother : c.openAt ≠ top.start) : Stage stack (after ++ [t]) c := by
  have hcomma : t.kind ≠ .comma := fun hcomma => by simp [hcomma, TokenKind.isClose] at hk
  cases h with
  | @waits front back o hs hw =>
    cases front with
    | nil =>
      obtain ⟨rfl, -⟩ := List.cons.inj hs
      exact absurd hw.start.symm hother
    | cons o' front =>
      obtain ⟨rfl, rfl⟩ := List.cons.inj hs
      have hcontent := hw.content.mpr (hw.leaves.ne_nil (by simp))
      exact .waits rfl (hw.more rfl rfl hcontent (hw.leaves.closes hk hfit) fun hkind => absurd hkind hcomma)
  | ended ha he => exact he.stage ha

theorem Waits.stage (h : Waits o [] after c) : Stage (o :: stack) after c := .waits (List.nil_append _).symm h

theorem Waits.closes (h : Waits o [] after c) (hfit : o.kind.closer = t.kind) :
    Stage stack (after ++ [t]) (c.close t.span.start o.content) := by
  have hkind : t.kind = .parenClose := by rw [← hfit, h.kind]; rfl
  refine .ended rfl ⟨hkind, h.nested_iff.mpr rfl, rfl, h.separates, ?_⟩
  by_cases ha : after = []
  · have hcontent : ¬ o.content = true := fun hc => h.content.mp hc ha
    simp [Call.close, ha, hcontent, h.args]
  · simp [Call.close, ha, h.content.mpr ha]

theorem Waits.comma (h : Waits o [] after c) (hk : t.kind = .comma)
    (ht : ∀ u ∈ after, u.span.start < t.span.start) :
    Waits { o with content := true } [] (after ++ [t]) (withComma t.span.start c) := by
  have hword : isDelimiter t = false := by simp [isDelimiter, hk, TokenKind.isOpen, TokenKind.isClose]
  exact ⟨h.kind, h.start, h.leaves.word hword, by simp, h.closeAt, h.args,
    h.separates.comma hk (h.nested_iff.mpr rfl) ht⟩

end

namespace Walk

variable {doc : Document} {past : List Token} {w : Walk} {a : Account} {waiting : List Token}

/-- No other open delimiter begins where the innermost one does, and no closed call. -/
theorem Kept.waits_of_stage (h : Kept doc past w a waiting) {top : Opener} {rest : List Opener}
    {after : List Token} {c : Call} (hs : w.stack = top :: rest) (hc : c ∈ w.calls) (hopen : c.openAt = top.start)
    (hstage : Stage w.stack after c) : Waits top [] after c := by
  have hstarts := forall₂_starts h.stack
  rw [hs, List.map_cons] at hstarts
  obtain ⟨t, outside, rfl, htop, houtside⟩ := List.map_eq_cons_iff.mp hstarts.symm
  cases hstage with
  | @waits front back o hsplit hw =>
    rw [hs] at hsplit
    cases front with
    | nil =>
      obtain ⟨rfl, -⟩ := List.cons.inj hsplit
      exact hw
    | cons o' front =>
      obtain ⟨-, rfl⟩ := List.cons.inj hsplit
      obtain ⟨u, hu, hstart⟩ : ∃ u ∈ outside, u.span.start = o.start := by
        rw [← List.mem_map, houtside]
        simp
      have hlt := (List.pairwise_cons.mp h.inward).1 u hu
      have hsame := hw.start
      omega
  | ended ha he =>
    have hnone := h.closeAt_eq_none (hs ▸ List.mem_cons_self) hc hopen
    rw [he.closeAt] at hnone
    cases hnone

/-- What the calls tell of the tokens of `past`, as far as they are closed. -/
structure Counts (doc : Document) (past : List Token) (w : Walk) : Prop where
  recent : w.recent = past.reverse.take 3
  calls : ∀ c ∈ w.calls, WrittenIn doc past w.stack c
  all : ∀ {pre post : List Token} {space dot name paren : Token} {s : Spelling},
    past = pre ++ space :: dot :: name :: paren :: post → s.Stands doc space dot name paren →
      paren.span.start ∈ w.begins

section Step

variable {t : Token} {w' : Walk} (h : Kept doc past w a waiting) (hw : Counts doc past w)

include h hw

theorem calls_closes {top : Opener} {rest : List Opener} (hk : t.kind.isClose = true)
    (hs : w.stack = top :: rest) (hfit : top.kind.closer = t.kind) :
    ∀ c ∈ top.alter (·.close t.span.start top.content) w.calls, WrittenIn doc (past ++ [t]) rest c := by
  intro c hc
  have hstack := h.stack
  rw [hs] at hstack
  obtain ⟨u, outside, htop, -, hwaiting⟩ := List.forall₂_cons_right_iff.mp hstack
  obtain ⟨c', hm, rfl⟩ := mem_alter htop hc
  rw [← htop.start]
  split
  · rename_i hsame
    exact (hw.calls c' hm).step rfl rfl fun after _ hstage => (h.waits_of_stage hs hm hsame hstage).closes hfit
  · rename_i hother
    exact (hw.calls c' hm).step rfl rfl fun after _ hstage => (hs ▸ hstage).closes hk hfit hother

theorem calls_comma (ht : ∀ u ∈ past, u.span.start < t.span.start) (hk : t.kind = .comma) :
    ∀ c ∈ (w.markContent.stack.head?.elim id fun o => o.alter (withComma t.span.start)) w.calls,
      WrittenIn doc (past ++ [t]) w.markContent.stack c := by
  intro c hc
  have hword : isDelimiter t = false := by simp [isDelimiter, hk, TokenKind.isOpen, TokenKind.isClose]
  cases hs : w.stack with
  | nil =>
    have hsame : w.markContent.stack = [] := by simp [markContent, hs]
    rw [hsame] at hc
    exact (hw.calls c hc).step rfl rfl fun after _ hstage => hstage.marks hword (by simp [hs])
  | cons top rest =>
    have hstack := h.stack
    rw [hs] at hstack
    obtain ⟨u, outside, htop, -, hwaiting⟩ := List.forall₂_cons_right_iff.mp hstack
    have hmarked : w.markContent.stack = { top with content := true } :: rest := by simp [markContent, hs]
    rw [hmarked] at hc
    obtain ⟨c', hm, rfl⟩ := mem_alter htop.marked hc
    rw [← htop.start]
    split
    · rename_i hsame
      refine (hw.calls c' hm).step rfl rfl fun after hsub hstage => ?_
      have hcomma := (h.waits_of_stage hs hm hsame hstage).comma hk fun u hu => ht u (hsub hu)
      exact hmarked ▸ hcomma.stage
    · rename_i hother
      exact (hw.calls c' hm).step rfl rfl fun after _ hstage => hstage.marks hword fun _ => by simpa [hs] using hother

omit h in
theorem calls_word (hk : isDelimiter t = false) (hcomma : t.kind ≠ .comma) :
    ∀ c ∈ w.calls, WrittenIn doc (past ++ [t]) w.markContent.stack c := fun c hc =>
  (hw.calls c hc).step rfl rfl fun _ _ hstage => hstage.marks hk fun hkind => absurd hkind hcomma

theorem calls_opens (hk : t.kind.isOpen = true) :
    ∀ c ∈ w.calls ++ (newCall? doc w t).toList,
      WrittenIn doc (past ++ [t]) (opener doc w t :: w.markContent.stack) c := by
  intro c hc
  rcases List.mem_append.mp hc with hc | hc
  · exact (hw.calls c hc).step rfl rfl fun after _ hstage => hstage.opens hk rfl
  · have hc := Option.mem_toList.mp hc
    obtain ⟨hparen, hopen, hnone, hcommas, hargs⟩ := newCall?_eq_some hc
    obtain ⟨name, dot, space, rest, hr, hstands⟩ := newCall?_stands hc
    obtain ⟨front, rfl⟩ := eq_append_of_recent (hw.recent ▸ hr)
    refine ⟨front, space, dot, name, t, [], by simp, hstands, hopen.symm, ?_⟩
    have hwaits : Waits (opener doc w t) [] [] c :=
      ⟨hparen, hopen.symm, .nil, by simp [opener], hnone, hargs, hcommas ▸ .nil⟩
    exact hwaits.stage

/-- Nothing is wrong with the token, so it opens a group, ends the innermost one or stands in it. -/
theorem Counts.step (ht : ∀ u ∈ past, u.span.start < t.span.start) (he : t.kind ≠ .error)
    (hq : (Walk.step doc w t).Quiet) : Counts doc (past ++ [t]) (Walk.step doc w t) := by
  have hmove := step_move doc w t
  have hbegins := hmove.begins
  refine ⟨?_, ?_, fun {pre post space dot name paren s} hpast hs => ?_⟩
  · rw [step_recent, hw.recent]
    simp [List.take_take]
  · cases hmove with
    | opens hk hstack hc hd =>
      rw [hstack, hc]
      exact calls_opens h hw hk
    | @closes skipped rest top hk hsplit hfit hstack hc hd =>
      obtain rfl : skipped = [] := List.eq_nil_iff_forall_not_mem.mpr fun o ho =>
        not_quiet hd (List.mem_map_of_mem ho) (by simp [unclosed, finding, delimiterCodes]) hq
      rw [hstack, hc]
      exact calls_closes h hw hk hsplit hfit
    | stray hk hcode hstack hc hd =>
      exact absurd hq (not_quiet hd (List.mem_singleton_self _)
        (by rcases hcode with rfl | rfl <;> simp [finding, delimiterCodes]))
    | drops hk => exact absurd hk he
    | comma hk hstack hc hd =>
      rw [hstack, hc]
      exact calls_comma h hw ht hk
    | remarks ho hk hcomma hcode hstack hc hd =>
      rw [hstack, hc]
      exact calls_word hw (by simp [isDelimiter, ho, hk]) hcomma
    | passes ho hk hcomma hstack hc hd =>
      rw [hstack, hc]
      exact calls_word hw (by simp [isDelimiter, ho, hk]) hcomma
  · rw [hbegins, List.mem_append]
    rcases List.eq_nil_or_concat post with rfl | ⟨post, u, rfl⟩
    · have hsplit : past ++ [t] = (pre ++ [space, dot, name]) ++ [paren] := by simpa using hpast
      obtain ⟨rfl, hparen⟩ := List.append_inj' hsplit rfl
      obtain rfl := List.singleton_inj.mp hparen
      have hr : w.recent = [name, dot, space] := by rw [hw.recent]; simp
      obtain ⟨c, hc⟩ := newCall?_of_stands doc hr hs
      exact .inr (List.mem_map.mpr ⟨c, by simp [hc], (newCall?_eq_some hc).2.1⟩)
    · have hsplit : past ++ [t] = (pre ++ space :: dot :: name :: paren :: post) ++ [u] := by simpa using hpast
      exact .inl (hw.all (List.append_inj' hsplit rfl).1 hs)

end Step

theorem Counts.foldl {tokens : List Token} {stop : Nat} (h : Kept doc past w a waiting) (hw : Counts doc past w)
    (hasc : (past ++ tokens).Pairwise fun t u => t.span.start < u.span.start)
    (he : ∀ t ∈ tokens, t.kind ≠ .error) (hq : (finish doc stop (tokens.foldl (Walk.step doc) w)).Quiet) :
    Counts doc (past ++ tokens) (tokens.foldl (Walk.step doc) w) := by
  -- Nothing is reported about delimiters at the end, so nothing was at any token.
  induction tokens generalizing past w a waiting with
  | nil => simpa using hw
  | cons t tokens ih =>
    have hlater : ∀ u ∈ past, u.span.start < t.span.start := fun u hu =>
      (List.pairwise_append.mp hasc).2.2 u hu t List.mem_cons_self
    obtain ⟨hhere, hrest⟩ := List.forall_mem_cons.mp he
    have hquiet := ((run_quiet_iff doc stop tokens (Walk.step doc w t) hrest).mp hq).1
    obtain ⟨a', waiting', h', -⟩ := h.step hlater fun hk => absurd hk hhere
    simpa using ih h' (hw.step h hlater hhere hquiet) (by simpa using hasc) hrest hq

theorem counts_empty (doc : Document) : Counts doc [] {} := by
  refine ⟨rfl, by simp, fun h => ?_⟩
  simp at h

end Walk

theorem walk_counts {doc : Document} {block : Block} (he : ∀ t ∈ bodyTokens doc block, t.kind ≠ .error)
    (hn : Nested (delimiters (bodyTokens doc block))) :
    Walk.Counts doc (codeTokens (bodyTokens doc block)) (walk doc block (bodyTokens doc block)) := by
  have hquiet : (walk doc block (bodyTokens doc block)).Quiet := (walk_quiet_iff he).mpr hn
  have hstack := List.map_eq_nil_iff.mp ((Walk.finish_quiet_iff _ _ _).mp hquiet).2
  have hcounts : Walk.Counts doc ([] ++ codeTokens (bodyTokens doc block))
      ((codeTokens (bodyTokens doc block)).foldl (Walk.step doc) {}) :=
    (Walk.counts_empty doc).foldl (Walk.kept_empty doc) (codeTokens_ascending doc block)
      (fun t ht => he t (List.mem_of_mem_filter ht)) hquiet
  refine ⟨hcounts.recent, fun c hc => ?_, hcounts.all⟩
  have hwritten := hcounts.calls c hc
  rwa [hstack] at hwritten

/-- The call is written with these tokens. Its commas are those between its parentheses that no group
encloses. -/
structure IsCall (doc : Document) (code : List Token) (c : Call) (space dot name paren : Token)
    (inside : List Token) (close : Token) : Prop where
  tokens : ∃ pre post, code = pre ++ space :: dot :: name :: paren :: (inside ++ close :: post)
  stands : (spelling c).Stands doc space dot name paren
  openAt : c.openAt = paren.span.start
  close_kind : close.kind = .parenClose
  nested : Nested (delimiters inside)
  closeAt : c.closeAt = some close.span.start
  ascending : c.commas.Pairwise (· < ·)
  commas : ∀ x, x ∈ c.commas ↔ ∃ t ∈ inside, t.kind = .comma ∧ ¬ Enclosed inside t ∧ t.span.start = x
  args : c.args = if inside = [] then 0 else c.commas.length + 1

theorem Separates.mem_iff {ts : List Token} {commas : List Int} (h : Separates ts commas)
    (hn : Nested (delimiters ts)) (hnodup : ts.Nodup) (x : Int) :
    x ∈ commas ↔ ∃ t ∈ ts, t.kind = .comma ∧ ¬ Enclosed ts t ∧ t.span.start = x := by
  have hword {t : Token} (ht : t.kind = .comma) : isDelimiter t = false := by
    simp [isDelimiter, ht, TokenKind.isOpen, TokenKind.isClose]
  rw [h.mem]
  constructor
  · rintro ⟨t, ht, hd, hx⟩
    have hmem : t ∈ ts := by
      obtain ⟨u, v, hsplit, -⟩ := hd
      simp [hsplit]
    exact ⟨t, hmem, ht, (direct_iff hn hnodup hmem (hword ht)).mp hd, hx⟩
  · rintro ⟨t, hmem, ht, he, hx⟩
    exact ⟨t, ht, (direct_iff hn hnodup hmem (hword ht)).mpr he, hx⟩

theorem WrittenIn.isCall {doc : Document} {code : List Token} {c : Call} (h : WrittenIn doc code [] c)
    (hnodup : code.Nodup) :
    ∃ space dot name paren inside close, IsCall doc code c space dot name paren inside close := by
  obtain ⟨pre, space, dot, name, paren, after, rfl, hstands, hparen, hstage⟩ := h
  cases hstage with
  | waits hs => simp at hs
  | @ended inside rest close ha he =>
    subst ha
    have hinside : inside.Nodup := hnodup.sublist
      (List.IsInfix.sublist ⟨pre ++ [space, dot, name, paren], close :: rest, by simp⟩)
    exact ⟨space, dot, name, paren, inside, close, ⟨pre, rest, rfl⟩, hstands, hparen.symm, he.kind, he.nested,
      he.closeAt, he.separates.ascending, he.separates.mem_iff he.nested hinside, he.args⟩

/-- In a block without lexical errors whose delimiters are well nested, the calls are in the order of the
text what stands behind a namespace, a dot and a name that touch one another, and each is closed by the
parenthesis that belongs to it. -/
theorem run_isCall [Similar.Matcher] (ws : Workspace) {source : Supply} (origin : Origin) {block : Block}
    (strict : Bool) {file : HostFile} (hf : source block.uri = .ok file)
    (he : ∀ t ∈ bodyTokens file.doc block, t.kind ≠ .error)
    (hn : Nested (delimiters (bodyTokens file.doc block))) :
    ((strict = true → ∃ ix, ReadM.run source ws.index = .ok ix) →
      ∃ result, ReadM.run source (run ws origin block strict) = .ok result) ∧
    ∀ result, ReadM.run source (run ws origin block strict) = .ok result →
      let code := codeTokens (bodyTokens file.doc block)
      (result.calls.map (·.openAt)).Pairwise (· < ·) ∧
        (∀ c ∈ result.calls, ∃ space dot name paren inside close,
          IsCall file.doc code c space dot name paren inside close) ∧
        ∀ pre space dot name paren post (s : Spelling), code = pre ++ space :: dot :: name :: paren :: post →
          s.Stands file.doc space dot name paren → ∃ c ∈ result.calls, c.openAt = paren.span.start := by
  refine ⟨exists_run hf, fun result hr => ?_⟩
  rw [(run_structure hf hr).1]
  obtain ⟨a, hkept⟩ := walk_kept file.doc block
  have hcounts := walk_counts he hn
  have hnodup : (codeTokens (bodyTokens file.doc block)).Nodup :=
    (codeTokens_ascending file.doc block).imp fun hlt heq => absurd (heq ▸ hlt) (Int.lt_irrefl _)
  exact ⟨hkept.ascends, fun c hc => (hcounts.calls c hc).isCall hnodup, fun pre space dot name paren post s hsplit
    hs => List.mem_map.mp (hcounts.all hsplit hs)⟩

/-- Calls in calls, commas in brackets and braces, in a comment and behind a chain of names, and no
arguments but a comment. -/
def nestedText : Document := .ofText "a" (utf8
  "SCRIPT:1,A\nX.A([Y.B(1, \x7b2, 3\x7d), 4], // ,\n  x.y.z(f(5, 6)), (7, 8))\nX.C /* ) */ ( /* , */ )\nENDSCRIPT\n")

def nestedBlock : Block := .close nestedText ⟨0, .script, utf8 "1,A"⟩ 91 100 true

theorem run_isCall_nested :
    let source : Supply := fun _ => .ok (.ofDocument nestedText)
    Block.scan nestedText = [nestedBlock] ∧
      (∀ t ∈ bodyTokens nestedText nestedBlock, t.kind ≠ .error) ∧
      Nested (delimiters (bodyTokens nestedText nestedBlock)) ∧
      ((structureOf nestedText nestedBlock).calls.map (·.args) = [3, 2, 1, 0]) ∧ ∃ result,
        ReadM.run source (run ⟨["a"], none⟩ .workspace nestedBlock true) = .ok result ∧
          let code := codeTokens (bodyTokens nestedText nestedBlock)
          (result.calls.map (·.openAt)).Pairwise (· < ·) ∧
            (∀ c ∈ result.calls, ∃ space dot name paren inside close,
              IsCall nestedText code c space dot name paren inside close) ∧
            ∀ pre space dot name paren post (s : Spelling), code = pre ++ space :: dot :: name :: paren :: post →
              s.Stands nestedText space dot name paren → ∃ c ∈ result.calls, c.openAt = paren.span.start := by
  intro source
  have he : ∀ t ∈ bodyTokens nestedText nestedBlock, t.kind ≠ .error := by decide +kernel
  have hn : Nested (delimiters (bodyTokens nestedText nestedBlock)) :=
    (closes_iff_nested _).mp (by decide +kernel)
  have hf : source nestedBlock.uri = .ok (.ofDocument nestedText) := rfl
  have hcalls := run_isCall ⟨["a"], none⟩ .workspace true hf he hn
  obtain ⟨result, hr⟩ := hcalls.1 fun _ => ⟨_, rfl⟩
  exact ⟨by decide +kernel, he, hn, by decide +kernel, result, hr, hcalls.2 result hr⟩

end Parse

end HostScript
