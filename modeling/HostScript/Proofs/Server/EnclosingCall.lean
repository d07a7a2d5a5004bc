import HostScript.Proofs.Parse.Account
import HostScript.Server.Signature
import HostScript.Similar

/-!
The call around the cursor. What is left of the reading of a block are the places of its parentheses, and
a call that is never closed looks the same whether it was still open at the cursor or given up before it.
So the call that is found is the last one that no token before the cursor closes.
-/

set_option autoImplicit false

namespace HostScript

namespace Parse

namespace Walk

/-- The call of the innermost open delimiter that opens one. -/
def openCall? (w : Walk) : Option Nat := w.stack.findSome? (·.call)

def Unclosed (w : Walk) (i : Nat) : Prop := ∃ c, w.calls[i]? = some c ∧ c.closeAt = none

/-- The parenthesis of the call no longer waits to be closed: a closing delimiter ended a group around it,
or a broken literal dropped it. -/
structure Abandoned (w : Walk) (i : Nat) : Prop where
  unclosed : w.Unclosed i
  gone : ∀ o ∈ w.stack, o.call ≠ some i

theorem exists_begins (doc : Document) (tokens : List Token) (w : Walk) :
    ∃ more, (tokens.foldl (step doc) w).begins = w.begins ++ more ∧ ∀ b ∈ more, ∃ t ∈ tokens, t.span.start = b := by
  induction tokens generalizing w with
  | nil => exact ⟨[], (List.append_nil _).symm, by simp⟩
  | cons t tokens ih =>
    obtain ⟨more, hmore, hlater⟩ := ih (step doc w t)
    refine ⟨(newCall? doc w t).toList.map (·.openAt) ++ more, ?_, fun b hb => ?_⟩
    · rw [List.foldl_cons, hmore, (step_move doc w t).begins, List.append_assoc]
    · rcases List.mem_append.mp hb with hb | hb
      · exact ⟨t, List.mem_cons_self, (newCall?_begins doc w t b hb).symm⟩
      · obtain ⟨u, hu, hstart⟩ := hlater b hb
        exact ⟨u, List.mem_cons_of_mem _ hu, hstart⟩

section Kept

variable {doc : Document} {past : List Token} {w : Walk} {a : Account} {waiting : List Token}
  (h : Kept doc past w a waiting)

include h

theorem Kept.begins_lt {i j : Nat} {b b' : Int} (hi : w.begins[i]? = some b) (hj : w.begins[j]? = some b')
    (hlt : b < b') : i < j := by
  obtain ⟨hil, rfl⟩ := List.getElem?_eq_some_iff.mp hi
  obtain ⟨hjl, rfl⟩ := List.getElem?_eq_some_iff.mp hj
  by_contra hle
  rcases Nat.lt_or_eq_of_le (Nat.le_of_not_lt hle) with hji | rfl
  · have hback := List.pairwise_iff_getElem.mp h.ascends j i hjl hil hji
    omega
  · omega

theorem Kept.index_unique {i j : Nat} {c : Call} (hi : w.calls[i]? = some c) (hj : w.calls[j]? = some c) : i = j := by
  have hnodup : w.begins.Nodup := h.ascends.imp Int.ne_of_lt
  have hlt := (List.getElem?_eq_some_iff.mp hi).1
  refine (List.getElem?_inj (by rwa [begins, List.length_map]) hnodup).mp ?_
  rw [begins, List.getElem?_map, List.getElem?_map, hi, hj]

theorem Kept.unclosed_of_mem {o : Opener} (ho : o ∈ w.stack) {i : Nat} (hi : o.call = some i) : w.Unclosed i := by
  obtain ⟨t, -, hawaits⟩ := h.awaits ho
  have hbegin := (hawaits.call i).mp hi
  rw [begins, List.getElem?_map, Option.map_eq_some_iff] at hbegin
  obtain ⟨c, hc, hopen⟩ := hbegin
  exact ⟨c, hc, h.closeAt_eq_none ho (List.mem_of_getElem? hc) (hopen.trans hawaits.start.symm)⟩

theorem Kept.le_openCall {i : Nat} (hi : w.openCall? = some i) {o : Opener} (ho : o ∈ w.stack) {j : Nat}
    (hj : o.call = some j) : j ≤ i := by
  obtain ⟨front, top, back, hs, hcall, hnone⟩ := List.findSome?_eq_some_iff.mp hi
  have hstack := h.stack
  rw [hs] at hstack ho
  obtain ⟨inside, rest, rfl, -, hrest⟩ := forall₂_split hstack
  obtain ⟨t, outside, htop, houtside, rfl⟩ := List.forall₂_cons_right_iff.mp hrest
  rcases List.mem_append.mp ho with ho | ho
  · rw [hnone o ho] at hj
    cases hj
  · rcases List.mem_cons.mp ho with rfl | ho
    · rw [hcall, Option.some.injEq] at hj
      omega
    · obtain ⟨u, hu, hawaits⟩ := exists_of_forall₂ houtside.flip ho
      have hlt := (List.pairwise_cons.mp (List.pairwise_append.mp h.inward).2.1).1 u hu
      exact Nat.le_of_lt (h.begins_lt ((hawaits.call j).mp hj) ((htop.call i).mp hcall) hlt)

end Kept

end Walk

def tokensBefore (doc : Document) (block : Block) (offset : Int) : List Token :=
  (codeTokens (bodyTokens doc block)).filter (·.span.start < offset)

def walkBefore (doc : Document) (block : Block) (offset : Int) : Walk :=
  (tokensBefore doc block offset).foldl (Walk.step doc) {}

theorem filter_append_of_ascending {ts : List Token} (h : ts.Pairwise fun t u => t.span.start < u.span.start)
    (offset : Int) : ∃ rest, ts = ts.filter (·.span.start < offset) ++ rest ∧ ∀ t ∈ rest, offset ≤ t.span.start := by
  induction ts with
  | nil => exact ⟨[], rfl, by simp⟩
  | cons t ts ih =>
    obtain ⟨hlater, hts⟩ := List.pairwise_cons.mp h
    by_cases ht : t.span.start < offset
    · obtain ⟨rest, hsplit, hrest⟩ := ih hts
      refine ⟨rest, ?_, hrest⟩
      rw [List.filter_cons_of_pos (by simpa using ht), List.cons_append, ← hsplit]
    · have hall : ∀ u ∈ t :: ts, offset ≤ u.span.start :=
        List.forall_mem_cons.mpr ⟨by omega, fun u hu => by have := hlater u hu; omega⟩
      refine ⟨t :: ts, ?_, hall⟩
      rw [List.filter_eq_nil_iff.mpr fun u hu => by simpa using hall u hu]
      rfl

/-- What a walk adds from an offset on. -/
structure GoesOn (offset : Int) (w w' : Walk) (a a' : Account) : Prop where
  pairs : ∃ new, a'.pairs = new ++ a.pairs ∧ ∀ p ∈ new, offset ≤ p.2.span.start
  begins : ∃ more, w'.begins = w.begins ++ more ∧ ∀ b ∈ more, offset ≤ b

theorem exists_kept (doc : Document) (block : Block) (offset : Int) : ∃ a waiting a',
    Walk.Kept doc (tokensBefore doc block offset) (walkBefore doc block offset) a waiting ∧
      Walk.Kept doc (codeTokens (bodyTokens doc block)) (walk doc block (bodyTokens doc block)) a' [] ∧
      GoesOn offset (walkBefore doc block offset) (walk doc block (bodyTokens doc block)) a a' := by
  have hasc := codeTokens_ascending doc block
  have hbroken : ∀ t ∈ codeTokens (bodyTokens doc block), t.kind = .error →
      t.text ≠ utf8 Lexer.unterminatedComment → BrokenLiteral t :=
    fun t ht => brokenLiteral_of_mem (List.mem_of_mem_filter ht)
  obtain ⟨rest, hsplit, hrest⟩ := filter_append_of_ascending hasc offset
  have hbefore : (([] : List Token) ++ tokensBefore doc block offset).Pairwise fun t u => t.span.start < u.span.start :=
    hasc.filter _
  have hall : (([] : List Token) ++ tokensBefore doc block offset ++ rest).Pairwise fun t u => t.span.start < u.span.start := by
    rwa [List.nil_append, tokensBefore, ← hsplit]
  obtain ⟨a, waiting, h, -⟩ := (Walk.kept_empty doc).foldl hbefore fun t ht => hbroken t (List.mem_of_mem_filter ht)
  obtain ⟨a', waiting', h', new, hpairs, hnew⟩ := h.foldl hall fun t ht =>
    hbroken t (hsplit ▸ List.mem_append_right _ ht)
  obtain ⟨more, hmore, hlater⟩ := Walk.exists_begins doc rest (walkBefore doc block offset)
  have hwalk : walk doc block (bodyTokens doc block)
      = (rest.foldl (Walk.step doc) (walkBefore doc block offset)).finish doc block.stop := by
    rw [walk, walkBefore, tokensBefore, ← List.foldl_append, ← hsplit]
  have hfinish := h'.finish block.stop
  rw [List.nil_append, tokensBefore, ← hsplit] at hfinish
  rw [hwalk]
  refine ⟨a, waiting, _, h, hfinish, ⟨new, hpairs, fun p hp => hrest _ (hnew p hp)⟩, more, hmore, fun b hb => ?_⟩
  obtain ⟨t, ht, rfl⟩ := hlater b hb
  exact hrest t ht

theorem mem_tokensBefore {doc : Document} {block : Block} {offset : Int} {t : Token}
    (ht : t ∈ tokensBefore doc block offset) : t.span.start < offset := by
  simpa using (List.mem_filter.mp ht).2

theorem GoesOn.openAt_lt_iff {doc : Document} {offset : Int} {past : List Token} {w w' : Walk} {a a' : Account}
    {waiting : List Token} (hg : GoesOn offset w w' a a') (h : Walk.Kept doc past w a waiting)
    (hpast : ∀ t ∈ past, t.span.start < offset) {i : Nat} {c : Call} (hc : w'.calls[i]? = some c) :
    c.openAt < offset ↔ ∃ c', w.calls[i]? = some c' ∧ c'.openAt = c.openAt := by
  obtain ⟨more, hbegins, hmore⟩ := hg.begins
  have hbegin : w'.begins[i]? = some c.openAt := by rw [Walk.begins, List.getElem?_map, hc, Option.map_some]
  constructor
  · intro hlt
    have hi : i < w.begins.length := by
      by_contra hle
      rw [hbegins, List.getElem?_append_right (Nat.le_of_not_lt hle)] at hbegin
      have hlate := hmore _ (List.mem_of_getElem? hbegin)
      omega
    rwa [hbegins, List.getElem?_append_left hi, Walk.begins, List.getElem?_map, Option.map_eq_some_iff] at hbegin
  · rintro ⟨c', hget, hsame⟩
    obtain ⟨t, ht, -, hstart⟩ := (h.calls c' (List.mem_of_getElem? hget)).opening
    have hearly := hpast t ht
    omega

theorem GoesOn.getElem? {offset : Int} {w w' : Walk} {a a' : Account} (hg : GoesOn offset w w' a a') {i : Nat}
    {c c' : Call} (hc : w'.calls[i]? = some c) (hc' : w.calls[i]? = some c') : c'.openAt = c.openAt := by
  obtain ⟨more, hbegins, -⟩ := hg.begins
  have hbegin : w.begins[i]? = some c'.openAt := by rw [Walk.begins, List.getElem?_map, hc', Option.map_some]
  have hbegin' : w'.begins[i]? = some c.openAt := by rw [Walk.begins, List.getElem?_map, hc, Option.map_some]
  rw [hbegins, List.getElem?_append_left (List.getElem?_eq_some_iff.mp hbegin).1, hbegin] at hbegin'
  exact Option.some.inj hbegin'

/-- A call reaches to an offset if the tokens before the offset begin it and do not close it. -/
theorem contains_iff {doc : Document} {block : Block} {offset : Int} {i : Nat} {c : Call}
    (hc : (walk doc block (bodyTokens doc block)).calls[i]? = some c) :
    c.contains offset = true ↔ (walkBefore doc block offset).Unclosed i := by
  obtain ⟨a, waiting, a', h, h', hg⟩ := exists_kept doc block offset
  obtain ⟨new, hpairs, hnew⟩ := hg.pairs
  have hopen := hg.openAt_lt_iff h (fun _ => mem_tokensBefore) hc
  have hclosing := (h'.calls c (List.mem_of_getElem? hc)).closing
  simp only [Call.contains, Bool.and_eq_true, decide_eq_true_eq, Option.all_eq_true]
  constructor
  -- Pairs are kept, so a call that is closed before the offset is closed there at the end as well.
  · rintro ⟨hlt, hclose⟩
    obtain ⟨c', hget, hsame⟩ := hopen.mp hlt
    refine ⟨c', hget, Option.eq_none_iff_forall_ne_some.mpr fun stop hstop => ?_⟩
    obtain ⟨p, hp, hstart, rfl⟩ := ((h.calls c' (List.mem_of_getElem? hget)).closing stop).mp hstop
    have hlate := hclose _ ((hclosing p.2.span.start).mpr ⟨p, by simp [hpairs, hp], hstart.trans hsame, rfl⟩)
    have hearly := mem_tokensBefore (h.pair_mem_past hp).2
    omega
  · rintro ⟨c', hget, hnone⟩
    have hsame := hg.getElem? hc hget
    refine ⟨hopen.mpr ⟨c', hget, hsame⟩, fun stop hstop => ?_⟩
    obtain ⟨p, hp, hstart, rfl⟩ := (hclosing stop).mp hstop
    rw [hpairs, List.mem_append] at hp
    rcases hp with hp | hp
    · exact hnew p hp
    · have hclosed := ((h.calls c' (List.mem_of_getElem? hget)).closing p.2.span.start).mpr
        ⟨p, hp, hstart.trans hsame.symm, rfl⟩
      rw [hnone] at hclosed
      cases hclosed

theorem Walk.Unclosed.exists_call {doc : Document} {block : Block} {offset : Int} {i : Nat}
    (hu : (walkBefore doc block offset).Unclosed i) :
    ∃ c, (walk doc block (bodyTokens doc block)).calls[i]? = some c := by
  obtain ⟨a, waiting, a', h, h', hg⟩ := exists_kept doc block offset
  obtain ⟨more, hbegins, -⟩ := hg.begins
  obtain ⟨c, hc, -⟩ := hu
  have hlt := (List.getElem?_eq_some_iff.mp hc).1
  have hlength := congrArg List.length hbegins
  rw [List.length_append, Walk.begins, Walk.begins, List.length_map, List.length_map] at hlength
  exact ⟨_, List.getElem?_eq_getElem (by omega)⟩

end Parse

theorem getLast?_filter_eq_some {α : Type} {p : α → Bool} {as : List α} {a : α} :
    (as.filter p).getLast? = some a ↔
      ∃ i, as[i]? = some a ∧ p a = true ∧ ∀ (j : Nat) b, as[j]? = some b → p b = true → j ≤ i := by
  constructor
  · intro h
    obtain ⟨front, hfront⟩ := List.getLast?_eq_some_iff.mp h
    obtain ⟨before, rest, rfl, -, hrest⟩ := List.filter_eq_append_iff.mp hfront
    obtain ⟨gap, after, rfl, -, ha, hafter⟩ := List.filter_eq_cons_iff.mp hrest
    refine ⟨(before ++ gap).length, by rw [← List.append_assoc, List.getElem?_append_right (Nat.le_refl _)]; simp,
      ha, fun j b hj hb => ?_⟩
    by_contra hle
    obtain ⟨k, rfl⟩ := Nat.exists_eq_add_of_lt (Nat.lt_of_not_le hle)
    rw [← List.append_assoc, List.getElem?_append_right (by omega), Nat.add_assoc, Nat.add_sub_cancel_left,
      List.getElem?_cons_succ] at hj
    exact List.filter_eq_nil_iff.mp hafter b (List.mem_of_getElem? hj) hb
  · rintro ⟨i, hi, ha, hlast⟩
    obtain ⟨hlt, rfl⟩ := List.getElem?_eq_some_iff.mp hi
    have hnone : (as.drop (i + 1)).filter p = [] := by
      refine List.filter_eq_nil_iff.mpr fun b hb hp => ?_
      obtain ⟨j, hj⟩ := List.mem_iff_getElem?.mp hb
      rw [List.getElem?_drop] at hj
      have hle := hlast _ b hj hp
      omega
    have hsplit : as.filter p = (as.take i).filter p ++ [as[i]] := by
      conv_lhs => rw [← List.take_append_drop i as, List.drop_eq_getElem_cons hlt]
      rw [List.filter_append, List.filter_cons_of_pos ha, hnone]
    rw [hsplit, List.getLast?_concat]

namespace SignatureHelp

open Parse

section

variable {doc : Document} {block : Block} {offset : Int}

theorem enclosing?_eq_some {c : Call} :
    enclosing? (structureOf doc block).calls offset = some c ↔ ∃ i, (structureOf doc block).calls[i]? = some c ∧
      (walkBefore doc block offset).Unclosed i ∧ ∀ j, (walkBefore doc block offset).Unclosed j → j ≤ i := by
  rw [enclosing?, getLast?_filter_eq_some]
  constructor
  · rintro ⟨i, hc, hcontains, hlast⟩
    refine ⟨i, hc, (contains_iff hc).mp hcontains, fun j hj => ?_⟩
    obtain ⟨c', hc'⟩ := hj.exists_call
    exact hlast j c' hc' ((contains_iff hc').mpr hj)
  · rintro ⟨i, hc, hu, hlast⟩
    exact ⟨i, hc, (contains_iff hc).mpr hu, fun j c' hc' hcontains => hlast j ((contains_iff hc').mp hcontains)⟩

theorem enclosing?_eq_none : enclosing? (structureOf doc block).calls offset = none ↔
    ∀ i, ¬ (walkBefore doc block offset).Unclosed i := by
  rw [enclosing?, List.getLast?_eq_none_iff, List.filter_eq_nil_iff]
  constructor
  · intro hnone i hi
    obtain ⟨c, hc⟩ := hi.exists_call
    exact hnone c (List.mem_of_getElem? hc) ((contains_iff hc).mpr hi)
  · intro hnone c hc hcontains
    obtain ⟨i, hi⟩ := List.mem_iff_getElem?.mp hc
    exact hnone i ((contains_iff hi).mp hcontains)

/-- No call is found where none is open, unless one was given up. -/
theorem enclosing?_none_iff (hopen : (walkBefore doc block offset).openCall? = none) :
    enclosing? (structureOf doc block).calls offset = none ↔ ∀ j, ¬ (walkBefore doc block offset).Abandoned j := by
  rw [enclosing?_eq_none]
  constructor
  · exact fun hnone j hj => hnone j hj.unclosed
  · intro hnone j hj
    refine hnone j ⟨hj, fun o ho => ?_⟩
    rw [List.findSome?_eq_none_iff.mp hopen o ho]
    exact nofun

/-- The call of the innermost delimiter is found, unless a later one was given up. -/
theorem enclosing?_some_iff {i : Nat} (hopen : (walkBefore doc block offset).openCall? = some i) :
    enclosing? (structureOf doc block).calls offset = (structureOf doc block).calls[i]? ↔
      ∀ j, (walkBefore doc block offset).Abandoned j → j < i := by
  obtain ⟨a, waiting, a', h, h', hg⟩ := exists_kept doc block offset
  obtain ⟨front, o, back, hs, hcall, -⟩ := List.findSome?_eq_some_iff.mp hopen
  have ho : o ∈ (walkBefore doc block offset).stack := by simp [hs]
  have hi := h.unclosed_of_mem ho hcall
  obtain ⟨c, hc⟩ := hi.exists_call
  rw [show (structureOf doc block).calls[i]? = some c from hc, enclosing?_eq_some]
  constructor
  · rintro ⟨i', hc', hu, hlast⟩ j hj
    -- No two calls begin at one place.
    have hsame : i' = i := h'.index_unique hc' hc
    have hle := hlast j hj.unclosed
    have hne : j ≠ i := fun heq => hj.gone o ho (heq ▸ hcall)
    omega
  · intro habandoned
    refine ⟨i, hc, hi, fun j hj => ?_⟩
    by_cases hon : ∃ o' ∈ (walkBefore doc block offset).stack, o'.call = some j
    · obtain ⟨o', ho', hj'⟩ := hon
      exact h.le_openCall hopen ho' hj'
    · exact Nat.le_of_lt (habandoned j ⟨hj, fun o' ho' heq => hon ⟨o', ho', heq⟩⟩)

end

/-- The call that is found is the last one that the tokens before an offset begin and do not close. So it
is the call of the innermost open delimiter exactly if every call that was given up there comes before
that one. -/
theorem run_enclosing [Similar.Matcher] (ws : Workspace) {source : Supply} (origin : Origin)
    {block : Block} (strict : Bool) {file : HostFile} (hf : source block.uri = .ok file) (offset : Int) :
    ((strict = true → ∃ ix, ReadM.run source ws.index = .ok ix) →
      ∃ result, ReadM.run source (run ws origin block strict) = .ok result) ∧
    ∀ result, ReadM.run source (run ws origin block strict) = .ok result →
      let w := walkBefore file.doc block offset
      (∀ c, enclosing? result.calls offset = some c ↔
        ∃ i, result.calls[i]? = some c ∧ w.Unclosed i ∧ ∀ j, w.Unclosed j → j ≤ i) ∧
        (enclosing? result.calls offset = w.openCall?.bind (result.calls[·]?) ↔
          ∀ j, w.Abandoned j → ∃ i, w.openCall? = some i ∧ j < i) := by
  refine ⟨exists_run hf, fun result hr => ?_⟩
  rw [(run_structure hf hr).1]
  refine ⟨fun c => enclosing?_eq_some, ?_⟩
  cases hopen : (walkBefore file.doc block offset).openCall? with
  | none => simpa using enclosing?_none_iff hopen
  | some i => simpa using enclosing?_some_iff hopen

def droppedText : Document := .ofText "a" (utf8 "SCRIPT:1,A\nX.A(\"x\n1\nENDSCRIPT\n")

def droppedBlock : Block := .close droppedText ⟨0, .script, utf8 "1,A"⟩ 20 29 true

theorem run_enclosing_dropped :
    let source : Supply := fun _ => .ok (.ofDocument droppedText)
    let w := walkBefore droppedText droppedBlock 18
    Block.scan droppedText = [droppedBlock] ∧ w.openCall? = none ∧ w.Abandoned 0 ∧ ∃ result,
      ReadM.run source (run ⟨["a"], none⟩ .workspace droppedBlock true) = .ok result ∧
        (∀ c, enclosing? result.calls 18 = some c ↔
          ∃ i, result.calls[i]? = some c ∧ w.Unclosed i ∧ ∀ j, w.Unclosed j → j ≤ i) ∧
        enclosing? result.calls 18 ≠ none := by
  intro source w
  have hopen : w.openCall? = none := by decide +kernel
  have hends : w.calls[0]?.map (·.closeAt) = some none := by decide +kernel
  have hgone : w.Abandoned 0 := ⟨Option.map_eq_some_iff.mp hends, by decide +kernel⟩
  have hf : source droppedBlock.uri = .ok (.ofDocument droppedText) := rfl
  have hrun := run_enclosing ⟨["a"], none⟩ .workspace true hf 18
  obtain ⟨result, hr⟩ := hrun.1 fun _ => ⟨_, rfl⟩
  obtain ⟨hlast, hiff⟩ := hrun.2 result hr
  refine ⟨by decide +kernel, hopen, hgone, result, hr, hlast, fun hnone => ?_⟩
  obtain ⟨i, hi, -⟩ := hiff.mp (by rw [hnone]; exact hopen ▸ rfl) 0 hgone
  exact absurd (hopen.symm.trans hi) nofun

def skippedText : Document := .ofText "a" (utf8 "SCRIPT:1,A\nY.B([X.A(1], 2)\nENDSCRIPT\n")

def skippedBlock : Block := .close skippedText ⟨0, .script, utf8 "1,A"⟩ 27 36 true

/-- At the second argument the call that the bracket gave up is found. -/
theorem enclosing?_skipped :
    let source : Supply := fun _ => .ok (.ofDocument skippedText)
    Block.scan skippedText = [skippedBlock] ∧ skippedBlock.bodyStart ≤ 24 ∧ 24 ≤ skippedBlock.bodyEnd ∧ ∃ result,
      ReadM.run source (run ⟨["a"], none⟩ .workspace skippedBlock true) = .ok result ∧
        (walkBefore skippedText skippedBlock 24).openCall? = some 0 ∧
        (result.calls[0]?.map (·.name)) = some (utf8 "B") ∧
        ((enclosing? result.calls 24).map (·.name)) = some (utf8 "A") := by
  intro source
  have hf : source skippedBlock.uri = .ok (.ofDocument skippedText) := rfl
  have hi : ReadM.run source (Workspace.index ⟨["a"], none⟩) = .ok ⟨Block.scan skippedText ++ []⟩ := rfl
  refine ⟨by decide +kernel, by decide +kernel, by decide +kernel, _, run_strict hi hf .workspace, by decide +kernel,
    ?_, ?_⟩
  · exact (by decide +kernel : (structureOf skippedText skippedBlock).calls[0]?.map (·.name) = some (utf8 "B"))
  · exact (by decide +kernel :
      (enclosing? (structureOf skippedText skippedBlock).calls 24).map (·.name) = some (utf8 "A"))

end SignatureHelp

end HostScript
