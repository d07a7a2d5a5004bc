import HostScript.Proofs.Parse.Account
import HostScript.Similar

/-!
The calls of a block, whatever is wrong with it. A broken literal or a closing delimiter that fits further
out drops several open delimiters at once, and their calls stay behind without an end. Still the closed
calls lie within or behind one another, and each call counts the commas that stand directly in it.
-/

set_option autoImplicit false

namespace HostScript

namespace Call

/-- The commas of a call stand in order between its parentheses. A closed call has one argument more than
commas, or no argument and no comma. -/
structure Counted (c : Call) : Prop where
  ascending : c.commas.Pairwise (· < ·)
  inside : ∀ x ∈ c.commas, c.openAt < x ∧ ∀ stop, c.closeAt = some stop → x < stop
  args : c.isClosed = true → c.args = 0 ∧ c.commas = [] ∨ c.args = c.commas.length + 1

theorem activeArg_mono (c : Call) {x y : Int} (h : x ≤ y) : c.activeArg x ≤ c.activeArg y := by
  simp only [activeArg, ← List.countP_eq_length_filter]
  refine List.countP_mono_left fun comma _ hlt => ?_
  simp only [decide_eq_true_eq] at hlt ⊢
  omega

theorem Counted.activeArg_lt {c : Call} (h : c.Counted) (hclosed : c.isClosed = true) (hargs : 0 < c.args)
    (offset : Int) : c.activeArg offset < c.args := by
  have hle : c.activeArg offset ≤ c.commas.length := List.length_filter_le _ _
  rcases h.args hclosed with ⟨hnone, -⟩ | hmore <;> omega

end Call

namespace Parse

/-- The calls begin in order, and of two closed ones the later lies behind the other or in it. -/
structure Laminar (calls : List Call) : Prop where
  ascending : calls.Pairwise fun c d => c.openAt < d.openAt
  nested : ∀ c ∈ calls, ∀ d ∈ calls, c.openAt < d.openAt → ∀ stop stop', c.closeAt = some stop →
    d.closeAt = some stop' → stop < d.openAt ∨ stop' < stop

/-- What a call tells of the tokens of `past` while it may still go on. -/
structure Tally (past : List Token) (c : Call) : Prop extends c.Counted where
  read : ∀ x ∈ c.commas, ∃ u ∈ past, u.span.start = x
  unclosed : c.closeAt = none → c.args = 0

section Tally

variable {past : List Token} {c : Call} {t : Token}

theorem Tally.more (h : Tally past c) : Tally (past ++ [t]) c :=
  { h with
    read := fun x hx => by
      obtain ⟨u, hu, hstart⟩ := h.read x hx
      exact ⟨u, List.mem_append_left _ hu, hstart⟩ }

variable (ht : ∀ u ∈ past, u.span.start < t.span.start)

include ht

theorem Tally.before (h : Tally past c) : ∀ x ∈ c.commas, x < t.span.start := by
  intro x hx
  obtain ⟨u, hu, rfl⟩ := h.read x hx
  exact ht u hu

theorem Tally.comma (h : Tally past c) (hopen : c.openAt < t.span.start) (hnone : c.closeAt = none) :
    Tally (past ++ [t]) (withComma t.span.start c) := by
  have hbefore := h.before ht
  refine ⟨⟨?_, fun x hx => ⟨?_, by simp [withComma, hnone]⟩, by simp [withComma, Call.isClosed, hnone]⟩, ?_,
    h.unclosed⟩
  · refine List.pairwise_append.mpr ⟨h.ascending, List.pairwise_singleton _ _, fun x hx y hy => ?_⟩
    rw [List.mem_singleton.mp hy]
    exact hbefore x hx
  · rcases List.mem_append.mp hx with hx | hx
    · exact (h.inside x hx).1
    · rw [List.mem_singleton.mp hx]
      exact hopen
  · intro x hx
    rcases List.mem_append.mp hx with hx | hx
    · exact h.more.read x hx
    · exact ⟨t, by simp, (List.mem_singleton.mp hx).symm⟩

theorem Tally.close (h : Tally past c) (hnone : c.closeAt = none) {content : Bool}
    (hcontent : content = false → c.commas = []) : Tally (past ++ [t]) (c.close t.span.start content) := by
  refine ⟨⟨h.ascending, fun x hx => ⟨(h.inside x hx).1, fun stop hstop => ?_⟩, fun _ => ?_⟩, h.more.read, nofun⟩
  · obtain rfl := Option.some.inj hstop
    exact h.before ht x hx
  · cases content with
    | false => exact .inl ⟨h.unclosed hnone, hcontent rfl⟩
    | true => exact .inr rfl

end Tally

/-- Only the innermost open delimiter can be empty, and the call of an empty one has no commas. -/
structure Filled (stack : List Opener) (calls : List Call) : Prop where
  outer : ∀ o ∈ stack.tail, o.content = true
  commas : ∀ o ∈ stack, o.content = false → ∀ c ∈ calls, c.openAt = o.start → c.commas = []

theorem filled_of_content {stack : List Opener} (h : ∀ o ∈ stack, o.content = true) (calls : List Call) :
    Filled stack calls :=
  ⟨fun o ho => h o (List.mem_of_mem_tail ho), fun o ho hempty => by rw [h o ho] at hempty; cases hempty⟩

namespace Walk

variable {doc : Document} {past : List Token} {w : Walk} {a : Account} {waiting : List Token}

theorem content_markContent (h : Filled w.stack w.calls) : ∀ o ∈ w.markContent.stack, o.content = true := by
  unfold markContent
  split
  · rename_i hs
    simp [hs]
  · rename_i top rest hs
    have houter := h.outer
    rw [hs] at houter
    exact List.forall_mem_cons.mpr ⟨rfl, houter⟩

section

variable (h : Kept doc past w a waiting)

include h

/-- What holds of all calls holds still if the call of an open delimiter is changed. -/
theorem Kept.forall_alter {o : Opener} (ho : o ∈ w.stack) {f : Call → Call} {P : Call → Prop}
    (hsame : ∀ c ∈ w.calls, c.openAt = o.start → c.closeAt = none → P (f c)) (hother : ∀ c ∈ w.calls, P c) :
    ∀ c ∈ o.alter f w.calls, P c := by
  intro c hc
  obtain ⟨u, -, hawaits⟩ := h.awaits ho
  obtain ⟨c', hm, rfl⟩ := mem_alter hawaits hc
  split
  · rename_i hopen
    have hopen := hopen.trans hawaits.start.symm
    exact hsame c' hm hopen (h.closeAt_eq_none ho hm hopen)
  · exact hother c' hm

/-- Two closing delimiters are never one, and none of them opens a group. -/
theorem Kept.laminar : Laminar w.calls := by
  refine ⟨List.pairwise_map.mp h.ascends, fun c hc d hd hlt stop stop' hstop hstop' => ?_⟩
  obtain ⟨p, hp, hpopen, rfl⟩ := ((h.calls c hc).closing stop).mp hstop
  obtain ⟨q, hq, hqopen, rfl⟩ := ((h.calls d hd).closing stop').mp hstop'
  have hnodup : ((a.pairs.map Prod.fst ++ a.pairs.map Prod.snd).map (·.span.start)).Nodup := by
    refine h.starts_nodup.sublist (List.Sublist.map _ ?_)
    simp only [Account.tokens, List.append_assoc]
    exact ((List.sublist_append_left _ _).append_left _).trans (List.sublist_append_right _ _)
  rw [List.map_append, List.nodup_append, List.map_map, List.map_map] at hnodup
  obtain ⟨-, hends, hapart⟩ := hnodup
  have hends : q.2.span.start ≠ p.2.span.start := fun heq => by
    obtain rfl := List.inj_on_of_nodup_map hends hq hp heq
    omega
  have hopens : p.2.span.start ≠ q.1.span.start :=
    (hapart _ (List.mem_map_of_mem hq) _ (List.mem_map_of_mem hp)).symm
  have huncrossed := h.holds.uncrossed p hp q hq
  omega

end

/-- What the calls of a walk and its open delimiters tell of the tokens of `past`. -/
structure Tallied (past : List Token) (w : Walk) : Prop where
  calls : ∀ c ∈ w.calls, Tally past c
  filled : Filled w.stack w.calls

section Step

variable (h : Kept doc past w a waiting) (hw : Tallied past w) {t : Token}
  (ht : ∀ u ∈ past, u.span.start < t.span.start)

include h hw ht

omit h ht in
theorem tally_opens : ∀ c ∈ w.calls ++ (newCall? doc w t).toList, Tally (past ++ [t]) c := by
  intro c hc
  rcases List.mem_append.mp hc with hc | hc
  · exact (hw.calls c hc).more
  · obtain ⟨-, -, hclose, hcommas, hargs⟩ := newCall?_eq_some (Option.mem_toList.mp hc)
    exact ⟨⟨by simp [hcommas], by simp [hcommas], by simp [Call.isClosed, hclose]⟩, by simp [hcommas],
      fun _ => hargs⟩

/-- A new delimiter is empty, and so is the call that it begins. -/
theorem filled_opens :
    Filled (opener doc w t :: w.markContent.stack) (w.calls ++ (newCall? doc w t).toList) := by
  have hcontent := content_markContent hw.filled
  refine ⟨hcontent, List.forall_mem_cons.mpr ⟨fun _ c hc hopen => ?_, fun o ho hempty => ?_⟩⟩
  · rcases List.mem_append.mp hc with hc | hc
    · have hlt := h.begins_later ht c.openAt (List.mem_map_of_mem hc)
      exact absurd hopen (Int.ne_of_lt hlt)
    · exact (newCall?_eq_some (Option.mem_toList.mp hc)).2.2.2.1
  · rw [hcontent o ho] at hempty
    cases hempty

theorem tally_closes {skipped rest : List Opener} {top : Opener} (hs : w.stack = skipped ++ top :: rest) :
    ∀ c ∈ top.alter (·.close t.span.start top.content) w.calls, Tally (past ++ [t]) c := by
  have htop : top ∈ w.stack := by simp [hs]
  refine h.forall_alter htop (fun c hc hopen hnone => ?_) fun c hc => (hw.calls c hc).more
  exact (hw.calls c hc).close ht hnone fun hempty => hw.filled.commas top htop hempty c hc hopen

theorem tally_comma :
    ∀ c ∈ (w.markContent.stack.head?.elim id fun o => o.alter (withComma t.span.start)) w.calls,
      Tally (past ++ [t]) c := by
  cases hs : w.stack with
  | nil =>
    have hmarked : w.markContent.stack = [] := by simp [markContent, hs]
    rw [hmarked]
    exact fun c hc => (hw.calls c hc).more
  | cons top rest =>
    have hmarked : w.markContent.stack = { top with content := true } :: rest := by simp [markContent, hs]
    rw [hmarked]
    have htop : top ∈ w.stack := hs ▸ List.mem_cons_self
    refine h.forall_alter htop (fun c hc hopen hnone => ?_) fun c hc => (hw.calls c hc).more
    exact (hw.calls c hc).comma ht (h.begins_later ht c.openAt (List.mem_map_of_mem hc)) hnone

theorem Tallied.step : Tallied (past ++ [t]) (Walk.step doc w t) := by
  have hmarked := content_markContent hw.filled
  cases step_move doc w t with
  | opens hk hs hc hd => exact ⟨hc ▸ tally_opens hw, hs ▸ hc ▸ filled_opens h hw ht⟩
  | @closes skipped rest top hk hsplit hfit hs hc hd =>
    refine ⟨hc ▸ tally_closes h hw ht hsplit, filled_of_content (fun o ho => hw.filled.outer o ?_) _⟩
    rw [hs] at ho
    cases skipped <;> simp [hsplit, ho]
  | stray hk hcode hs hc hd => exact ⟨hc ▸ fun c hm => (hw.calls c hm).more, hs ▸ hc ▸ hw.filled⟩
  | drops hk htext hsplit hline hc hd =>
    refine ⟨hc ▸ fun c hm => (hw.calls c hm).more, filled_of_content (fun o ho => hmarked o ?_) _⟩
    exact hsplit ▸ List.mem_append_right _ ho
  | comma hk hs hc hd => exact ⟨hc ▸ tally_comma h hw ht, filled_of_content (hs ▸ hmarked) _⟩
  | remarks ho hk hne hcode hs hc hd =>
    exact ⟨hc ▸ fun c hm => (hw.calls c hm).more, filled_of_content (hs ▸ hmarked) _⟩
  | passes ho hk hne hs hc hd =>
    exact ⟨hc ▸ fun c hm => (hw.calls c hm).more, filled_of_content (hs ▸ hmarked) _⟩

end Step

theorem Tallied.foldl {tokens : List Token} (h : Kept doc past w a waiting) (hw : Tallied past w)
    (hasc : (past ++ tokens).Pairwise fun t u => t.span.start < u.span.start)
    (hbroken : ∀ t ∈ tokens, t.kind = .error → t.text ≠ utf8 Lexer.unterminatedComment → BrokenLiteral t) :
    Tallied (past ++ tokens) (tokens.foldl (Walk.step doc) w) := by
  induction tokens generalizing past w a waiting with
  | nil => simpa using hw
  | cons t tokens ih =>
    have hlater : ∀ u ∈ past, u.span.start < t.span.start := fun u hu =>
      (List.pairwise_append.mp hasc).2.2 u hu t List.mem_cons_self
    obtain ⟨hhere, hrest⟩ := List.forall_mem_cons.mp hbroken
    obtain ⟨a', waiting', h', -⟩ := h.step hlater hhere
    simpa using ih h' (hw.step h hlater) (by simpa using hasc) hrest

end Walk

theorem walk_tally (doc : Document) (block : Block) :
    ∀ c ∈ (walk doc block (bodyTokens doc block)).calls, Tally (codeTokens (bodyTokens doc block)) c := by
  have hempty : Walk.Tallied [] {} := ⟨by simp, by simp, by simp⟩
  have htallied := hempty.foldl (Walk.kept_empty doc) (codeTokens_ascending doc block) fun t ht =>
    brokenLiteral_of_mem (List.mem_of_mem_filter ht)
  exact htallied.calls

/-- Whatever is wrong with a block, its calls begin in order and its closed calls do not cross, and each
call counts its own commas. So the argument at an offset in a closed call with arguments is one of them, and
it never goes back. -/
theorem run_laminar [Similar.Matcher] (ws : Workspace) {source : Supply} (origin : Origin) {block : Block}
    (strict : Bool) {file : HostFile} (hf : source block.uri = .ok file) :
    ((strict = true → ∃ ix, ReadM.run source ws.index = .ok ix) →
      ∃ result, ReadM.run source (run ws origin block strict) = .ok result) ∧
    ∀ result, ReadM.run source (run ws origin block strict) = .ok result →
      Laminar result.calls ∧ ∀ c ∈ result.calls, c.Counted ∧
        (c.isClosed = true → 0 < c.args → ∀ offset, c.contains offset = true → c.activeArg offset < c.args) ∧
        ∀ x y, x ≤ y → c.activeArg x ≤ c.activeArg y := by
  refine ⟨exists_run hf, fun result hr => ?_⟩
  rw [(run_structure hf hr).1]
  obtain ⟨a, hkept⟩ := walk_kept file.doc block
  refine ⟨hkept.laminar, fun c hc => ?_⟩
  have hcounted := (walk_tally file.doc block c hc).toCounted
  exact ⟨hcounted, fun hclosed hargs offset _ => hcounted.activeArg_lt hclosed hargs offset,
    fun _ _ hle => c.activeArg_mono hle⟩

/-- A call given up in brackets, one that is closed in another one, and a brace that is given up. -/
def recoveredText : Document := .ofText "a" (utf8 "SCRIPT:1,A\nX.A([Y.B(1], Z.C(2, 3), \x7b)\nENDSCRIPT\n")

def recoveredBlock : Block := .close recoveredText ⟨0, .script, utf8 "1,A"⟩ 38 47 true

theorem run_laminar_recovered :
    let source : Supply := fun _ => .ok (.ofDocument recoveredText)
    Block.scan recoveredText = [recoveredBlock] ∧
      ((structureOf recoveredText recoveredBlock).calls.map fun c => (c.openAt, c.closeAt, c.args, c.commas))
        = [(14, some 36, 3, [22, 33]), (19, none, 0, []), (27, some 32, 2, [29])] ∧ ∃ result,
        ReadM.run source (run ⟨["a"], none⟩ .workspace recoveredBlock true) = .ok result ∧
          Laminar result.calls ∧ ∀ c ∈ result.calls, c.Counted ∧
            (c.isClosed = true → 0 < c.args → ∀ offset, c.contains offset = true → c.activeArg offset < c.args) ∧
            ∀ x y, x ≤ y → c.activeArg x ≤ c.activeArg y := by
  intro source
  have hf : source recoveredBlock.uri = .ok (.ofDocument recoveredText) := rfl
  have hlaminar := run_laminar ⟨["a"], none⟩ .workspace true hf
  obtain ⟨result, hr⟩ := hlaminar.1 fun _ => ⟨_, rfl⟩
  exact ⟨by decide +kernel, by decide +kernel, result, hr, hlaminar.2 result hr⟩

end Parse

end HostScript
