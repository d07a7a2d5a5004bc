import HostScript.Check
import HostScript.Proofs.Block.Locality

/-!
Reading a block without strict checks asks its document for nothing outside of the block, and its
workspace for nothing but the catalog. So what is read is determined by the text of the block, by
where it stands and by the catalog.
-/

set_option autoImplicit false

namespace HostScript

namespace Parse

namespace Walk

/-- All that a walk has to report about later lies between two offsets. -/
structure Within (start stop : Nat) (w : Walk) : Prop where
  openers : ∀ o ∈ w.stack, start ≤ o.start ∧ o.start ≤ stop
  recent : ∀ t ∈ w.recent, Lexer.Within start stop t

section Step

variable {d e : Document} {start stop : Nat} {w : Walk} {token : Token}
  (hw : w.Within start stop) (ht : Lexer.Within start stop token)

include hw

theorem Within.shrink {v : Walk} (hs : ∀ o ∈ v.stack, o ∈ w.stack) (hr : v.recent = w.recent) :
    v.Within start stop :=
  ⟨fun o ho => hw.openers o (hs o ho), fun t h => hw.recent t (hr ▸ h)⟩

theorem Within.markContent : w.markContent.Within start stop := by
  unfold Walk.markContent
  cases hs : w.stack with
  | nil => exact hw
  | cons top rest =>
    refine ⟨fun o ho => ?_, hw.recent⟩
    have hall := hw.openers
    rw [hs] at hall
    cases List.mem_cons.mp ho with
    | inl ho => rw [ho]; exact hall top List.mem_cons_self
    | inr ho => exact hall o (List.mem_cons_of_mem _ ho)

theorem Within.marked (token : Token) :
    (if token.kind.isClose then w else w.markContent).Within start stop := by
  split
  · exact hw
  · exact hw.markContent

theorem Within.pop (token : Token) : (pop w token).Within start stop := by
  unfold Walk.pop
  cases hs : w.stack with
  | nil => exact hw
  | cons top rest => exact hw.shrink (fun o ho => by simp [hs, show o ∈ rest from ho]) rfl

theorem Within.closeGroup (doc : Document) (token : Token) :
    (closeGroup doc w token).Within start stop := by
  unfold Walk.closeGroup
  simp only
  split
  · exact hw.shrink (fun o ho => ho) rfl
  · split
    · apply Within.pop
      exact hw.shrink (fun o ho => List.mem_of_mem_drop ho) rfl
    · exact hw.shrink (fun o ho => ho) rfl

theorem Within.comma (token : Token) : (comma w token).Within start stop := by
  unfold Walk.comma
  split
  · split
    · exact hw.shrink (fun o ho => ho) rfl
    · exact hw
  · exact hw

include ht

theorem Within.openGroup (doc : Document) : (openGroup doc w token).Within start stop := by
  refine ⟨fun o ho => ?_, hw.recent⟩
  cases List.mem_cons.mp ho with
  | inl ho => rw [ho]; exact ht.start_inside
  | inr ho => exact hw.openers o ho

theorem Within.dispatch (doc : Document) : (dispatch doc w token).Within start stop := by
  unfold Walk.dispatch
  split
  · unfold lexicalError
    simp only
    split
    · exact hw.shrink (fun o ho => ho) rfl
    · exact hw.shrink (fun o ho => (List.dropWhile_sublist _).subset ho) rfl
  · split
    · exact hw.shrink (fun o ho => ho) rfl
    · split
      · exact hw.openGroup ht doc
      · split
        · exact hw.closeGroup doc token
        · split
          · exact hw.comma token
          · exact hw

theorem Within.step (doc : Document) : (step doc w token).Within start stop := by
  have hd := (hw.marked token).dispatch ht doc
  refine ⟨hd.openers, fun t h => ?_⟩
  cases List.mem_cons.mp (List.mem_of_mem_take h) with
  | inl h => rw [h]; exact ht
  | inr h => exact hd.recent t h

omit ht in
theorem Within.foldl {tokens : List Token} (ht : ∀ t ∈ tokens, Lexer.Within start stop t) (doc : Document) :
    (tokens.foldl (Walk.step doc) w).Within start stop := by
  induction tokens generalizing w with
  | nil => exact hw
  | cons token tokens ih =>
    have htoken := ht token List.mem_cons_self
    exact ih (hw.step htoken doc) fun t h => ht t (List.mem_cons_of_mem _ h)

end Step

section Congr

variable {d e : Document} {start stop : Nat} (hs : d.SameBetween e start stop)

include hs

theorem finding_congr {a b : Int} (ha : start ≤ a ∧ a ≤ stop) (hb : start ≤ b ∧ b ≤ stop)
    (severity : Severity) (code : String) (message : Bytes) :
    finding d a b severity code message = finding e a b severity code message := by
  simp only [finding, hs.uri, hs.range ha hb]

theorem unclosed_congr {openers : List Opener}
    (ho : ∀ o ∈ openers, start ≤ o.start ∧ o.start ≤ stop) {offset : Int}
    (hoff : start ≤ offset ∧ offset ≤ stop) :
    openers.map (unclosed d offset) = openers.map (unclosed e offset) :=
  List.map_congr_left fun o hm => finding_congr hs (ho o hm) hoff _ _ _

variable {w : Walk} {token : Token} (hw : w.Within start stop) (ht : Lexer.Within start stop token)

include hw in
theorem callAt?_congr (token : Token) : callAt? d w token = callAt? e w token := by
  unfold callAt?
  split
  · rename_i name dot space rest hr
    have hname := hw.recent name (by simp [hr])
    rw [hs.range hname.start_inside hname.stop_inside]
  · rfl

include hw ht

theorem dispatch_congr : dispatch d w token = dispatch e w token := by
  have hat := finding_congr hs ht.start_inside ht.stop_inside
  have hline : d.lineAt token.span.start = e.lineAt token.span.start :=
    hs.lineAt ht.start_inside.1 ht.start_inside.2
  have hskipped : (w.stack.takeWhile fun o => !fits token o).map (unclosed d token.span.start)
      = (w.stack.takeWhile fun o => !fits token o).map (unclosed e token.span.start) :=
    unclosed_congr hs (fun o ho => hw.openers o ((List.takeWhile_sublist _).subset ho)) ht.start_inside
  simp only [dispatch, lexicalError, openGroup, closeGroup, hat, hline, hskipped,
    callAt?_congr hs hw token]

theorem step_congr : step d w token = step e w token := by
  simp only [step, dispatch_congr hs (hw.marked token) ht]

omit ht in
theorem foldl_step_congr {tokens : List Token} (ht : ∀ t ∈ tokens, Lexer.Within start stop t) :
    tokens.foldl (step d) w = tokens.foldl (step e) w := by
  induction tokens generalizing w with
  | nil => rfl
  | cons token tokens ih =>
    have htoken := ht token List.mem_cons_self
    have ih := ih (hw.step htoken d) fun t h => ht t (List.mem_cons_of_mem _ h)
    rw [List.foldl_cons, List.foldl_cons, ← step_congr hs hw htoken]
    exact ih

end Congr

end Walk

/-- A block reads alike in two documents that look the same where the block lies. -/
theorem structureOf_congr {d e : Document} {block : Block}
    (hs : d.SameBetween e block.start block.stop) (hlow : block.start ≤ block.bodyStart)
    (hbody : block.bodyStart ≤ block.bodyEnd) (hhigh : block.bodyEnd ≤ block.stop) :
    structureOf d block = structureOf e block := by
  have hstop := hs.stop_le
  have htokens : bodyTokens d block = bodyTokens e block :=
    Lexer.tokens_congr hbody (Nat.le_trans hhigh hstop.1) (Nat.le_trans hhigh hstop.2)
      (hs.slice hlow hbody hhigh)
  have hwithin : ∀ t ∈ codeTokens (bodyTokens d block), Lexer.Within block.start block.stop t := by
    intro t ht
    have hm := (List.mem_filter.mp ht).1
    exact (Lexer.tokens_within hbody (Nat.le_trans hhigh hstop.1) t hm).mono hlow hhigh
  have hempty : Walk.Within block.start block.stop {} := ⟨by simp, by simp⟩
  have hfold := Walk.foldl_step_congr hs hempty hwithin
  have hinside : (block.start : Int) ≤ block.stop ∧ (block.stop : Int) ≤ block.stop := by omega
  have hunclosed := Walk.unclosed_congr hs (hempty.foldl hwithin d).openers hinside
  have hwalk : walk d block (bodyTokens d block) = walk e block (bodyTokens d block) := by
    simp only [walk, ← hfold, Walk.finish, hunclosed]
  have hfirst := hs.lineAt (o := block.start) (by omega) (by omega)
  have hlast := hs.lineAt (o := block.stop) (by omega) (by omega)
  simp only [structureOf, ← htokens, hwalk, hfirst, hlast]

theorem ofDocument_catalog [Similar.Matcher] {ws ws' : Workspace} (h : ws.catalog = ws'.catalog)
    (doc : Document) (block : Block) : ofDocument ws doc block = ofDocument ws' doc block := by
  have hu : Check.unknownFunctionAt ws block = Check.unknownFunctionAt ws' block := by
    funext call
    simp only [Check.unknownFunctionAt, Workspace.space?, h]
  have ha : Check.argCountAt ws block = Check.argCountAt ws' block := by
    funext call
    simp only [Check.argCountAt, Workspace.function?, h]
  simp only [ofDocument, Check.localFindings, hu, ha]

/-- Blocks with one key are read alike under one catalog. -/
theorem ofDocument_of_key [Similar.Matcher] {ws ws' : Workspace} (hw : ws.catalog = ws'.catalog)
    {d e : Document} {b c : Block} (hb : b ∈ Block.scan d) (hc : c ∈ Block.scan e)
    (hk : BlockKey.ofBlock d b = BlockKey.ofBlock e c) :
    ofDocument ws d b = ofDocument ws' e c := by
  obtain ⟨rfl, hs⟩ := Block.eq_of_key_eq hb hc hk
  obtain ⟨_, g, rfl, hg⟩ := Block.exists_beginsAt hb
  have hl := (show Block.BeginsAt d g.line b from ⟨g, rfl, hg⟩).liesAt
  rw [ofDocument_catalog hw]
  simp only [ofDocument, structureOf_congr hs
    (Nat.le_trans hl.start_le_headerEnd hl.headerEnd_le_bodyStart) hl.bodyStart_le_bodyEnd
    hl.bodyEnd_le_stop]

end Parse

end HostScript
