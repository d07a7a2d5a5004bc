import HostScript.Proofs.Check.Sites
import HostScript.Proofs.Check.Strictness
import HostScript.Proofs.Text.Run
import HostScript.Server.Navigation
import HostScript.Similar

/-!
Everything that is reported about a block lies in the block. A position within a character may come
behind one at a later offset, so ranges are only known to nest if they reach from one boundary between
runes to another. All ranges do: tokens begin and end between runes, a marker of a hook is a comment
without the ASCII bytes at its end, and a group that is not closed reaches to a token or to the end of
its block.
-/

set_option autoImplicit false

namespace HostScript

/-- A range within another one that does not end before it starts. -/
structure Range.Inside (r outer : Range) : Prop where
  ordered : r.stop.less r.start = false
  start : r.start.less outer.start = false
  stop : outer.stop.less r.stop = false

theorem Document.IsBoundary.not_less {d : Document} {o o' : Nat} (h : d.IsBoundary o)
    (h' : d.IsBoundary o') (hle : o ≤ o') : (d.positionAt o').less (d.positionAt o) = false := by
  rw [Bool.eq_false_iff]
  intro hless
  rcases Nat.lt_or_eq_of_le hle with hlt | rfl
  · have hmore := h.positionAt_less h' hlt
    rw [Position.less_iff] at hless hmore
    omega
  · rw [Position.less_iff] at hless
    omega

namespace Bytes

/-- A text without the ASCII bytes at its end is cut between runes. -/
theorem isBoundary_dropRightWhile {p : UInt8 → Bool} (hp : ∀ b, p b = true → b < 0x80) (bs : Bytes) :
    bs.IsBoundary (bs.dropRightWhile p).length := by
  obtain ⟨front, tail, rfl, hrun⟩ := exists_isLastRun p bs
  have hascii : ∀ b ∈ tail[0]?, b < 0x80 := fun b hb => hp b (hrun.all b (List.mem_of_getElem? hb))
  rw [hrun.dropRightWhile]
  exact isBoundary_of_split (runes_append_of_ascii front hascii)

end Bytes

namespace Block

/-- An offset between two runes of a block. -/
def Admits (doc : Document) (block : Block) (offset : Int) : Prop :=
  ∃ o : Nat, offset = o ∧ block.start ≤ o ∧ o ≤ block.stop ∧ doc.text.IsBoundary o

section Scan

variable {doc : Document} {block : Block} (hb : block ∈ scan doc)

include hb

theorem stop_isBoundary : doc.text.IsBoundary block.stop := by
  obtain ⟨_, h, rfl, he⟩ := exists_beginsAt hb
  cases he with
  | @terminated m _ hr =>
    have hne : doc.line m ≠ [] := doc.line_ne_nil (by simp [hr])
    exact doc.isBoundary_lineEnd (doc.lineStart_lt_lineEnd hne).1
  | @interrupted m _ _ ho hr => exact doc.isBoundary_lineStart m
  | unfinished ho => exact Bytes.isBoundary_length doc.text

theorem inside_range {a b : Int} (ha : block.Admits doc a) (hb' : block.Admits doc b) (hle : a ≤ b) :
    (doc.range a b).Inside block.range := by
  obtain ⟨m, rfl, hlow, _, hm⟩ := ha
  obtain ⟨n, rfl, _, hhigh, hn⟩ := hb'
  have hm := doc.isBoundary_of_text hm
  have hn := doc.isBoundary_of_text hn
  have hstop := doc.isBoundary_of_text (stop_isBoundary hb)
  have hrange : block.range = doc.range block.start block.stop := by
    obtain ⟨_, h, _, he⟩ := exists_beginsAt hb
    rw [he.eq_close]
    rfl
  rw [hrange]
  exact ⟨hm.not_less hn (by omega), (start_isBoundary hb).not_less hm hlow, hn.not_less hstop hhigh⟩

theorem headerRange_inside : block.headerRange.Inside block.range := by
  obtain ⟨n, hbegins⟩ := exists_beginsAt hb
  have hl := hbegins.liesAt
  obtain ⟨h, rfl, he⟩ := hbegins
  have hheader : block.headerRange = doc.range block.start block.headerEnd := by
    rw [he.eq_close]
    rfl
  have hend : block.headerEnd = doc.lineEnd h.line := by
    rw [he.eq_close]
    rfl
  have h1 := hl.start_le_headerEnd
  have h2 := hl.headerEnd_le_bodyStart
  have h3 := hl.bodyStart_le_bodyEnd
  have h4 := hl.bodyEnd_le_stop
  rw [hheader]
  refine inside_range hb ⟨block.start, rfl, Nat.le_refl _, by omega, ?_⟩
    ⟨block.headerEnd, rfl, h1, by omega, ?_⟩ (by omega)
  · rw [hl.start_eq]
    exact doc.isBoundary_lineStart h.line
  · rw [hend]
    exact doc.isBoundary_lineEnd he.bounds.1

theorem token_admitted {t : Token} (ht : t ∈ Parse.bodyTokens doc block) :
    block.Admits doc t.span.start ∧ block.Admits doc t.span.stop ∧ t.span.start ≤ t.span.stop := by
  obtain ⟨_, h, _, he⟩ := exists_beginsAt hb
  obtain ⟨_, _, hbody, hend, _, hstop⟩ := he.bounds
  have hlen : block.bodyEnd ≤ doc.text.length := Nat.le_trans hend hstop
  have hbodyStart := Parse.start_lt_bodyStart hb
  have hwithin := Lexer.tokens_within hbody hlen t ht
  obtain ⟨a, b, hspan, ha, hb'⟩ := Lexer.tokens_isBoundary hbody hlen ht
  have hstopLe := hwithin.stop_le
  have hordered := hwithin.ordered
  rw [hspan] at hstopLe hordered ⊢
  simp only at hstopLe hordered
  have htext {k : Nat} (hk : Bytes.IsBoundary (doc.text.slice block.bodyStart block.bodyEnd) k) :=
    Bytes.isBoundary_of_slice (Parse.bodyStart_isBoundary hb) (Parse.bodyEnd_isBoundary hb) hbody hk
  exact ⟨⟨block.bodyStart + a, by simp, by omega, by omega, htext ha⟩,
    ⟨block.bodyStart + b, by simp, by omega, by omega, htext hb'⟩, hordered⟩

theorem token_inside {t : Token} (ht : t ∈ Parse.bodyTokens doc block) :
    (doc.range t.span.start t.span.stop).Inside block.range := by
  obtain ⟨hstart, hstop, hle⟩ := token_admitted hb ht
  exact inside_range hb hstart hstop hle

theorem include_inside {statement : Include} (hs : statement ∈ block.includes) :
    statement.range.Inside block.range ∧ statement.keywordRange.Inside block.range := by
  rw [includes_eq hb] at hs
  obtain ⟨pre, keyword, rest, arg, hts, _, _, harg, rfl⟩ := mem_includesOf hs
  have hmem {t : Token} (ht : t ∈ pre ++ keyword :: rest) :=
    token_inside hb (bodyTokens_subset (hts ▸ ht))
  have hkeyword := hmem (t := keyword) (by simp)
  refine ⟨?_, hkeyword⟩
  simp only [Include.ofTokens]
  split
  · exact hmem (by simp [List.mem_of_find?_eq_some harg])
  · exact hkeyword

theorem token_text {t : Token} (ht : t ∈ Parse.bodyTokens doc block) (he : t.kind ≠ .error)
    (hi : t.kind ≠ .invalid) (hk : t.kind ≠ .eof) {m n : Nat} (hm : t.span.start = m)
    (hn : t.span.stop = n) : t.text = doc.text.slice m n ∧ m + t.text.length = n := by
  obtain ⟨_, ⟨o, ho, _, _, hboundary⟩, hle⟩ := token_admitted hb ht
  have htile := Lexer.tokensFrom_tiling (Scanner.ofSpan_reads doc.text block.bodyStart block.bodyEnd)
  have hsource := htile.text_eq t ht he hi hk
  have hslice : t.text = doc.text.slice m n := by
    rw [hsource, Span.source, hm, hn]
    rfl
  have hlen := hboundary.le_length
  refine ⟨hslice, ?_⟩
  rw [hslice, Bytes.length_slice _ _ (by omega)]
  omega

theorem hook_inside {hook : Hook} (hh : hook ∈ block.hooks) : hook.range.Inside block.range := by
  rw [hooks_eq hb] at hh
  obtain ⟨t, ht, rfl⟩ := List.mem_map.mp hh
  obtain ⟨ht, hk⟩ := List.mem_filter.mp ht
  simp only [Bool.and_eq_true, beq_iff_eq] at hk
  have ht := bodyTokens_subset ht
  have hstart := (token_admitted hb ht).1
  obtain ⟨⟨m, hm, hlow, _, hmb⟩, ⟨n, hn, _, hhigh, hnb⟩, hle⟩ := token_admitted hb ht
  obtain ⟨htext, hlength⟩ :=
    token_text hb ht (by simp [hk.1]) (by simp [hk.1]) (by simp [hk.1]) hm hn
  have hmarker : t.text.IsBoundary (Hook.ofComment doc t).text.length := by
    refine Bytes.isBoundary_dropRightWhile (fun b hb => ?_) t.text
    simp only [Bool.or_eq_true, beq_iff_eq] at hb
    rcases hb with (rfl | rfl) | rfl <;> decide
  have hshorter := hmarker.le_length
  rw [htext] at hmarker
  have hend := Bytes.isBoundary_of_slice hmb hnb (by omega) hmarker
  exact inside_range hb hstart ⟨_, by rw [hm]; rfl, by omega, by omega, hend⟩ (by omega)

end Scan

end Block

namespace Parse

namespace Walk

/-- Every open delimiter stands in front of the tokens that are still to come, and every finding reaches
from one offset of the block to a later one. -/
structure Placed (doc : Document) (block : Block) (later : List Token) (w : Walk) : Prop where
  openers : ∀ a ∈ w.openStarts, block.Admits doc a ∧ ∀ t ∈ later, a ≤ t.span.start
  findings : ∀ d ∈ w.diagnostics, ∃ a b, block.Admits doc a ∧ block.Admits doc b ∧ a ≤ b ∧
    d.range = doc.range a b

theorem Placed.unwind {doc : Document} {block : Block} {later : List Token} {w w' : Walk}
    (h : Placed doc block later w) {skipped : List Opener} {kept : List Int} {stop : Int}
    (hw : w.openStarts = skipped.map (·.start) ++ kept)
    (hd : w'.diagnostics = w.diagnostics ++ skipped.map (Parse.unclosed doc stop))
    (hs : w'.openStarts.Sublist kept) (hstop : block.Admits doc stop)
    (hle : ∀ a ∈ w.openStarts, a ≤ stop) : Placed doc block later w' := by
  have hkept : ∀ a ∈ w'.openStarts, a ∈ w.openStarts :=
    fun a ha => hw ▸ List.mem_append_right _ (hs.subset ha)
  refine ⟨fun a ha => h.openers a (hkept a ha), fun d hm => ?_⟩
  rw [hd] at hm
  rcases List.mem_append.mp hm with hm | hm
  · exact h.findings d hm
  · obtain ⟨o, ho, rfl⟩ := List.mem_map.mp hm
    have hopen : o.start ∈ w.openStarts := hw ▸ List.mem_append_left _ (List.mem_map_of_mem ho)
    exact ⟨o.start, stop, (h.openers _ hopen).1, hstop, hle _ hopen, rfl⟩

theorem Effect.placed {doc : Document} {block : Block} {t : Token} {later : List Token} {w w' : Walk}
    (he : Effect doc t w w') (h : Placed doc block (t :: later) w)
    (hstart : block.Admits doc t.span.start) (hstop : block.Admits doc t.span.stop)
    (hle : t.span.start ≤ t.span.stop) (hlater : ∀ u ∈ later, t.span.start ≤ u.span.start) :
    Placed doc block later w' := by
  have hrest : Placed doc block later w :=
    ⟨fun a ha => ⟨(h.openers a ha).1, fun u hu => (h.openers a ha).2 u (List.mem_cons_of_mem _ hu)⟩,
      h.findings⟩
  cases he with
  | @complains d hr _ hd hs =>
    refine ⟨fun a ha => hrest.openers a (hs.subset ha), fun e hm => ?_⟩
    rw [hd] at hm
    rcases List.mem_append.mp hm with hm | hm
    · exact h.findings e hm
    · rw [List.mem_singleton.mp hm]
      exact ⟨_, _, hstart, hstop, hle, hr⟩
  | opens hd hs =>
    refine ⟨fun a ha => ?_, hd ▸ h.findings⟩
    rw [hs] at ha
    rcases List.mem_cons.mp ha with rfl | ha
    · exact ⟨hstart, hlater⟩
    · exact hrest.openers a ha
  | closes hw hd hs =>
    exact hrest.unwind hw hd hs hstart fun a ha => (h.openers a ha).2 t List.mem_cons_self
  | passes hd hs => exact ⟨hs ▸ hrest.openers, hd ▸ h.findings⟩

theorem foldl_placed {doc : Document} {block : Block} {tokens : List Token} {w : Walk}
    (h : Placed doc block tokens w)
    (ht : ∀ t ∈ tokens, block.Admits doc t.span.start ∧ block.Admits doc t.span.stop ∧
      t.span.start ≤ t.span.stop)
    (ho : tokens.Pairwise fun t u => t.span.start ≤ u.span.start) :
    Placed doc block [] (tokens.foldl (step doc) w) := by
  induction tokens generalizing w with
  | nil => exact h
  | cons t tokens ih =>
    obtain ⟨hstart, hstop, hle⟩ := ht t List.mem_cons_self
    obtain ⟨hlater, ho⟩ := List.pairwise_cons.mp ho
    exact ih ((step_effect doc w t).placed h hstart hstop hle hlater)
      (fun u hu => ht u (List.mem_cons_of_mem _ hu)) ho

end Walk

section Reading

variable {doc : Document} {block : Block} (hb : block ∈ Block.scan doc)

include hb

theorem walk_inside : ∀ d ∈ (structureOf doc block).diagnostics, d.range.Inside block.range := by
  have htokens : ∀ t ∈ codeTokens (bodyTokens doc block), t ∈ bodyTokens doc block :=
    fun t ht => (List.mem_filter.mp ht).1
  have hordered : (codeTokens (bodyTokens doc block)).Pairwise fun t u =>
      t.span.start < u.span.start :=
    bodyWords_ascending.sublist (codeTokens_sublist doc block)
  have hempty : Walk.Placed doc block (codeTokens (bodyTokens doc block)) {} :=
    ⟨by simp [Walk.openStarts], by simp⟩
  have hall := Walk.foldl_placed hempty (fun t ht => Block.token_admitted hb (htokens t ht))
    (hordered.imp fun h => Int.le_of_lt h)
  have hstop : block.Admits doc block.stop := by
    obtain ⟨_, _, _, he⟩ := Block.exists_beginsAt hb
    exact ⟨block.stop, rfl, he.bounds.2.2.2.2.1, Nat.le_refl _, Block.stop_isBoundary hb⟩
  have hfinish : Walk.Placed doc block [] (walk doc block (bodyTokens doc block)) := by
    refine hall.unwind (List.append_nil _).symm rfl (List.Sublist.refl _) hstop fun a ha => ?_
    obtain ⟨o, rfl, _, hle, _⟩ := (hall.openers a ha).1
    exact Int.ofNat_le.mpr hle
  intro d hd
  obtain ⟨a, b, ha, hb', hle, hrange⟩ := hfinish.findings d hd
  rw [hrange]
  exact Block.inside_range hb ha hb' hle

theorem call_inside {call : Call} (hc : call ∈ (structureOf doc block).calls) :
    call.nameRange.Inside block.range := by
  have hs : spelling call ∈ (walk doc block (bodyTokens doc block)).spellings := List.mem_map_of_mem hc
  obtain ⟨pre, space, dot, name, paren, post, hts, hstands⟩ :=
    (walk_names doc block (bodyTokens doc block)).stand _ hs
  have hname : name ∈ codeTokens (bodyTokens doc block) := hts ▸ (by simp)
  have hrange : call.nameRange = doc.range name.span.start name.span.stop :=
    congrArg Spelling.range hstands.eq
  rw [hrange]
  exact Block.token_inside hb (List.mem_filter.mp hname).1

theorem finding_inside [Similar.Matcher] (ws : Workspace) (ix : Index) (origin : Origin) (c : Check)
    {d : Diagnostic} (hd : d ∈ Check.findings ws ix origin block (structureOf doc block).calls c) :
    d.range.Inside block.range := by
  have hm := (Check.findings_ranges ws ix origin block _ c).subset (List.mem_map_of_mem hd)
  have hcall (hm : d.range ∈ (structureOf doc block).calls.map (·.nameRange)) :
      d.range.Inside block.range := by
    obtain ⟨call, hc, hr⟩ := List.mem_map.mp hm
    exact hr ▸ call_inside hb hc
  have hinclude (hm : d.range ∈ block.includes.map (·.range)) : d.range.Inside block.range := by
    obtain ⟨statement, hs, hr⟩ := List.mem_map.mp hm
    exact hr ▸ (Block.include_inside hb hs).1
  have hheader (hm : d.range ∈ [block.headerRange]) : d.range.Inside block.range :=
    List.mem_singleton.mp hm ▸ Block.headerRange_inside hb
  cases c with
  | unknownFunction => exact hcall hm
  | argCount => exact hcall hm
  | includeArg => exact hinclude hm
  | danglingInclude => exact hinclude hm
  | hookMarker =>
    obtain ⟨hook, hh, hr⟩ := List.mem_map.mp hm
    exact hr ▸ Block.hook_inside hb hh
  | missingEndScript => exact hheader hm
  | scriptHeader => exact hheader hm
  | scriptName => exact hheader hm
  | duplicateScript => exact hheader hm
  | unknownHookTarget => exact hheader hm
  | unknownHook => exact hheader hm

theorem strictly_inside [Similar.Matcher] (ws : Workspace) (ix : Index) (origin : Origin) :
    ∀ d ∈ (strictly ws ix origin doc block).diagnostics,
      d.uri = block.uri ∧ d.range.Inside block.range := by
  intro d hd
  refine ⟨((strictly_sites ws ix origin hb).2 d hd).1.trans (Block.scan_uri hb).symm, ?_⟩
  rcases List.mem_append.mp ((strictly_perm ws ix origin doc block).mem_iff.mp hd) with hd | hd
  · exact walk_inside hb d hd
  · obtain ⟨c, _, hd⟩ := List.mem_flatMap.mp hd
    exact finding_inside hb ws ix origin c hd

end Reading

end Parse

/-- What a reading tells of a block lies in the range of the block, and its findings are in the order in
which they start. -/
structure ParseResult.LiesIn (result : ParseResult) (block : Block) : Prop where
  uri : ∀ d ∈ result.diagnostics, d.uri = block.uri
  findings : ∀ d ∈ result.diagnostics, d.range.Inside block.range
  ordered : result.diagnostics.Pairwise fun a b => b.range.start.less a.range.start = false
  header : block.headerRange.Inside block.range
  includes : ∀ i ∈ block.includes, i.range.Inside block.range
  keywords : ∀ i ∈ block.includes, i.keywordRange.Inside block.range
  hooks : ∀ h ∈ block.hooks, h.range.Inside block.range
  calls : ∀ c ∈ result.calls, c.nameRange.Inside block.range

/-- What stands below a symbol lies in the range of the symbol. -/
structure BlockSymbol.Nested (s : BlockSymbol) : Prop where
  selection : s.selection.Inside s.range
  hooks : ∀ h ∈ s.hooks, h.range.Inside s.range

theorem BlockSymbol.nested_of_scan {doc : Document} {block : Block} (hb : block ∈ Block.scan doc) :
    (ofBlock block).Nested := by
  refine ⟨Block.headerRange_inside hb, fun h hh => ?_⟩
  obtain ⟨hook, hm, hh⟩ := List.mem_filterMap.mp hh
  obtain ⟨marker, _, rfl⟩ := Option.map_eq_some_iff.mp hh
  exact Block.hook_inside hb hm

namespace Parse

theorem liesIn_of_findings {doc : Document} {block : Block} (hb : block ∈ Block.scan doc)
    {result : ParseResult}
    (hin : ∀ d ∈ result.diagnostics, d.uri = block.uri ∧ d.range.Inside block.range)
    (hs : result.diagnostics.Pairwise fun a b => b.range.start.less a.range.start = false)
    (hc : result.calls = (structureOf doc block).calls) : result.LiesIn block where
  uri d hd := (hin d hd).1
  findings d hd := (hin d hd).2
  ordered := hs
  header := Block.headerRange_inside hb
  includes _ hi := (Block.include_inside hb hi).1
  keywords _ hi := (Block.include_inside hb hi).2
  hooks _ hh := Block.hook_inside hb hh
  calls _ hm := call_inside hb (hc ▸ hm)

/-- Whatever the bytes of the document are, and however strictly a block is read. -/
theorem run_liesIn [Similar.Matcher] {ws : Workspace} {source : Supply} {origin : Origin} {block : Block}
    {strict : Bool} {file : HostFile} {result : ParseResult} (hf : source block.uri = .ok file)
    (hb : block ∈ file.blocks) (hr : ReadM.run source (run ws origin block strict) = .ok result) :
    result.LiesIn block ∧ (BlockSymbol.ofBlock block).Nested := by
  rw [file.blocks_eq] at hb
  refine ⟨?_, BlockSymbol.nested_of_scan hb⟩
  cases strict with
  | true =>
    obtain ⟨file', ix, hf', rfl⟩ := exists_of_run_strict hr
    obtain rfl := Except.ok.inj (hf'.symm.trans hf)
    exact liesIn_of_findings hb (strictly_inside hb ws ix origin) (Diagnostic.sort_pairwise _) rfl
  | false =>
    obtain rfl := Except.ok.inj (hr.symm.trans (run_local ws hf origin))
    refine liesIn_of_findings hb (fun d hd => ?_) (Diagnostic.sort_pairwise _) rfl
    rw [ofDocument_eq_strictly ws ⟨[]⟩ origin] at hd
    exact strictly_inside hb ws ⟨[]⟩ origin d (List.mem_filter.mp hd).1

def brokenText : Document := .ofText "a" (utf8 "SCRIPT:1,A\r\nx.y(\"" ++ 0xFF ::
  utf8 "\"\r\nincludescript 9\r\n//ADDHOOK-1-h \r\nENDSCRIPT\r\n")

def brokenBlock : Block := .close brokenText ⟨0, .script, utf8 "1,A"⟩ 54 63 true

theorem run_liesIn_broken :
    let source : Supply := fun _ => .ok (.ofDocument brokenText)
    brokenBlock ∈ (HostFile.ofDocument brokenText).blocks ∧ ∃ result,
      ReadM.run source (run ⟨["a"], none⟩ .workspace brokenBlock true) = .ok result ∧
        (result.diagnostics.map (·.code)).Perm [unclosedCode, danglingInclude] ∧
        result.LiesIn brokenBlock ∧ (BlockSymbol.ofBlock brokenBlock).Nested := by
  intro source
  let ws : Workspace := ⟨["a"], none⟩
  have hscan : Block.scan brokenText = [brokenBlock] := by decide +kernel
  have hb : brokenBlock ∈ (HostFile.ofDocument brokenText).blocks := by
    rw [HostFile.blocks_eq]
    exact hscan ▸ List.mem_singleton_self _
  have hi : ReadM.run source ws.index = .ok ⟨[brokenBlock]⟩ := by
    rw [← List.append_nil [brokenBlock], ← hscan]
    rfl
  have hcodes : (unsorted ws ⟨[brokenBlock]⟩ .workspace brokenText brokenBlock).map (·.code)
      = [unclosedCode, danglingInclude] := by decide +kernel
  have hr : ReadM.run source (run ws .workspace brokenBlock true)
      = .ok (strictly ws ⟨[brokenBlock]⟩ .workspace brokenText brokenBlock) :=
    run_strict hi rfl .workspace
  have hperm := (strictly_perm ws ⟨[brokenBlock]⟩ .workspace brokenText brokenBlock).map (·.code)
  exact ⟨hb, _, hr, hcodes ▸ hperm, run_liesIn rfl hb hr⟩

end Parse

end HostScript
