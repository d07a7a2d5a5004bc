import HostScript.Proofs.Check.Run
import HostScript.Proofs.Parse.Places

/-!
No two findings of a workspace share document, place and code. A check reports a block at its header at
most once, or at calls, includes and hooks, which begin at tokens of their own. Blocks do not overlap,
so findings of different blocks begin at different places.
-/

set_option autoImplicit false

namespace HostScript

open Parse (place bodyWords SitesDiffer)

theorem map_filterMap_sublist {α β γ : Type} {f : α → Option β} {g : β → γ} {h : α → γ}
    (hf : ∀ a b, f a = some b → g b = h a) (as : List α) :
    ((as.filterMap f).map g).Sublist (as.map h) := by
  induction as with
  | nil => simp
  | cons a as ih =>
    cases ha : f a with
    | none => simpa [ha] using ih.cons (h a)
    | some b => simpa [ha, hf a b ha] using ih

namespace Block

theorem includesOf_append {doc : Document} {pre : List Token} (h : ∀ t ∈ pre, t.kind ≠ .identifier)
    (ts : List Token) : includesOf doc (pre ++ ts) = includesOf doc ts := by
  induction pre with
  | nil => rfl
  | cons t pre ih =>
    have ht : ¬ (t.kind = .identifier ∧ t.text = utf8 includeKeyword) := fun hk => h t (by simp) hk.1
    rw [List.cons_append, includesOf, if_neg ht, ih fun u hu => h u (by simp [hu])]

theorem includesOf_of_target (doc : Document) {rest : List Token} {arg : Token}
    (harg : rest.find? (·.kind != .comment) = some arg) (ht : (Include.targetOf arg).isSome = true) :
    ∃ pre post, rest = pre ++ arg :: post ∧ arg.kind = .number ∧
      includesOf doc rest = includesOf doc post := by
  have hnumber : arg.kind = .number := by
    by_contra hne
    simp [Include.targetOf, hne] at ht
  obtain ⟨_, pre, post, rfl, hpre⟩ := List.find?_eq_some_iff_append.mp harg
  have hskip : ∀ t ∈ pre ++ [arg], t.kind ≠ .identifier := by
    intro t hmem
    rcases List.mem_append.mp hmem with hmem | hmem
    · have hc := hpre t hmem
      simp only [Bool.not_eq_true', bne_eq_false_iff_eq] at hc
      simp [hc]
    · simp [List.mem_singleton.mp hmem, hnumber]
  refine ⟨pre, post, rfl, hnumber, ?_⟩
  rw [List.append_cons, includesOf_append hskip]

/-- Includes begin at tokens of their own: a keyword, or the number behind it. -/
theorem includesOf_places (doc : Document) (ts : List Token) :
    ((includesOf doc ts).map (·.range.start)).Sublist ((ts.filter (·.kind != .eof)).map (place doc)) := by
  -- The induction goes on behind the number of an include, which may stand behind comments.
  induction hn : ts.length using Nat.strong_induction_on generalizing ts with
  | _ n ih =>
    subst hn
    cases ts with
    | nil => simp [includesOf]
    | cons token rest =>
      have hrest := ih rest.length (by simp) rest rfl
      have hcons : ((rest.filter (·.kind != .eof)).map (place doc)).Sublist
          (((token :: rest).filter (·.kind != .eof)).map (place doc)) :=
        ((List.sublist_cons_self token rest).filter _).map _
      unfold includesOf
      split
      · rename_i hk
        split
        · rename_i arg harg
          rw [List.map_cons]
          by_cases ht : (Include.targetOf arg).isSome = true
          · obtain ⟨pre, post, rfl, hnumber, hsame⟩ := includesOf_of_target doc harg ht
            have hpost := ih post.length (by simp; omega) post rfl
            refine List.Sublist.trans ?_ hcons
            rw [hsame, List.filter_append, List.map_append]
            refine List.Sublist.trans ?_ (List.sublist_append_right _ _)
            simpa [Include.ofTokens, ht, hnumber, Document.range, place] using hpost
          · simp only [List.filter_cons, hk.1]
            simpa [Include.ofTokens, ht, Document.range, place] using hrest
        · exact hrest.trans hcons
      · exact hrest.trans hcons

theorem mem_includesOf {doc : Document} {ts : List Token} {statement : Include}
    (h : statement ∈ includesOf doc ts) : ∃ pre keyword rest arg, ts = pre ++ keyword :: rest ∧
      keyword.kind = .identifier ∧ keyword.text = utf8 includeKeyword ∧
      rest.find? (·.kind != .comment) = some arg ∧ statement = Include.ofTokens doc keyword arg := by
  induction ts with
  | nil => simp [includesOf] at h
  | cons token rest ih =>
    have later (h : statement ∈ includesOf doc rest) : ∃ pre keyword tail arg,
        token :: rest = pre ++ keyword :: tail ∧ keyword.kind = .identifier ∧
          keyword.text = utf8 includeKeyword ∧ tail.find? (·.kind != .comment) = some arg ∧
          statement = Include.ofTokens doc keyword arg := by
      obtain ⟨pre, keyword, tail, arg, rfl, hspec⟩ := ih h
      exact ⟨token :: pre, keyword, tail, arg, rfl, hspec⟩
    unfold includesOf at h
    split at h
    · rename_i hk
      split at h
      · rename_i arg harg
        rcases List.mem_cons.mp h with h | h
        · exact ⟨[], token, rest, arg, rfl, hk.1, hk.2, harg, h⟩
        · exact later h
      · exact later h
    · exact later h

theorem hooksOf_places (doc : Document) (ts : List Token) :
    ((hooksOf doc ts).map (·.range.start)).Sublist ((ts.filter (·.kind != .eof)).map (place doc)) := by
  have hmap : (hooksOf doc ts).map (·.range.start)
      = (ts.filter fun t => t.kind == .comment && t.text.startsWith (utf8 Hook.keyword)).map (place doc) := by
    simp [hooksOf, Hook.ofComment, Document.range, place]
  rw [hmap]
  refine List.Sublist.map _ (List.monotone_filter_right ts fun t ht => ?_)
  simp only [Bool.and_eq_true, beq_iff_eq] at ht
  simp [ht.1]

theorem bodyTokens_words (doc : Document) (block : Block) :
    ((bodyTokens doc block.bodyStart block.bodyEnd).filter (·.kind != .eof)).Sublist (bodyWords doc block) := by
  unfold bodyTokens
  split
  · exact List.Sublist.refl _
  · exact List.nil_sublist _

theorem bodyTokens_subset {doc : Document} {block : Block} {t : Token}
    (ht : t ∈ bodyTokens doc block.bodyStart block.bodyEnd) : t ∈ Parse.bodyTokens doc block := by
  unfold bodyTokens at ht
  split at ht
  · exact ht
  · cases ht

section Scan

variable {doc : Document} {block : Block} (hb : block ∈ scan doc)

include hb

theorem includes_eq :
    block.includes = includesOf doc (bodyTokens doc block.bodyStart block.bodyEnd) := by
  obtain ⟨_, h, _, he⟩ := exists_beginsAt hb
  rw [he.eq_close]
  rfl

theorem hooks_eq : block.hooks = hooksOf doc (bodyTokens doc block.bodyStart block.bodyEnd) := by
  obtain ⟨_, h, _, he⟩ := exists_beginsAt hb
  rw [he.eq_close]
  rfl

theorem includes_places :
    (block.includes.map (·.range.start)).Sublist ((bodyWords doc block).map (place doc)) := by
  rw [includes_eq hb]
  exact (includesOf_places doc _).trans ((bodyTokens_words doc block).map _)

theorem hooks_places :
    (block.hooks.map (·.range.start)).Sublist ((bodyWords doc block).map (place doc)) := by
  rw [hooks_eq hb]
  exact (hooksOf_places doc _).trans ((bodyTokens_words doc block).map _)

theorem headerRange_start : block.headerRange.start = doc.positionAt block.start := by
  obtain ⟨_, h, _, he⟩ := exists_beginsAt hb
  rw [he.eq_close]
  rfl

theorem start_isBoundary : doc.IsBoundary block.start := by
  obtain ⟨_, h, _, he⟩ := exists_beginsAt hb
  rw [he.bounds.2.1]
  exact doc.isBoundary_of_text (doc.isBoundary_lineStart h.line)

end Scan

/-- The header and the tokens of a body, by where they begin. -/
def places (doc : Document) (block : Block) : List Position :=
  block.headerRange.start :: (bodyWords doc block).map (place doc)

theorem words_sublist (doc : Document) (block : Block) :
    ((bodyWords doc block).map (place doc)).Sublist (places doc block) := List.sublist_cons_self _ _

/-- A position between two runes of a block. -/
def Holds (doc : Document) (block : Block) (p : Position) : Prop :=
  ∃ o : Nat, block.start ≤ o ∧ o < block.stop ∧ doc.IsBoundary o ∧ p = doc.positionAt o

theorem places_hold {doc : Document} {block : Block} (hb : block ∈ scan doc) :
    ∀ p ∈ places doc block, Holds doc block p := by
  intro p hp
  cases List.mem_cons.mp hp with
  | inl hp =>
    have hlt := Parse.start_lt_bodyStart hb
    obtain ⟨_, h, _, he⟩ := exists_beginsAt hb
    obtain ⟨_, _, hbody, hend, _, _⟩ := he.bounds
    exact ⟨block.start, Nat.le_refl _, by omega, start_isBoundary hb, hp.trans (headerRange_start hb)⟩
  | inr hp =>
    obtain ⟨o, hlow, hhigh, hboundary, rfl⟩ := Parse.places_inside hb p hp
    exact ⟨o, Nat.le_of_lt hlow, hhigh, hboundary, rfl⟩

theorem places_nodup {doc : Document} {block : Block} (hb : block ∈ scan doc) :
    (places doc block).Nodup := by
  refine List.nodup_cons.mpr ⟨fun hmem => ?_, Parse.places_nodup hb⟩
  obtain ⟨o, hlow, _, hboundary, heq⟩ := Parse.places_inside hb _ hmem
  rw [headerRange_start hb] at heq
  have hsame := (start_isBoundary hb).eq_of_positionAt_eq hboundary heq
  omega

end Block

namespace Check

def findings [Similar.Matcher] (ws : Workspace) (ix : Index) (origin : Origin) (block : Block)
    (calls : List Call) :
    Check → List Diagnostic
  | .missingEndScript => onMissingEndScript block
  | .scriptHeader => onScriptHeader block
  | .scriptName => onScriptName block
  | .unknownFunction => calls.filterMap (unknownFunctionAt ws block)
  | .argCount => calls.filterMap (argCountAt ws block)
  | .includeArg => block.includes.filterMap (includeArgAt block)
  | .hookMarker => onHookMarkers block [] block.hooks
  | .danglingInclude => onDanglingIncludes ix block
  | .duplicateScript => onDuplicateScript ix origin block
  | .unknownHookTarget => onUnknownHookTarget ix block
  | .unknownHook => onUnknownHook ix block

variable {ws : Workspace} {ix : Index} {origin : Origin} {block : Block} {calls : List Call}

theorem all_findings [Similar.Matcher] (ws : Workspace) (ix : Index) (origin : Origin) (block : Block)
    (calls : List Call) :
    localFindings ws block calls ++ strictFindings ix origin block
      = all.flatMap (findings ws ix origin block calls) := by
  simp [localFindings, strictFindings, all, findings]

theorem findings_madeBy [Similar.Matcher] {c : Check} {d : Diagnostic}
    (hd : d ∈ findings ws ix origin block calls c) :
    MadeBy c block d := by
  cases c with
  | missingEndScript => exact onMissingEndScript_madeBy block d hd
  | scriptHeader => exact onScriptHeader_madeBy block d hd
  | scriptName => exact onScriptName_madeBy block d hd
  | unknownFunction =>
    obtain ⟨call, _, hc⟩ := List.mem_filterMap.mp hd
    exact unknownFunctionAt_madeBy hc
  | argCount =>
    obtain ⟨call, _, hc⟩ := List.mem_filterMap.mp hd
    exact argCountAt_madeBy hc
  | includeArg =>
    obtain ⟨statement, _, hs⟩ := List.mem_filterMap.mp hd
    exact includeArgAt_madeBy hs
  | hookMarker => exact onHookMarkers_madeBy block [] block.hooks d hd
  | danglingInclude => exact onDanglingIncludes_madeBy ix block d hd
  | duplicateScript => exact onDuplicateScript_madeBy ix origin block d hd
  | unknownHookTarget => exact onUnknownHookTarget_madeBy ix block d hd
  | unknownHook => exact onUnknownHook_madeBy ix block d hd

theorem unknownFunctionAt_range [Similar.Matcher] {call : Call} {d : Diagnostic}
    (h : unknownFunctionAt ws block call = some d) : d.range = call.nameRange := by
  simp only [unknownFunctionAt, Option.bind_eq_bind, Option.bind_eq_some_iff] at h
  obtain ⟨space, _, h⟩ := h
  split at h
  · rw [← Option.some.inj h]
    rfl
  · cases h

theorem argCountAt_range {call : Call} {d : Diagnostic} (h : argCountAt ws block call = some d) :
    d.range = call.nameRange := by
  simp only [argCountAt, Option.bind_eq_bind, Option.bind_eq_some_iff] at h
  obtain ⟨f, _, h⟩ := h
  split at h
  · rw [← Option.some.inj h]
    rfl
  · cases h

theorem includeArgAt_range {statement : Include} {d : Diagnostic}
    (h : includeArgAt block statement = some d) : d.range = statement.range := by
  unfold includeArgAt at h
  split at h
  · cases h
  · rw [← Option.some.inj h]
    rfl

theorem onHookMarkers_ranges (block : Block) (seen : List Bytes) (hooks : List Hook) :
    ((onHookMarkers block seen hooks).map (·.range)).Sublist (hooks.map (·.range)) := by
  induction hooks generalizing seen with
  | nil => simp [onHookMarkers]
  | cons hook hooks ih =>
    have hone (complaint : Option String) : ((complaint.map fun text =>
        finding .hookMarker block hook.range (utf8 text)).toList.map (·.range)).Sublist [hook.range] := by
      cases complaint <;> simp [finding]
    rw [onHookMarkers, List.map_append]
    exact (hone _).append (ih _)

theorem onDanglingIncludes_ranges (ix : Index) (block : Block) :
    ((onDanglingIncludes ix block).map (·.range)).Sublist (block.includes.map (·.range)) := by
  have hsteps : ((Resolution.steps block).map (·.statement.range)).Sublist
      (block.includes.map (·.range)) := by
    refine map_filterMap_sublist (fun statement step hstep => ?_) block.includes
    obtain ⟨target, _, rfl⟩ := Option.map_eq_some_iff.mp hstep
    rfl
  rw [onDanglingIncludes, List.map_map]
  exact (List.filter_sublist.map _).trans hsteps

/-- What a check looks at: the calls of the block, its includes, its hooks or its header. -/
def ranges (block : Block) (calls : List Call) : Check → List Range
  | .unknownFunction | .argCount => calls.map (·.nameRange)
  | .includeArg | .danglingInclude => block.includes.map (·.range)
  | .hookMarker => block.hooks.map (·.range)
  | _ => [block.headerRange]

theorem findings_ranges [Similar.Matcher] (ws : Workspace) (ix : Index) (origin : Origin) (block : Block)
    (calls : List Call) (c : Check) :
    ((findings ws ix origin block calls c).map (·.range)).Sublist (ranges block calls c) := by
  cases c with
  | missingEndScript =>
    simp only [findings, ranges, onMissingEndScript]
    split <;> simp [finding]
  | scriptHeader =>
    simp only [findings, ranges, onScriptHeader]
    split
    · simp [finding]
    · split <;> simp [finding]
  | scriptName =>
    simp only [findings, ranges, onScriptName]
    split <;> simp [finding]
  | unknownFunction => exact map_filterMap_sublist (fun _ _ => unknownFunctionAt_range) calls
  | argCount => exact map_filterMap_sublist (fun _ _ => argCountAt_range) calls
  | includeArg => exact map_filterMap_sublist (fun _ _ => includeArgAt_range) block.includes
  | hookMarker => exact onHookMarkers_ranges block [] block.hooks
  | danglingInclude => exact onDanglingIncludes_ranges ix block
  | duplicateScript =>
    simp only [findings, ranges, onDuplicateScript]
    split
    · split <;> simp [finding]
    · simp
  | unknownHookTarget =>
    simp only [findings, ranges, onUnknownHookTarget]
    split
    · split <;> simp [finding]
    · simp
  | unknownHook =>
    simp only [findings, ranges, onUnknownHook]
    split
    · split
      · split <;> simp [finding]
      · simp
    · simp

/-- A check reports the header once at most, or tokens of the body each once. -/
theorem findings_places [Similar.Matcher] (ws : Workspace) (ix : Index) (origin : Origin) {doc : Document}
    (hb : block ∈ Block.scan doc)
    (hc : (calls.map (·.nameRange.start)).Sublist ((bodyWords doc block).map (place doc))) (c : Check) :
    ((findings ws ix origin block calls c).map (·.range.start)).Sublist (Block.places doc block) := by
  have hwords := Block.words_sublist doc block
  have hincludes := (Block.includes_places hb).trans hwords
  have hheader : [block.headerRange.start].Sublist (Block.places doc block) := by simp [Block.places]
  have hstarts := (findings_ranges ws ix origin block calls c).map Range.start
  rw [List.map_map] at hstarts
  refine hstarts.trans ?_
  cases c with
  | unknownFunction => simpa [ranges, Function.comp_def] using hc.trans hwords
  | argCount => simpa [ranges, Function.comp_def] using hc.trans hwords
  | includeArg => simpa [ranges, Function.comp_def] using hincludes
  | danglingInclude => simpa [ranges, Function.comp_def] using hincludes
  | hookMarker => simpa [ranges, Function.comp_def] using (Block.hooks_places hb).trans hwords
  | missingEndScript => exact hheader
  | scriptHeader => exact hheader
  | scriptName => exact hheader
  | duplicateScript => exact hheader
  | unknownHookTarget => exact hheader
  | unknownHook => exact hheader

theorem mem_all (c : Check) : c ∈ all := by
  cases c <;> decide

theorem name_injective {a b : Check} (h : a.name = b.name) : a = b :=
  List.inj_on_of_nodup_map (by decide) (mem_all a) (mem_all b) h

theorem flatMap_sitesDiffer {checks : List Check} (hn : checks.Nodup) {f : Check → List Diagnostic}
    (hs : ∀ c, SitesDiffer (f c)) (hf : ∀ c, ∀ d ∈ f c, d.code = c.name) :
    SitesDiffer (checks.flatMap f) := by
  rw [SitesDiffer, List.map_flatMap, List.nodup_flatMap]
  refine ⟨fun c _ => hs c, hn.imp fun {a b} hab => List.disjoint_left.mpr fun site ha hb => hab ?_⟩
  obtain ⟨x, hx, rfl⟩ := List.mem_map.mp ha
  obtain ⟨y, hy, heq⟩ := List.mem_map.mp hb
  apply name_injective
  rw [← hf a x hx, ← hf b y hy]
  exact (congrArg Prod.snd heq).symm

end Check

namespace Parse

variable [Similar.Matcher]

def unsorted (ws : Workspace) (ix : Index) (origin : Origin) (doc : Document) (block : Block) :
    List Diagnostic :=
  let w := walk doc block (bodyTokens doc block)
  w.diagnostics ++ Check.all.flatMap (Check.findings ws ix origin block w.calls)

theorem strictly_perm (ws : Workspace) (ix : Index) (origin : Origin) (doc : Document) (block : Block) :
    (strictly ws ix origin doc block).diagnostics.Perm (unsorted ws ix origin doc block) := by
  rw [unsorted, ← Check.all_findings]
  exact List.mergeSort_perm _ _

/-- The findings of a block begin at its header or at its tokens, and those of one code at different
ones. -/
theorem strictly_sites (ws : Workspace) (ix : Index) (origin : Origin) {doc : Document} {block : Block}
    (hb : block ∈ Block.scan doc) :
    SitesDiffer (strictly ws ix origin doc block).diagnostics ∧
      ∀ d ∈ (strictly ws ix origin doc block).diagnostics,
        d.uri = doc.uri ∧ d.range.start ∈ Block.places doc block := by
  have hperm := strictly_perm ws ix origin doc block
  have hcode := (codeTokens_sublist doc block).map (place doc)
  obtain ⟨hwalk, hwalkAt⟩ := walk_sites block (hcode.nodup (places_nodup hb))
  have hcalls := (walk_calls doc block (bodyTokens doc block)).trans hcode
  have hchecks := Check.findings_places ws ix origin hb hcalls
  constructor
  · refine SitesDiffer.perm (hwalk.append ?_ ?_) hperm.symm
    · refine Check.flatMap_sitesDiffer (by decide) (fun c => ?_) fun c d hd =>
        (Check.findings_madeBy hd).code_eq
      exact sitesDiffer_of_starts ((hchecks c).nodup (Block.places_nodup hb))
    · intro x hx y hy heq
      obtain ⟨c, _, hy⟩ := List.mem_flatMap.mp hy
      have hname := (walk_structural doc block _ x hx).code_mem
      rw [heq, (Check.findings_madeBy hy).code_eq] at hname
      exact Check.name_not_structural c hname
  · intro d hd
    cases List.mem_append.mp (hperm.mem_iff.mp hd) with
    | inl hd =>
      obtain ⟨_, _, _, _, _, _, hfinding⟩ := walk_structural doc block _ d hd
      exact ⟨by rw [hfinding]; rfl, (hcode.trans (Block.words_sublist doc block)).subset (hwalkAt d hd)⟩
    | inr hd =>
      obtain ⟨c, _, hd⟩ := List.mem_flatMap.mp hd
      obtain ⟨_, _, _, hfinding⟩ := Check.findings_madeBy hd
      refine ⟨?_, (hchecks c).subset (List.mem_map_of_mem hd)⟩
      rw [hfinding]
      exact Block.scan_uri hb

section Site

variable {ws : Workspace} {ix : Index} {origin : Origin} {doc : Document} {a b : Block}
  {x y : Diagnostic} (ha : a ∈ Block.scan doc) (hb : b ∈ Block.scan doc)
  (hx : x ∈ (strictly ws ix origin doc a).diagnostics)
  (hy : y ∈ (strictly ws ix origin doc b).diagnostics) (hstart : x.range.start = y.range.start)

include ha hb hx hy hstart

theorem block_eq_of_start : a = b := by
  obtain ⟨o, hlow, hhigh, hboundary, ho⟩ :=
    Block.places_hold ha _ ((strictly_sites ws ix origin ha).2 x hx).2
  obtain ⟨o', hlow', hhigh', hboundary', ho'⟩ :=
    Block.places_hold hb _ ((strictly_sites ws ix origin hb).2 y hy).2
  have hsame : o = o' := hboundary.eq_of_positionAt_eq hboundary' (by rw [← ho, ← ho', hstart])
  rcases Nat.lt_trichotomy a.start b.start with hlt | heq | hlt
  · have hapart := (Block.stop_le_start ha hb hlt).1
    omega
  · exact Block.eq_of_start_eq ha hb heq
  · have hapart := (Block.stop_le_start hb ha hlt).1
    omega

theorem strictly_eq_of_site (hcode : x.code = y.code) : x = y := by
  obtain rfl := block_eq_of_start ha hb hx hy hstart
  exact List.inj_on_of_nodup_map (strictly_sites ws ix origin ha).1 hx hy (by rw [hstart, hcode])

end Site

def findingCodes : List String := structuralCodes ++ Check.all.map Check.name

theorem strictly_code_mem {ws : Workspace} {ix : Index} {origin : Origin} {doc : Document} {block : Block}
    {d : Diagnostic} (hd : d ∈ (strictly ws ix origin doc block).diagnostics) : d.code ∈ findingCodes := by
  cases List.mem_append.mp ((strictly_perm ws ix origin doc block).mem_iff.mp hd) with
  | inl hd => exact List.mem_append_left _ (walk_structural doc block _ d hd).code_mem
  | inr hd =>
    obtain ⟨c, hc, hd⟩ := List.mem_flatMap.mp hd
    rw [(Check.findings_madeBy hd).code_eq]
    exact List.mem_append_right _ (List.mem_map_of_mem hc)

section Index

variable {ws : Workspace} {source : Supply} (h : ws.ReadableFrom source)

include h

theorem exists_document {block : Block} (hb : block ∈ (ws.indexFrom source).blocks) :
    ∃ doc : Document, doc.uri ∈ ws.uris ∧ source doc.uri = .ok (.ofDocument doc) ∧
      block ∈ Block.scan doc ∧ findingsFrom ws source block
        = (strictly ws (ws.indexFrom source) .workspace doc block).diagnostics := by
  obtain ⟨uri, hu, hb⟩ := List.mem_flatMap.mp hb
  obtain ⟨doc, rfl, hs⟩ := h.found uri hu
  rw [Workspace.blocksFrom_ofDocument hs] at hb
  refine ⟨doc, hu, hs, hb, ?_⟩
  simp only [findingsFrom, Block.scan_uri hb, hs, HostFile.ofDocument]

/-- Findings of a workspace with document, place and code in common are one finding. -/
theorem findingsFrom_eq_of_site {a b : Block} (ha : a ∈ (ws.indexFrom source).blocks)
    (hb : b ∈ (ws.indexFrom source).blocks) {x y : Diagnostic} (hx : x ∈ findingsFrom ws source a)
    (hy : y ∈ findingsFrom ws source b) (huri : x.uri = y.uri) (hstart : x.range.start = y.range.start)
    (hcode : x.code = y.code) : x = y := by
  obtain ⟨doc, _, hs, ha, hfa⟩ := exists_document h ha
  obtain ⟨doc', _, hs', hb, hfb⟩ := exists_document h hb
  rw [hfa] at hx
  rw [hfb] at hy
  obtain rfl : doc = doc' := by
    rw [(strictly_sites _ _ _ ha).2 x hx |>.1, (strictly_sites _ _ _ hb).2 y hy |>.1] at huri
    rw [huri, hs'] at hs
    exact congrArg HostFile.doc (Except.ok.inj hs).symm
  exact strictly_eq_of_site ha hb hx hy hstart hcode

end Index

end Parse

end HostScript
