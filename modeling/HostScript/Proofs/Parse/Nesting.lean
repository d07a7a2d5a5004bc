import HostScript.Proofs.Check.Findings
import HostScript.Proofs.Check.Run
import HostScript.Proofs.Token.Spans
import HostScript.Similar

/-!
Delimiters of a block. Without lexical errors nothing is reported about them exactly if they are
well nested. A walk that reports nothing acts as a stack of open delimiters, and a stack accepts
the well-nested words and no others.
-/

set_option autoImplicit false

namespace HostScript

namespace Parse

def delimiters (tokens : List Token) : List TokenKind :=
  (tokens.map (·.kind)).filter fun kind => kind.isOpen || kind.isClose

/-- Well-nested words: nothing, or a group between fitting delimiters and a word after it. -/
inductive Nested : List TokenKind → Prop where
  | nil : Nested []
  | group {o : TokenKind} {u w : List TokenKind} : o.isOpen = true → Nested u → Nested w →
      Nested (o :: (u ++ o.closer :: w))

/-- Whether a word closes all that is open, the innermost first, and all that it opens. -/
def closes : List TokenKind → List TokenKind → Bool
  | stack, [] => stack.isEmpty
  | stack, k :: word =>
    if k.isOpen then closes (k :: stack) word
    else match stack with
      | top :: rest => top.closer == k && closes rest word
      | [] => false

theorem closer_not_isOpen (o : TokenKind) : o.closer.isOpen = false := by cases o <;> rfl

theorem not_isOpen_of_isClose {k : TokenKind} (h : k.isClose = true) : k.isOpen = false := by
  revert h
  cases k <;> decide

theorem Nested.append {u v : List TokenKind} (hu : Nested u) (hv : Nested v) : Nested (u ++ v) := by
  induction hu with
  | nil => exact hv
  | @group o u w ho hu _ _ ih => simpa using Nested.group ho hu ih

theorem Nested.closes_append {u : List TokenKind} (h : Nested u) (stack v : List TokenKind) :
    closes stack (u ++ v) = closes stack v := by
  induction h generalizing stack v with
  | nil => rfl
  | @group o u w ho _ _ ihu ihw =>
    have hc := ihu (o :: stack) (o.closer :: (w ++ v))
    simp [closes, ho, hc, closer_not_isOpen, ihw]

/-- A word that closes a stack is well nested up to the closing of each open delimiter. -/
def Unwinds : List TokenKind → List TokenKind → Prop
  | [], word => Nested word
  | o :: stack, word => ∃ u w, word = u ++ o.closer :: w ∧ Nested u ∧ Unwinds stack w

theorem Unwinds.prepend {u : List TokenKind} (hu : Nested u) {stack word : List TokenKind}
    (h : Unwinds stack word) : Unwinds stack (u ++ word) := by
  cases stack with
  | nil => exact hu.append h
  | cons o stack =>
    obtain ⟨v, w, rfl, hv, hw⟩ := h
    exact ⟨u ++ v, w, by simp, hu.append hv, hw⟩

theorem unwinds_of_closes (stack word : List TokenKind) (h : closes stack word = true) :
    Unwinds stack word := by
  induction word generalizing stack with
  | nil =>
    cases stack with
    | nil => exact .nil
    | cons o stack => simp [closes] at h
  | cons k word ih =>
    by_cases ho : k.isOpen = true
    -- An opening delimiter and what unwinds it make one more group in front of the rest.
    · obtain ⟨u, w, rfl, hu, hw⟩ := ih (k :: stack) (by simpa [closes, ho] using h)
      simpa using hw.prepend (Nested.group ho hu .nil)
    · cases stack with
      | nil => simp [closes, ho] at h
      | cons top stack =>
        have hk : top.closer = k ∧ closes stack word = true := by simpa [closes, ho] using h
        obtain ⟨rfl, hw⟩ := hk
        exact ⟨[], word, rfl, .nil, ih stack hw⟩

theorem closes_iff_nested (word : List TokenKind) : closes [] word = true ↔ Nested word := by
  constructor
  · exact unwinds_of_closes [] word
  · intro h
    simpa [closes] using h.closes_append [] []

def delimiterCodes : List String := [unclosedCode, mismatchedCode, unexpectedCode]

namespace Walk

def kinds (w : Walk) : List TokenKind := w.stack.map (·.kind)

def Quiet (w : Walk) : Prop := ∀ d ∈ w.diagnostics, d.code ∉ delimiterCodes

theorem quiet_congr {v w : Walk} (h : v.diagnostics = w.diagnostics) : v.Quiet ↔ w.Quiet := by
  simp [Quiet, h]

theorem not_quiet {v w : Walk} {ds : List Diagnostic} {d : Diagnostic}
    (h : w.diagnostics = v.diagnostics ++ ds) (hd : d ∈ ds) (hc : d.code ∈ delimiterCodes) :
    ¬ w.Quiet := fun hq => hq d (by simp [h, hd]) hc

theorem report_not_quiet (doc : Document) (w : Walk) (start stop : Int) {code : String}
    (message : Bytes) (hc : code ∈ delimiterCodes) :
    ¬ (w.report [finding doc start stop .error code message]).Quiet :=
  not_quiet (report_diagnostics _ _) (List.mem_singleton_self _) hc

@[simp] theorem markContent_kinds (w : Walk) : w.markContent.kinds = w.kinds := by
  unfold markContent kinds
  split <;> simp_all

theorem comma_kinds (w : Walk) (token : Token) : (comma w token).kinds = w.kinds := by
  unfold comma kinds
  split
  · split <;> rfl
  · rfl

theorem closeGroup_of_fits (doc : Document) {w : Walk} {token : Token} {top : Opener}
    {rest : List Opener} (hs : w.stack = top :: rest) (hf : fits token top = true) :
    (closeGroup doc w token).diagnostics = w.diagnostics ∧
      (closeGroup doc w token).stack = rest := by
  simp [closeGroup, hs, hf, pop, report]

theorem closeGroup_not_quiet {doc : Document} {w : Walk} {token : Token}
    (h : ∀ top rest, w.stack = top :: rest → fits token top = false) :
    ¬ (closeGroup doc w token).Quiet := by
  unfold closeGroup
  simp only
  split
  · exact report_not_quiet doc w _ _ _ (by simp [delimiterCodes])
  · rename_i top rest hs
    have hf := h top rest hs
    split
    · refine not_quiet (d := unclosed doc token.span.start top) (pop_diagnostics _ _) ?_ ?_
      · simp [hs, hf]
      · simp [unclosed, finding, delimiterCodes]
    · exact report_not_quiet doc w _ _ _ (by simp [delimiterCodes])

theorem dispatch_of_isOpen {doc : Document} {w : Walk} {token : Token}
    (h : token.kind.isOpen = true) : dispatch doc w token = openGroup doc w token := by
  have he : token.kind ≠ .error := by rintro he; simp [he, TokenKind.isOpen] at h
  have hi : token.kind ≠ .invalid := by rintro hi; simp [hi, TokenKind.isOpen] at h
  simp [dispatch, he, hi, h]

theorem dispatch_of_isClose {doc : Document} {w : Walk} {token : Token}
    (h : token.kind.isClose = true) : dispatch doc w token = closeGroup doc w token := by
  have he : token.kind ≠ .error := by rintro he; simp [he, TokenKind.isClose] at h
  have hi : token.kind ≠ .invalid := by rintro hi; simp [hi, TokenKind.isClose] at h
  simp [dispatch, he, hi, h, not_isOpen_of_isClose h]

theorem step_of_isOpen (doc : Document) (w : Walk) {token : Token} (h : token.kind.isOpen = true) :
    ((step doc w token).Quiet ↔ w.Quiet) ∧ (step doc w token).kinds = token.kind :: w.kinds := by
  have hc : token.kind.isClose = false := by
    by_contra hc
    simp [not_isOpen_of_isClose (by simpa using hc)] at h
  have hk := w.markContent_kinds
  simp only [step, hc, dispatch_of_isOpen h]
  refine ⟨quiet_congr (by simp), ?_⟩
  simpa [kinds, openGroup] using hk

theorem step_of_other (doc : Document) (w : Walk) {token : Token} (ho : token.kind.isOpen = false)
    (hc : token.kind.isClose = false) (he : token.kind ≠ .error) :
    ((step doc w token).Quiet ↔ w.Quiet) ∧ (step doc w token).kinds = w.kinds := by
  have hk := w.markContent_kinds
  simp only [step, dispatch, hc, ho, he]
  by_cases hi : token.kind = .invalid
  · refine ⟨?_, by simpa [hi, kinds] using hk⟩
    simp [hi, Quiet, finding, or_imp, forall_and, delimiterCodes, invalidCharacterCode, unclosedCode,
      mismatchedCode, unexpectedCode]
  · by_cases hcomma : token.kind = .comma
    · have hs := (comma_kinds w.markContent token).trans hk
      exact ⟨quiet_congr (by simp [hcomma]), by simpa [hcomma, kinds] using hs⟩
    · exact ⟨quiet_congr (by simp [hi, hcomma]), by simpa [hi, hcomma, kinds] using hk⟩

theorem step_of_fits (doc : Document) {w : Walk} {token : Token} {top : Opener} {rest : List Opener}
    (h : token.kind.isClose = true) (hs : w.stack = top :: rest) (hf : top.kind.closer = token.kind) :
    ((step doc w token).Quiet ↔ w.Quiet) ∧ (step doc w token).kinds = rest.map (·.kind) := by
  have hg := closeGroup_of_fits doc hs (show fits token top = true by simpa [fits] using hf)
  simp only [step, h, dispatch_of_isClose h]
  exact ⟨quiet_congr (by simp [hg.1]), by simp [kinds, hg.2]⟩

theorem step_not_quiet (doc : Document) {w : Walk} {token : Token} (h : token.kind.isClose = true)
    (hf : ∀ top rest, w.stack = top :: rest → top.kind.closer ≠ token.kind) :
    ¬ (step doc w token).Quiet := by
  simp only [step, h, dispatch_of_isClose h]
  exact closeGroup_not_quiet fun top rest hs => by simpa [fits] using hf top rest hs

theorem finish_quiet_iff (doc : Document) (stop : Nat) (w : Walk) :
    (finish doc stop w).Quiet ↔ w.Quiet ∧ w.kinds = [] := by
  simp only [finish, Quiet, kinds, report_diagnostics, List.map_eq_nil_iff]
  cases hs : w.stack with
  | nil => simp
  | cons top rest =>
    simp only [reduceCtorEq, and_false, iff_false]
    intro hq
    exact hq (unclosed doc stop top) (by simp) (by simp [unclosed, finding, delimiterCodes])

/-- A walk from any point on reports nothing about delimiters exactly if the rest of the word
closes what is open there. -/
theorem run_quiet_iff (doc : Document) (stop : Nat) (tokens : List Token) (w : Walk)
    (he : ∀ t ∈ tokens, t.kind ≠ .error) :
    (finish doc stop (tokens.foldl (step doc) w)).Quiet ↔
      w.Quiet ∧ closes w.kinds (delimiters tokens) = true := by
  -- The walk is generalised: its open delimiters are the stack of the word that is left.
  induction tokens generalizing w with
  | nil => simp [finish_quiet_iff, delimiters, closes]
  | cons token tokens ih =>
    have ih := ih (step doc w token) fun t ht => he t (by simp [ht])
    rw [List.foldl_cons, ih]
    by_cases ho : token.kind.isOpen = true
    · obtain ⟨hq, hk⟩ := step_of_isOpen doc w ho
      simp [hq, hk, delimiters, ho, closes]
    · by_cases hc : token.kind.isClose = true
      · cases hs : w.stack with
        | nil =>
          have hn := step_not_quiet doc (w := w) hc (by simp [hs])
          simp [hn, kinds, hs, delimiters, ho, hc, closes]
        | cons top rest =>
          by_cases hf : top.kind.closer = token.kind
          · obtain ⟨hq, hk⟩ := step_of_fits doc hc hs hf
            have hw : w.kinds = top.kind :: rest.map (·.kind) := by simp [kinds, hs]
            rw [hk, hw]
            simp [hq, delimiters, ho, hc, closes, hf]
          · have hn := step_not_quiet doc (w := w) hc (by simpa [hs] using hf)
            simp [hn, kinds, hs, delimiters, ho, hc, closes, hf]
      · obtain ⟨hq, hk⟩ := step_of_other doc w (by simpa using ho) (by simpa using hc)
          (he token (by simp))
        simp [hq, hk, delimiters, ho, hc]

end Walk

theorem delimiters_codeTokens (tokens : List Token) :
    delimiters (codeTokens tokens) = delimiters tokens := by
  unfold delimiters codeTokens
  rw [List.filter_map, List.filter_map, List.filter_filter]
  congr 1
  apply List.filter_congr
  intro t _
  simp only [Function.comp_apply]
  cases t.kind <;> rfl

theorem walk_quiet_iff {doc : Document} {block : Block} {tokens : List Token}
    (he : ∀ t ∈ tokens, t.kind ≠ .error) :
    (walk doc block tokens).Quiet ↔ Nested (delimiters tokens) := by
  have hc : ∀ t ∈ codeTokens tokens, t.kind ≠ .error :=
    fun t ht => he t (List.mem_filter.mp ht).1
  have hr := Walk.run_quiet_iff doc block.stop (codeTokens tokens) {} hc
  have hq : Walk.Quiet {} := by simp [Walk.Quiet]
  rw [walk, hr, delimiters_codeTokens, ← closes_iff_nested]
  exact ⟨fun h => h.2, fun h => ⟨hq, h⟩⟩

def ofDelimiters (ds : List Diagnostic) : List Diagnostic := ds.filter (·.code ∈ delimiterCodes)

theorem delimiterCodes_structural : ∀ code ∈ delimiterCodes, code ∈ structuralCodes := by decide

theorem ofDelimiters_append (ds es : List Diagnostic) : ofDelimiters (ds ++ es) = ofDelimiters ds ++ ofDelimiters es :=
  List.filter_append ..

theorem ofDelimiters_eq_nil {ds : List Diagnostic} : ofDelimiters ds = [] ↔ ∀ d ∈ ds, d.code ∉ delimiterCodes := by
  simp [ofDelimiters]

/-- The checks add nothing about delimiters to what the walk reports. -/
theorem ofDelimiters_checks (block : Block) {ds checks : List Diagnostic}
    (h : ∀ d ∈ checks, ∃ c : Check, Check.MadeBy c block d) :
    (ofDelimiters (Diagnostic.sort (ds ++ checks))).Perm (ofDelimiters ds) := by
  have hnone : ofDelimiters checks = [] := ofDelimiters_eq_nil.mpr fun d hd hm => by
    obtain ⟨c, hc⟩ := h d hd
    exact c.name_not_structural (delimiterCodes_structural _ (hc.code_eq ▸ hm))
  have hperm : (ofDelimiters (Diagnostic.sort (ds ++ checks))).Perm (ofDelimiters (ds ++ checks)) :=
    (List.mergeSort_perm _ _).filter _
  rwa [ofDelimiters_append, hnone, List.append_nil] at hperm

theorem ofDocument_ofDelimiters [Similar.Matcher] (ws : Workspace) (doc : Document) (block : Block) :
    (ofDelimiters (ofDocument ws doc block).diagnostics).Perm (ofDelimiters (structureOf doc block).diagnostics) := by
  refine ofDelimiters_checks block fun d hd => ?_
  obtain ⟨c, _, hc⟩ := Check.localFindings_madeBy ws block _ d hd
  exact ⟨c, hc⟩

theorem strictly_ofDelimiters [Similar.Matcher] (ws : Workspace) (ix : Index) (origin : Origin)
    (doc : Document) (block : Block) :
    (ofDelimiters (strictly ws ix origin doc block).diagnostics).Perm
      (ofDelimiters (structureOf doc block).diagnostics) := by
  refine ofDelimiters_checks block fun d hd => ?_
  cases List.mem_append.mp hd with
  | inl hd =>
    obtain ⟨c, _, hc⟩ := Check.localFindings_madeBy ws block _ d hd
    exact ⟨c, hc⟩
  | inr hd =>
    obtain ⟨c, _, hc⟩ := Check.strictFindings_madeBy ix origin block d hd
    exact ⟨c, hc⟩

theorem quiet_iff_of_perm {ds : List Diagnostic} {w : Walk}
    (h : (ofDelimiters ds).Perm (ofDelimiters w.diagnostics)) : (∀ d ∈ ds, d.code ∉ delimiterCodes) ↔ w.Quiet := by
  rw [Walk.Quiet, ← ofDelimiters_eq_nil, ← ofDelimiters_eq_nil]
  exact ⟨fun hd => List.nil_perm.mp (hd ▸ h), fun hw => List.perm_nil.mp (hw ▸ h)⟩

theorem ofDocument_quiet_iff [Similar.Matcher] (ws : Workspace) (doc : Document) (block : Block) :
    (∀ d ∈ (ofDocument ws doc block).diagnostics, d.code ∉ delimiterCodes) ↔
      (walk doc block (bodyTokens doc block)).Quiet :=
  quiet_iff_of_perm (ofDocument_ofDelimiters ws doc block)

theorem strictly_quiet_iff [Similar.Matcher] (ws : Workspace) (ix : Index) (origin : Origin) (doc : Document)
    (block : Block) :
    (∀ d ∈ (strictly ws ix origin doc block).diagnostics, d.code ∉ delimiterCodes) ↔
      (walk doc block (bodyTokens doc block)).Quiet :=
  quiet_iff_of_perm (strictly_ofDelimiters ws ix origin doc block)

/-- No delimiter lies in a comment, a string or a character literal. -/
def Outside (tokens : List Token) : Prop :=
  ∀ d ∈ tokens, (d.kind.isOpen || d.kind.isClose) = true →
    ∀ t ∈ tokens, t.kind = .comment ∨ t.kind = .string ∨ t.kind = .char → d.span.Apart t.span

theorem bodyTokens_outside (doc : Document) (block : Block) : Outside (bodyTokens doc block) := by
  intro d hd hk t ht hq
  apply Lexer.tokens_apart _ _ _ hd ht
  rintro rfl
  rcases hq with hq | hq | hq <;> simp [hq, TokenKind.isOpen, TokenKind.isClose] at hk

/-- A block without lexical errors is read without a finding about delimiters exactly if its
delimiters are well nested, where those in comments and literals do not count. Strict reading also
needs the index. -/
theorem run_delimiters_iff [Similar.Matcher] {ws : Workspace} {source : Supply} {block : Block}
    {file : HostFile} (origin : Origin) (strict : Bool) (hf : source block.uri = .ok file)
    (hi : strict = true → ∃ ix, ReadM.run source ws.index = .ok ix)
    (he : ∀ t ∈ bodyTokens file.doc block, t.kind ≠ .error) :
    ∃ result, ReadM.run source (run ws origin block strict) = .ok result ∧
      ((∀ d ∈ result.diagnostics, d.code ∉ delimiterCodes) ↔
        Nested (delimiters (bodyTokens file.doc block))) ∧
      Outside (bodyTokens file.doc block) := by
  cases strict with
  | false =>
    refine ⟨_, run_local ws hf origin, ?_, bodyTokens_outside file.doc block⟩
    rw [ofDocument_quiet_iff, walk_quiet_iff he]
  | true =>
    obtain ⟨ix, hi⟩ := hi rfl
    refine ⟨_, run_strict hi hf origin, ?_, bodyTokens_outside file.doc block⟩
    rw [strictly_quiet_iff, walk_quiet_iff he]

def quotedDelimiters : Document :=
  .ofText "a" (utf8 "SCRIPT:1,A\nf([\"(\"], ')') // ]\nENDSCRIPT\n")

def quotedBlock : Block := .close quotedDelimiters ⟨0, .script, utf8 "1,A"⟩ 30 39 true

theorem run_delimiters_iff_quoted :
    Block.scan quotedDelimiters = [quotedBlock] ∧
      (∀ t ∈ bodyTokens quotedDelimiters quotedBlock, t.kind ≠ .error) ∧
      delimiters (bodyTokens quotedDelimiters quotedBlock)
        = [.parenOpen, .bracketOpen, .bracketClose, .parenClose] ∧
      ∃ result, ReadM.run (fun _ => .ok (.ofDocument quotedDelimiters))
          (run ⟨["a"], none⟩ .workspace quotedBlock true) = .ok result ∧
        ((∀ d ∈ result.diagnostics, d.code ∉ delimiterCodes) ↔
          Nested (delimiters (bodyTokens quotedDelimiters quotedBlock))) ∧
        Outside (bodyTokens quotedDelimiters quotedBlock) := by
  let source : Supply := fun _ => .ok (.ofDocument quotedDelimiters)
  have hf : source quotedBlock.uri = .ok (.ofDocument quotedDelimiters) := rfl
  have he : ∀ t ∈ bodyTokens quotedDelimiters quotedBlock, t.kind ≠ .error := by decide +kernel
  refine ⟨by decide +kernel, he, by decide +kernel, ?_⟩
  exact run_delimiters_iff .workspace true hf (fun _ => ⟨_, rfl⟩) he

end Parse

end HostScript
