import HostScript.Check

/-!
Where findings come from. The walk over the tokens of a block reports under six codes of its own,
and every other finding of a block is made by one of the checks, under the name of that check.
-/

set_option autoImplicit false

namespace HostScript

namespace Parse

def structuralCodes : List String :=
  [unterminatedStringCode, unterminatedCommentCode, unclosedCode, mismatchedCode, unexpectedCode,
    invalidCharacterCode]

/-- A finding of the walk over the tokens of a block. -/
def Structural (doc : Document) (d : Diagnostic) : Prop :=
  ∃ start stop severity message, ∃ code ∈ structuralCodes,
    d = finding doc start stop severity code message

theorem Structural.code_mem {doc : Document} {d : Diagnostic} (h : Structural doc d) :
    d.code ∈ structuralCodes := by
  obtain ⟨start, stop, severity, message, code, hc, rfl⟩ := h
  exact hc

theorem unclosed_structural (doc : Document) (stop : Int) (o : Opener) :
    Structural doc (unclosed doc stop o) :=
  ⟨_, _, _, _, unclosedCode, by simp [structuralCodes], rfl⟩

namespace Walk

@[simp] theorem report_diagnostics (w : Walk) (ds : List Diagnostic) :
    (w.report ds).diagnostics = w.diagnostics ++ ds := rfl

@[simp] theorem report_stack (w : Walk) (ds : List Diagnostic) : (w.report ds).stack = w.stack :=
  rfl

@[simp] theorem markContent_diagnostics (w : Walk) : w.markContent.diagnostics = w.diagnostics := by
  unfold markContent
  split <;> rfl

@[simp] theorem openGroup_diagnostics (doc : Document) (w : Walk) (token : Token) :
    (openGroup doc w token).diagnostics = w.diagnostics := rfl

@[simp] theorem pop_diagnostics (w : Walk) (token : Token) :
    (pop w token).diagnostics = w.diagnostics := by
  unfold pop
  split <;> rfl

@[simp] theorem comma_diagnostics (w : Walk) (token : Token) :
    (comma w token).diagnostics = w.diagnostics := by
  unfold comma
  split
  · split <;> rfl
  · rfl

/-- Everything that a token adds to the findings is structural. -/
def Reports (doc : Document) (before after : Walk) : Prop :=
  ∃ ds, after.diagnostics = before.diagnostics ++ ds ∧ ∀ d ∈ ds, Structural doc d

theorem reports_of_eq {doc : Document} {before after : Walk}
    (h : after.diagnostics = before.diagnostics) : Reports doc before after :=
  ⟨[], by simp [h], by simp⟩

theorem reports_finding {doc : Document} {before after : Walk} {start stop : Int}
    {severity : Severity} {code : String} {message : Bytes} (hc : code ∈ structuralCodes)
    (h : after.diagnostics = before.diagnostics ++ [finding doc start stop severity code message]) :
    Reports doc before after := by
  refine ⟨_, h, fun d hd => ?_⟩
  rw [List.mem_singleton.mp hd]
  exact ⟨start, stop, severity, message, code, hc, rfl⟩

theorem lexicalError_reports (doc : Document) (w : Walk) (token : Token) :
    Reports doc w (lexicalError doc w token) := by
  unfold lexicalError
  simp only
  split
  · exact reports_finding (by simp [structuralCodes]) rfl
  · exact reports_finding (by simp [structuralCodes]) rfl

theorem closeGroup_reports (doc : Document) (w : Walk) (token : Token) :
    Reports doc w (closeGroup doc w token) := by
  unfold closeGroup
  simp only
  split
  · exact reports_finding (by simp [structuralCodes]) rfl
  · split
    · refine ⟨_, pop_diagnostics _ _, fun d hd => ?_⟩
      obtain ⟨o, _, rfl⟩ := List.mem_map.mp hd
      exact unclosed_structural doc _ o
    · exact reports_finding (by simp [structuralCodes]) rfl

theorem dispatch_reports (doc : Document) (w : Walk) (token : Token) :
    Reports doc w (dispatch doc w token) := by
  unfold dispatch
  split
  · exact lexicalError_reports doc w token
  · split
    · exact reports_finding (by simp [structuralCodes]) rfl
    · split
      · exact reports_of_eq (openGroup_diagnostics doc w token)
      · split
        · exact closeGroup_reports doc w token
        · split
          · exact reports_of_eq (comma_diagnostics w token)
          · exact reports_of_eq rfl

theorem step_reports (doc : Document) (w : Walk) (token : Token) :
    Reports doc w (step doc w token) := by
  unfold step
  by_cases hc : token.kind.isClose = true
  · simpa [hc, Reports] using dispatch_reports doc w token
  · simpa [hc, Reports] using dispatch_reports doc w.markContent token

theorem foldl_reports (doc : Document) (tokens : List Token) (w : Walk) :
    Reports doc w (tokens.foldl (step doc) w) := by
  induction tokens generalizing w with
  | nil => exact reports_of_eq rfl
  | cons token tokens ih =>
    obtain ⟨ds, hd, hs⟩ := step_reports doc w token
    obtain ⟨es, he, ht⟩ := ih (step doc w token)
    refine ⟨ds ++ es, by simp [he, hd], fun d hm => ?_⟩
    cases List.mem_append.mp hm with
    | inl hm => exact hs d hm
    | inr hm => exact ht d hm

end Walk

theorem walk_structural (doc : Document) (block : Block) (tokens : List Token) :
    ∀ d ∈ (walk doc block tokens).diagnostics, Structural doc d := by
  obtain ⟨ds, hd, hs⟩ := Walk.foldl_reports doc (codeTokens tokens) {}
  intro d hm
  simp only [walk, Walk.finish, Walk.report_diagnostics, hd, List.nil_append, List.mem_append,
    List.mem_map] at hm
  rcases hm with hm | ⟨o, _, rfl⟩
  · exact hs d hm
  · exact unclosed_structural doc _ o

end Parse

namespace Check

/-- A finding of a check about a block. -/
def MadeBy (c : Check) (block : Block) (d : Diagnostic) : Prop :=
  ∃ range message notes, d = finding c block range message notes

theorem MadeBy.code_eq {c : Check} {block : Block} {d : Diagnostic} (h : MadeBy c block d) :
    d.code = c.name := by
  obtain ⟨range, message, notes, rfl⟩ := h
  rfl

theorem unknownFunctionAt_madeBy [Similar.Matcher] {ws : Workspace} {block : Block} {call : Call}
    {d : Diagnostic} (h : unknownFunctionAt ws block call = some d) : MadeBy .unknownFunction block d := by
  simp only [unknownFunctionAt, Option.bind_eq_bind, Option.bind_eq_some_iff] at h
  obtain ⟨space, _, h⟩ := h
  split at h
  · exact ⟨_, _, _, (Option.some.inj h).symm⟩
  · exact absurd h (by simp)

theorem argCountAt_madeBy {ws : Workspace} {block : Block} {call : Call} {d : Diagnostic}
    (h : argCountAt ws block call = some d) : MadeBy .argCount block d := by
  simp only [argCountAt, Option.bind_eq_bind, Option.bind_eq_some_iff] at h
  obtain ⟨f, _, h⟩ := h
  split at h
  · exact ⟨_, _, _, (Option.some.inj h).symm⟩
  · exact absurd h (by simp)

theorem includeArgAt_madeBy {block : Block} {statement : Include} {d : Diagnostic}
    (h : includeArgAt block statement = some d) : MadeBy .includeArg block d := by
  unfold includeArgAt at h
  split at h
  · exact absurd h (by simp)
  · exact ⟨_, _, _, (Option.some.inj h).symm⟩

theorem onHookMarkers_madeBy (block : Block) (seen : List Bytes) (hooks : List Hook) :
    ∀ d ∈ onHookMarkers block seen hooks, MadeBy .hookMarker block d := by
  induction hooks generalizing seen with
  | nil => simp [onHookMarkers]
  | cons hook rest ih =>
    intro d hd
    cases List.mem_append.mp hd with
    | inl hd =>
      obtain ⟨text, _, rfl⟩ := Option.map_eq_some_iff.mp (Option.mem_toList.mp hd)
      exact ⟨_, _, _, rfl⟩
    | inr hd => exact ih _ d hd

theorem onMissingEndScript_madeBy (block : Block) :
    ∀ d ∈ onMissingEndScript block, MadeBy .missingEndScript block d := by
  intro d hd
  unfold onMissingEndScript at hd
  split at hd <;> simp only [List.not_mem_nil, List.mem_singleton] at hd
  exact ⟨_, _, _, hd⟩

theorem onScriptHeader_madeBy (block : Block) :
    ∀ d ∈ onScriptHeader block, MadeBy .scriptHeader block d := by
  intro d hd
  unfold onScriptHeader at hd
  split at hd
  · exact ⟨_, _, _, List.mem_singleton.mp hd⟩
  · split at hd <;> simp only [List.not_mem_nil, List.mem_singleton] at hd
    exact ⟨_, _, _, hd⟩

theorem onScriptName_madeBy (block : Block) :
    ∀ d ∈ onScriptName block, MadeBy .scriptName block d := by
  intro d hd
  unfold onScriptName at hd
  split at hd <;> simp only [List.not_mem_nil, List.mem_singleton] at hd
  exact ⟨_, _, _, hd⟩

theorem localFindings_madeBy [Similar.Matcher] (ws : Workspace) (block : Block) (calls : List Call) :
    ∀ d ∈ localFindings ws block calls, ∃ c : Check, c.isStrict = false ∧ MadeBy c block d := by
  intro d hd
  unfold localFindings at hd
  rw [List.mem_append, List.mem_append, List.mem_append, List.mem_append] at hd
  rcases hd with (((hd | hd) | hd) | hd) | hd
  · rcases List.mem_append.mp hd with hd | hd
    · rcases List.mem_append.mp hd with hd | hd
      · exact ⟨.missingEndScript, rfl, onMissingEndScript_madeBy block d hd⟩
      · exact ⟨.scriptHeader, rfl, onScriptHeader_madeBy block d hd⟩
    · exact ⟨.scriptName, rfl, onScriptName_madeBy block d hd⟩
  · obtain ⟨call, _, hc⟩ := List.mem_filterMap.mp hd
    exact ⟨.unknownFunction, rfl, unknownFunctionAt_madeBy hc⟩
  · obtain ⟨call, _, hc⟩ := List.mem_filterMap.mp hd
    exact ⟨.argCount, rfl, argCountAt_madeBy hc⟩
  · obtain ⟨statement, _, hs⟩ := List.mem_filterMap.mp hd
    exact ⟨.includeArg, rfl, includeArgAt_madeBy hs⟩
  · exact ⟨.hookMarker, rfl, onHookMarkers_madeBy block [] block.hooks d hd⟩

theorem onDanglingIncludes_madeBy (ix : Index) (block : Block) :
    ∀ d ∈ onDanglingIncludes ix block, MadeBy .danglingInclude block d := by
  intro d hd
  obtain ⟨step, hs, rfl⟩ := List.mem_map.mp hd
  obtain ⟨statement, _, hstep⟩ := List.mem_filterMap.mp (List.mem_filter.mp hs).1
  obtain ⟨target, _, rfl⟩ := Option.map_eq_some_iff.mp hstep
  exact ⟨_, _, _, rfl⟩

theorem onDuplicateScript_madeBy (ix : Index) (origin : Origin) (block : Block) :
    ∀ d ∈ onDuplicateScript ix origin block, MadeBy .duplicateScript block d := by
  intro d hd
  unfold onDuplicateScript at hd
  split at hd
  · simp only at hd
    split at hd <;> simp only [List.not_mem_nil, List.mem_singleton] at hd
    exact ⟨_, _, _, hd⟩
  · exact absurd hd (by simp)

theorem onUnknownHookTarget_madeBy (ix : Index) (block : Block) :
    ∀ d ∈ onUnknownHookTarget ix block, MadeBy .unknownHookTarget block d := by
  intro d hd
  unfold onUnknownHookTarget at hd
  split at hd
  · split at hd <;> simp only [List.not_mem_nil, List.mem_singleton] at hd
    exact ⟨_, _, _, hd⟩
  · exact absurd hd (by simp)

theorem onUnknownHook_madeBy (ix : Index) (block : Block) :
    ∀ d ∈ onUnknownHook ix block, MadeBy .unknownHook block d := by
  intro d hd
  unfold onUnknownHook at hd
  split at hd
  · split at hd
    · split at hd <;> simp only [List.not_mem_nil, List.mem_singleton] at hd
      exact ⟨_, _, _, hd⟩
    · exact absurd hd (by simp)
  · exact absurd hd (by simp)

theorem strictFindings_madeBy (ix : Index) (origin : Origin) (block : Block) :
    ∀ d ∈ strictFindings ix origin block, ∃ c : Check, c.isStrict = true ∧ MadeBy c block d := by
  intro d hd
  simp only [strictFindings, List.mem_append] at hd
  rcases hd with ((hd | hd) | hd) | hd
  · exact ⟨.danglingInclude, rfl, onDanglingIncludes_madeBy ix block d hd⟩
  · exact ⟨.duplicateScript, rfl, onDuplicateScript_madeBy ix origin block d hd⟩
  · exact ⟨.unknownHookTarget, rfl, onUnknownHookTarget_madeBy ix block d hd⟩
  · exact ⟨.unknownHook, rfl, onUnknownHook_madeBy ix block d hd⟩

theorem name_not_structural (c : Check) : c.name ∉ Parse.structuralCodes := by
  cases c <;> decide

theorem name_eq_danglingInclude {c : Check} (h : c.name = HostScript.danglingInclude) :
    c = .danglingInclude := by
  revert h
  cases c <;> decide

end Check

end HostScript
