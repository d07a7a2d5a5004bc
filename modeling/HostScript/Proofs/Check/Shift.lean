import HostScript.Proofs.Check.Run
import HostScript.Proofs.Parse.Shift
import HostScript.Similar

set_option autoImplicit false

namespace HostScript

theorem Diagnostic.sort_moved (ds : List Diagnostic) (s : Shift) :
    sort (ds.map (·.moved s)) = (sort ds).map (·.moved s) := by
  refine (List.map_mergeSort fun a _ b _ => ?_).symm
  exact congrArg (!·) (b.range.start.less_moved a.range.start s).symm

namespace Check

theorem finding_moved (c : Check) (block : Block) (range : Range) (message : Bytes) (notes : List String)
    (s : Shift) : finding c (block.moved s) (range.moved s) message notes
      = (finding c block range message notes).moved s := rfl

variable (ws : Workspace) (block : Block) (s : Shift)

theorem onMissingEndScript_moved :
    onMissingEndScript (block.moved s) = (onMissingEndScript block).map (·.moved s) := by
  have hterminated : (block.moved s).terminated = block.terminated := rfl
  simp only [onMissingEndScript, hterminated]
  split <;> rfl

theorem onScriptHeader_moved : onScriptHeader (block.moved s) = (onScriptHeader block).map (·.moved s) := by
  have htext : (block.moved s).numberText = block.numberText := rfl
  have hnumber : (block.moved s).number = block.number := rfl
  simp only [onScriptHeader, htext, hnumber]
  split
  · rfl
  · split <;> rfl

theorem onScriptName_moved : onScriptName (block.moved s) = (onScriptName block).map (·.moved s) := by
  have hname : (block.moved s).name = block.name := rfl
  simp only [onScriptName, hname]
  split <;> rfl

theorem unknownFunctionAt_moved [Similar.Matcher] (call : Call) :
    unknownFunctionAt ws (block.moved s) (call.moved s)
      = (unknownFunctionAt ws block call).map (·.moved s) := by
  have hspace : (call.moved s).space = call.space := rfl
  have hname : (call.moved s).name = call.name := rfl
  simp only [unknownFunctionAt, hspace, hname]
  cases ws.space? call.space.toText with
  | none => rfl
  | some space =>
    simp only [Option.bind_eq_bind, Option.bind_some]
    split <;> rfl

theorem argCountAt_moved (call : Call) : argCountAt ws (block.moved s) (call.moved s)
    = (argCountAt ws block call).map (·.moved s) := by
  have hspace : (call.moved s).space = call.space := rfl
  have hname : (call.moved s).name = call.name := rfl
  have hclosed : (call.moved s).isClosed = call.isClosed := Option.isSome_map
  have hargs : (call.moved s).args = call.args := rfl
  simp only [argCountAt, hspace, hname, hclosed, hargs]
  cases ws.function? call.space.toText call.name.toText with
  | none => rfl
  | some f =>
    simp only [Option.bind_eq_bind, Option.bind_some]
    split <;> rfl

theorem includeArgAt_moved (statement : Include) : includeArgAt (block.moved s) (statement.moved s)
    = (includeArgAt block statement).map (·.moved s) := by
  have htarget : (statement.moved s).target = statement.target := rfl
  simp only [includeArgAt, htarget]
  split <;> rfl

theorem onHookMarkers_moved (seen : List Bytes) (hooks : List Hook) :
    onHookMarkers (block.moved s) seen (hooks.map (·.moved s))
      = (onHookMarkers block seen hooks).map (·.moved s) := by
  induction hooks generalizing seen with
  | nil => rfl
  | cons hook rest ih =>
    have hone (complaint : Option String) : (complaint.map fun text =>
        finding .hookMarker (block.moved s) (hook.moved s).range (utf8 text)).toList
          = (complaint.map fun text => finding .hookMarker block hook.range (utf8 text)).toList.map
            (·.moved s) := by
      cases complaint <;> rfl
    rw [List.map_cons, onHookMarkers, onHookMarkers, List.map_append]
    exact congrArg₂ (· ++ ·) (hone _) (ih _)

theorem localFindings_moved [Similar.Matcher] (calls : List Call) :
    localFindings ws (block.moved s) (calls.map (·.moved s))
      = (localFindings ws block calls).map (·.moved s) := by
  have hincludes : (block.moved s).includes = block.includes.map (·.moved s) := rfl
  have hhooks : (block.moved s).hooks = block.hooks.map (·.moved s) := rfl
  simp only [localFindings, hincludes, hhooks, List.map_append, List.filterMap_map, List.map_filterMap,
    Function.comp_def, onMissingEndScript_moved, onScriptHeader_moved, onScriptName_moved,
    unknownFunctionAt_moved, argCountAt_moved, includeArgAt_moved, onHookMarkers_moved]

end Check

namespace Parse

theorem ofDocument_moved [Similar.Matcher] (ws : Workspace) {d e : Document} {s : Shift} {block : Block}
    (h : d.Follows e s)
    (hb : block ∈ Block.scan e) : ofDocument ws d (block.moved s) = (ofDocument ws e block).moved s := by
  simp only [ofDocument, structureOf_moved h hb]
  have hcalls (r : ParseResult) : (r.moved s).calls = r.calls.map (·.moved s) := rfl
  have hdiagnostics (r : ParseResult) : (r.moved s).diagnostics = r.diagnostics.map (·.moved s) := rfl
  rw [hcalls, hdiagnostics, Check.localFindings_moved, ← List.map_append, Diagnostic.sort_moved]
  rfl

/-- A text behind another one in which no block is left open keeps its blocks, and a reading of a block
that is not strict moves with the block. -/
theorem run_append [Similar.Matcher] {uri : String} {front : Bytes} (hf : front.EndsLine)
    (ht : ∀ b ∈ Block.scan (.ofText uri front), b.terminated = true) (text : Bytes) :
    Block.scan (.ofText uri (front ++ text)) = Block.scan (.ofText uri front)
        ++ (Block.scan (.ofText uri text)).map (·.moved (.past front)) ∧
      ∀ b ∈ Block.scan (.ofText uri text),
        ∀ (ws ws' : Workspace) (source source' : Supply) (origin : Origin),
        ws'.catalog = ws.catalog → source uri = .ok (.ofDocument (.ofText uri text)) →
        source' uri = .ok (.ofDocument (.ofText uri (front ++ text))) →
        ∃ result, ReadM.run source (run ws origin b false) = .ok result ∧
          ReadM.run source' (run ws' origin (b.moved (.past front)) false)
            = .ok (result.moved (.past front)) := by
  refine ⟨Block.scan_append hf ht, fun b hb ws ws' source source' origin hc hs hs' => ?_⟩
  obtain rfl : b.uri = uri := Block.scan_uri hb
  have hmoved : (Document.ofText b.uri (front ++ text)).Follows (.ofText b.uri text) (.past front) :=
    ⟨rfl, front, rfl, hf, rfl⟩
  refine ⟨_, run_local ws hs origin, ?_⟩
  have hcopy : source' (b.moved (.past front)).uri = _ := hs'
  rw [run_local ws' hcopy origin, ofDocument_catalog hc]
  exact congrArg Except.ok (ofDocument_moved ws hmoved hb)

theorem run_append_open_call :
    let uri := "file:///a.cpp"
    let front := utf8 "SCRIPT:1,A\nENDSCRIPT\n"
    let text := utf8 "SCRIPT:2,B\nincludescript 1;\nx.y(1, 2\nENDSCRIPT\n"
    let ws : Workspace := ⟨[uri], none⟩
    let source : Supply := fun _ => .ok (.ofDocument (.ofText uri text))
    let source' : Supply := fun _ => .ok (.ofDocument (.ofText uri (front ++ text)))
    front.EndsLine ∧ (∀ b ∈ Block.scan (.ofText uri front), b.terminated = true) ∧
      Block.scan (.ofText uri (front ++ text)) = Block.scan (.ofText uri front)
        ++ (Block.scan (.ofText uri text)).map (·.moved (.past front)) ∧
      ∃ b ∈ Block.scan (.ofText uri text), ∃ result,
        ReadM.run source (run ws .workspace b false) = .ok result ∧
        ReadM.run source' (run ws .workspace (b.moved (.past front)) false)
          = .ok (result.moved (.past front)) := by
  intro uri front text ws source source'
  have hf : front.EndsLine := Or.inr ⟨utf8 "SCRIPT:1,A\nENDSCRIPT", by decide⟩
  have ht : ∀ b ∈ Block.scan (.ofText uri front), b.terminated = true := by decide +kernel
  have hsome : 0 < (Block.scan (.ofText uri text)).length := by decide +kernel
  obtain ⟨b, hb⟩ := List.exists_mem_of_length_pos hsome
  obtain ⟨hblocks, hread⟩ := run_append hf ht text
  exact ⟨hf, ht, hblocks, b, hb, hread b hb ws ws source source' .workspace rfl rfl rfl⟩

end Parse

end HostScript
