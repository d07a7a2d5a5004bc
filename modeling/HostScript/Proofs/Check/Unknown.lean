import HostScript.Proofs.Catalog.Lookup
import HostScript.Proofs.Parse.Rename
import HostScript.Proofs.Quicksort
import HostScript.Proofs.Text.Encoding
import HostScript.Similar

set_option autoImplicit false

namespace HostScript

theorem Precedence.mem_of_find? {α : Type} {precedence : Precedence} {p : α → Bool} {xs : List α} {a : α}
    (h : precedence.find? p xs = some a) : a ∈ xs := by
  unfold find? at h
  split at h
  · exact List.mem_of_find?_eq_some h
  · exact List.mem_reverse.mp (List.mem_of_find?_eq_some h)

theorem countP_modify {α : Type} {p : α → Bool} {f : α → α} {l : List α} {i : Nat} {a : α}
    (hi : l[i]? = some a) (ha : p a = true) (hf : p (f a) = false) :
    (l.modify i f).countP p + 1 = l.countP p := by
  induction l generalizing i with
  | nil => simp at hi
  | cons b l ih =>
    cases i with
    | zero =>
      obtain rfl : b = a := by simpa using hi
      simp [ha, hf]
    | succ i =>
      have hrest := ih (by simpa using hi)
      simp only [List.modify_succ_cons, List.countP_cons]
      omega

/-- What is found to be like a name is one of the names that were looked through. -/
def Similar.FindsCandidates [Similar.Matcher] : Prop :=
  ∀ typed names, ∀ found ∈ Matcher.find typed names, found.name ∈ names

theorem Similar.FindsCandidates.mem_of_closest? [Similar.Matcher] (hs : FindsCandidates)
    {typed best : String} {names : List String} (h : closest? typed names = some best) : best ∈ names := by
  obtain ⟨found, hm, rfl⟩ := List.mem_map.mp (List.mem_of_head? h)
  exact hs typed names found (mem_quicksort.mp hm)

/-- The names that the bundled functions find are among those they are given. -/
theorem Similar.findsCandidates : FindsCandidates := by
  intro typed names found hm
  obtain ⟨name, hname, rfl⟩ := List.mem_map.mp hm
  exact (List.mem_filter.mp hname).1

-- Twelve of these names are equally near. Beyond twelve items sorting does not keep the order of such names.
example : Similar.closest? "Get" ["AAGet", "GetA", "GetB", "GetC", "GetD", "GetE", "GetF", "GetG", "GetH", "GetI",
    "GetJ", "GetK", "GetL"] = some "GetF" := by decide +kernel

namespace Check

/-- A namespace is closed and does not list the function. -/
def lacks (ws : Workspace) (o : Parse.Outline) : Bool :=
  (ws.space? o.space.toText).any (·.closed) && (ws.function? o.space.toText o.name.toText).isNone

theorem function?_eq {ws : Workspace} {space : Namespace} {name : String} (h : ws.space? name = some space)
    (function : String) : ws.function? name function
      = space.function? ((ws.catalog.map (·.precedence)).getD .last) function := by
  obtain ⟨catalog, hc, hs⟩ := Option.bind_eq_some_iff.mp h
  simp [Workspace.function?, Catalog.function?, hc, hs]

variable [Similar.Matcher]

theorem unknownFunctionAt_isSome_eq (ws : Workspace) (block : Block) (call : Call) :
    (unknownFunctionAt ws block call).isSome = lacks ws (Parse.outline call) := by
  unfold unknownFunctionAt lacks
  cases hs : ws.space? call.space.toText with
  | none => simp [Parse.outline, hs]
  | some space =>
    simp only [Parse.outline, hs, function?_eq hs, Option.bind_eq_bind, Option.bind_some, Option.any_some]
    cases space.closed && (space.function? _ call.name.toText).isNone <;> rfl

theorem unknownFunctionAt_hint (hs : Similar.FindsCandidates) {ws : Workspace} {block : Block} {call : Call}
    {d : Diagnostic} (h : unknownFunctionAt ws block call = some d) (hn : d.notes ≠ []) :
    ∃ best, d.message = utf8 ("unknown function " ++ calledName call) ∧
      d.notes = ["did you mean " ++ call.space.toText ++ "." ++ best ++ "?"] ∧
      (ws.function? call.space.toText best).isSome = true ∧
      ∃ catalog ∈ ws.catalog, ∃ s ∈ catalog.spaces, ∃ f ∈ s.functions, f.name = best := by
  simp only [unknownFunctionAt, Option.bind_eq_bind, Option.bind_eq_some_iff] at h
  obtain ⟨space, hspace, h⟩ := h
  split at h
  · obtain rfl := Option.some.inj h
    cases hb : (Similar.closest? call.name.toText space.names).filter (!·.isEmpty) with
    | none =>
      simp only [finding, hb] at hn
      exact absurd rfl hn
    | some best =>
      have hname := hs.mem_of_closest? (Option.filter_eq_some_iff.mp hb).1
      rw [Namespace.names, sortStrings, List.mem_mergeSort] at hname
      obtain ⟨f, hf, hbest⟩ := List.mem_map.mp hname
      obtain ⟨catalog, hcatalog, hfound⟩ := Option.bind_eq_some_iff.mp hspace
      refine ⟨best, rfl, by simp [finding], ?_, catalog, hcatalog, space, Precedence.mem_of_find? hfound, f, hf,
        hbest⟩
      rw [function?_eq hspace]
      exact Namespace.function?_isSome.mpr ⟨f, hf, hbest⟩
  · cases h

end Check

namespace Parse

variable [Similar.Matcher]

/-- One finding for each call of an unknown function. -/
theorem unknownFunction_count (ws : Workspace) (doc : Document) (block : Block) :
    ((ofDocument ws doc block).diagnostics.filter (·.code == Check.unknownFunction.name)).length
      = ((structureOf doc block).calls.map outline).countP (Check.lacks ws) := by
  rw [unknownFunction_findings, Diagnostic.sort, List.length_mergeSort, List.length_filterMap_eq_countP,
    List.countP_map]
  refine List.countP_congr fun call _ => ?_
  rw [Check.unknownFunctionAt_isSome_eq]
  rfl

/-- A reported call that gets the name of a function takes one finding away. -/
theorem unknownFunction_count_renamed {ws : Workspace} {d e : Document} {b t : Block} {i : Nat} {call : Call}
    {best : String} (hi : (structureOf d b).calls[i]? = some call)
    (hreported : (Check.unknownFunctionAt ws b call).isSome = true)
    (hbest : (ws.function? call.space.toText best).isSome = true)
    (hcalls : (structureOf e t).calls.map outline
      = ((structureOf d b).calls.map outline).modify i (·.withName (utf8 best))) :
    ((ofDocument ws e t).diagnostics.filter (·.code == Check.unknownFunction.name)).length + 1
      = ((ofDocument ws d b).diagnostics.filter (·.code == Check.unknownFunction.name)).length := by
  have hknown : Check.lacks ws ((outline call).withName (utf8 best)) = false := by
    obtain ⟨f, hf⟩ := Option.isSome_iff_exists.mp hbest
    simp [Check.lacks, outline, Outline.withName, Bytes.toText_utf8, hf]
  rw [unknownFunction_count, unknownFunction_count, hcalls]
  rw [Check.unknownFunctionAt_isSome_eq] at hreported
  exact countP_modify (by simp [hi]) hreported hknown

end Parse

end HostScript
