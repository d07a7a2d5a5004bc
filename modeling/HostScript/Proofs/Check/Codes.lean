import HostScript.Proofs.Check.Sites
import HostScript.Proofs.Check.Strictness

set_option autoImplicit false

namespace HostScript

namespace Check

variable [Similar.Matcher] {ws : Workspace} {ix : Index} {origin : Origin} {block : Block} {calls : List Call}

theorem findings_filter (c own : Check) :
    (findings ws ix origin block calls own).filter (·.code == c.name)
      = if own = c then findings ws ix origin block calls own else [] := by
  split
  · rename_i h
    subst h
    exact List.filter_eq_self.mpr fun d hd => by simp [(findings_madeBy hd).code_eq]
  · rename_i h
    refine List.filter_eq_nil_iff.mpr fun d hd he => h ?_
    rw [beq_iff_eq, (findings_madeBy hd).code_eq] at he
    exact name_injective he

theorem all_filter (c : Check) :
    (all.flatMap (findings ws ix origin block calls)).filter (·.code == c.name)
      = findings ws ix origin block calls c := by
  rw [List.filter_flatMap]
  simp only [findings_filter]
  cases c <;> simp [all]

end Check

namespace Parse

theorem calls_starts_nodup {doc : Document} {block : Block} (hb : block ∈ Block.scan doc) :
    ((structureOf doc block).calls.map (·.nameRange.start)).Nodup :=
  ((walk_calls doc block (bodyTokens doc block)).trans ((codeTokens_sublist doc block).map (place doc))).nodup
    (places_nodup hb)

variable [Similar.Matcher] (ws : Workspace) (doc : Document) (block : Block)

theorem strictly_filter (ix : Index) (origin : Origin) (c : Check) :
    (strictly ws ix origin doc block).diagnostics.filter (·.code == c.name)
      = Diagnostic.sort (Check.findings ws ix origin block (structureOf doc block).calls c) := by
  have hwalk : (structureOf doc block).diagnostics.filter (·.code == c.name) = [] := by
    refine List.filter_eq_nil_iff.mpr fun d hd he => c.name_not_structural ?_
    rw [← eq_of_beq he]
    exact (walk_structural doc block _ d hd).code_mem
  rw [strictly, Diagnostic.sort_filter, List.filter_append, hwalk, Check.all_findings, Check.all_filter,
    List.nil_append]

/-- A reading that is not strict has the same findings of every check that is not strict. -/
theorem ofDocument_filter (ix : Index) (origin : Origin) {c : Check} (h : c.isStrict = false) :
    (ofDocument ws doc block).diagnostics.filter (·.code == c.name)
      = Diagnostic.sort (Check.findings ws ix origin block (structureOf doc block).calls c) := by
  have hcode : c.name ∉ Check.strictCodes := by simp [c.name_mem_strictCodes, h]
  rw [ofDocument_eq_strictly ws ix origin, ← strictly_filter, List.filter_filter]
  refine List.filter_congr fun d _ => ?_
  cases hd : d.code == c.name with
  | false => rfl
  | true => simp [eq_of_beq hd, hcode]

theorem unknownFunction_findings :
    (ofDocument ws doc block).diagnostics.filter (·.code == Check.unknownFunction.name)
      = Diagnostic.sort ((structureOf doc block).calls.filterMap (Check.unknownFunctionAt ws block)) :=
  ofDocument_filter ws doc block ⟨[]⟩ .workspace rfl

theorem mem_unknownFunction_iff (ws : Workspace) {doc : Document} {block : Block} (d : Diagnostic) :
    d ∈ (ofDocument ws doc block).diagnostics ∧ d.code = Check.unknownFunction.name ↔
      ∃ c ∈ (structureOf doc block).calls, Check.unknownFunctionAt ws block c = some d := by
  have hmem := congrArg (d ∈ ·) (unknownFunction_findings ws doc block)
  simpa [Diagnostic.sort, List.mem_filter] using hmem

theorem unknownFunctionAt_of_range {ws : Workspace} {doc : Document} {block : Block} {call : Call}
    {d : Diagnostic} (hb : block ∈ Block.scan doc) (hc : call ∈ (structureOf doc block).calls)
    (hd : d ∈ (ofDocument ws doc block).diagnostics) (hcode : d.code = Check.unknownFunction.name)
    (hrange : d.range = call.nameRange) : Check.unknownFunctionAt ws block call = some d := by
  obtain ⟨c, hm, hd⟩ := (mem_unknownFunction_iff ws d).mp ⟨hd, hcode⟩
  have hsame : c.nameRange = call.nameRange := (Check.unknownFunctionAt_range hd).symm.trans hrange
  obtain rfl := List.inj_on_of_nodup_map (calls_starts_nodup hb) hm hc (congrArg Range.start hsame)
  exact hd

theorem reports_unknownFunction_iff (ws : Workspace) {doc : Document} {block : Block} {call : Call}
    (hb : block ∈ Block.scan doc) (hc : call ∈ (structureOf doc block).calls) :
    (∃ d ∈ (ofDocument ws doc block).diagnostics,
        d.code = Check.unknownFunction.name ∧ d.range = call.nameRange) ↔
      (Check.unknownFunctionAt ws block call).isSome = true := by
  constructor
  · rintro ⟨d, hd, hcode, hrange⟩
    simp [unknownFunctionAt_of_range hb hc hd hcode hrange]
  · intro h
    obtain ⟨d, hd⟩ := Option.isSome_iff_exists.mp h
    obtain ⟨hm, hcode⟩ := (mem_unknownFunction_iff ws d).mpr ⟨call, hc, hd⟩
    exact ⟨d, hm, hcode, Check.unknownFunctionAt_range hd⟩

end Parse

end HostScript
