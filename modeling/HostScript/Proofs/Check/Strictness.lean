import HostScript.Proofs.Check.Findings
import HostScript.Proofs.Check.Run
import HostScript.Proofs.Parse.Locality
import HostScript.Proofs.Resolution.Reachable
import HostScript.Similar

/-!
What strictness adds to the reading of a block. The findings of a reading that is not strict are those
of the strict one, in the same order, without the findings of the strict checks; and nothing of the
workspace but its catalog and the document of the block has a part in them.
-/

set_option autoImplicit false

namespace HostScript

theorem eq_of_append_eq_append {α : Type} {q : α → Bool} {before before' after after' : List α}
    (h : before ++ after = before' ++ after') (hb : ∀ a ∈ before, q a = true)
    (hb' : ∀ a ∈ before', q a = true) (ha : ∀ a ∈ after, q a = false)
    (ha' : ∀ a ∈ after', q a = false) : before = before' ∧ after = after' := by
  have hleft := congrArg (List.filter q) h
  rw [List.filter_append, List.filter_append, List.filter_eq_self.mpr hb, List.filter_eq_self.mpr hb',
    List.filter_eq_nil_iff.mpr (by simpa using ha), List.filter_eq_nil_iff.mpr (by simpa using ha'),
    List.append_nil, List.append_nil] at hleft
  subst hleft
  exact ⟨rfl, List.append_cancel_left h⟩

section

variable {α : Type} {le : α → α → Bool} (trans : ∀ a b c, le a b → le b c → le a c)
  (total : ∀ a b, le a b || le b a)

include trans total

theorem mergeSort_cons_spec (a : α) (as : List α) : ∃ before after,
    (a :: as).mergeSort le = before ++ a :: after ∧ as.mergeSort le = before ++ after ∧
      (∀ b ∈ before, (!le a b) = true) ∧ ∀ b ∈ after, (!le a b) = false := by
  obtain ⟨before, after, hcons, hrest, hbefore⟩ := List.mergeSort_cons trans total a as
  refine ⟨before, after, hcons, hrest, hbefore, fun b hb => ?_⟩
  have hsorted := List.pairwise_mergeSort trans total (a :: as)
  rw [hcons, List.pairwise_append, List.pairwise_cons] at hsorted
  simpa using hsorted.2.1.1 b hb

/-- A stable sort keeps the order of those items that have a property. -/
theorem filter_mergeSort (p : α → Bool) (as : List α) :
    (as.mergeSort le).filter p = (as.filter p).mergeSort le := by
  induction as with
  | nil => simp
  | cons a as ih =>
    obtain ⟨before, after, hcons, hrest, hbefore, hafter⟩ := mergeSort_cons_spec trans total a as
    rw [hrest, List.filter_append] at ih
    rw [hcons, List.filter_append]
    cases hp : p a with
    | false => rw [List.filter_cons_of_neg (by simp [hp]), List.filter_cons_of_neg (by simp [hp]), ih]
    | true =>
      rw [List.filter_cons_of_pos hp, List.filter_cons_of_pos hp]
      -- The item stands at the same place among all and among those with the property.
      obtain ⟨pre, post, hcons', hrest', hpre, hpost⟩ :=
        mergeSort_cons_spec trans total a (as.filter p)
      obtain ⟨rfl, rfl⟩ := eq_of_append_eq_append (ih.trans hrest')
        (fun b hb => hbefore b (List.mem_filter.mp hb).1) hpre
        (fun b hb => hafter b (List.mem_filter.mp hb).1) hpost
      exact hcons'.symm

end

namespace Diagnostic

abbrev inOrder (a b : Diagnostic) : Bool := !b.range.start.less a.range.start

theorem inOrder_trans (a b c : Diagnostic) (hab : inOrder a b = true) (hbc : inOrder b c = true) :
    inOrder a c = true := by
  simp only [Bool.not_eq_true', ← Bool.not_eq_true, Position.less_iff] at *
  omega

theorem inOrder_total (a b : Diagnostic) : (inOrder a b || inOrder b a) = true := by
  simp only [Bool.or_eq_true, Bool.not_eq_true', ← Bool.not_eq_true, Position.less_iff]
  omega

theorem sort_filter (p : Diagnostic → Bool) (ds : List Diagnostic) :
    (sort ds).filter p = sort (ds.filter p) :=
  filter_mergeSort inOrder_trans inOrder_total p ds

theorem sort_pairwise (ds : List Diagnostic) :
    (sort ds).Pairwise fun a b => b.range.start.less a.range.start = false :=
  (List.pairwise_mergeSort inOrder_trans inOrder_total ds).imp fun h => by simpa using h

end Diagnostic

namespace Check

def strictCodes : List String :=
  [HostScript.danglingInclude, "duplicate-script", "unknown-hook-target", "unknown-hook"]

theorem name_mem_strictCodes (c : Check) : c.name ∈ strictCodes ↔ c.isStrict = true := by
  cases c <;> decide

end Check

namespace Parse

theorem structuralCodes_not_strict : ∀ code ∈ structuralCodes, code ∉ Check.strictCodes := by decide

/-- A reading that is not strict has what remains of a strict one without the strict checks. -/
theorem ofDocument_eq_strictly [Similar.Matcher] (ws : Workspace) (ix : Index) (origin : Origin)
    (doc : Document) (block : Block) :
    let full := strictly ws ix origin doc block
    ofDocument ws doc block =
      { full with diagnostics := full.diagnostics.filter fun d => d.code ∉ Check.strictCodes } := by
  have hwalk : ∀ d ∈ (structureOf doc block).diagnostics, d.code ∉ Check.strictCodes :=
    fun d hd => structuralCodes_not_strict _ (walk_structural doc block _ d hd).code_mem
  have hlocal : ∀ d ∈ Check.localFindings ws block (structureOf doc block).calls,
      d.code ∉ Check.strictCodes := by
    intro d hd
    obtain ⟨c, hc, hm⟩ := Check.localFindings_madeBy ws block _ d hd
    rw [hm.code_eq, c.name_mem_strictCodes, hc]
    decide
  have hstrict : ∀ d ∈ Check.strictFindings ix origin block, d.code ∈ Check.strictCodes := by
    intro d hd
    obtain ⟨c, hc, hm⟩ := Check.strictFindings_madeBy ix origin block d hd
    rw [hm.code_eq, c.name_mem_strictCodes, hc]
  simp only [ofDocument, strictly, Diagnostic.sort_filter, List.filter_append]
  rw [List.filter_eq_self.mpr (by simpa using hwalk), List.filter_eq_self.mpr (by simpa using hlocal),
    List.filter_eq_nil_iff.mpr (by simpa using hstrict), List.append_nil]

theorem exists_of_run_strict [Similar.Matcher] {ws : Workspace} {source : Supply} {origin : Origin}
    {block : Block} {full : ParseResult} (h : ReadM.run source (run ws origin block true) = .ok full) :
    ∃ file ix, source block.uri = .ok file ∧ full = strictly ws ix origin file.doc block := by
  cases hf : source block.uri with
  | error failure =>
    rw [run, ReadM.run_bind_error (by rw [ws.run_document, hf]; rfl)] at h
    cases h
  | ok file =>
    cases hi : ReadM.run source ws.index with
    | ok ix => exact ⟨file, ix, rfl, Except.ok.inj (h.symm.trans (run_strict hi hf origin))⟩
    | error failure =>
      rw [run, ReadM.run_bind_ok (ws.run_document_ok hf)] at h
      simp only [if_true] at h
      split at h
      · rw [ReadM.run_bind_error (by rw [ReadM.run_within, hi]; rfl)] at h
        cases h
      · exact ⟨file, ⟨[]⟩, rfl, (Except.ok.inj h).symm⟩

/-- Two workspaces have one catalog and one text for a URI, whatever else they hold. -/
structure Agree (uri : String) (ws ws' : Workspace) (source source' : Supply) : Prop where
  catalog : ws'.catalog = ws.catalog
  document : ∃ file file', source uri = .ok file ∧ source' uri = .ok file' ∧
    file.doc.uri = uri ∧ file'.doc.uri = uri ∧ file'.doc.text = file.doc.text

/-- A reading that is not strict gives the findings of the strict one without those of the strict
checks, and the same otherwise. It is the same in all workspaces with its catalog and document. -/
theorem run_loose [Similar.Matcher] (ws : Workspace) (source : Supply) (origin : Origin) (block : Block) :
    (∀ loose full, ReadM.run source (run ws origin block false) = .ok loose →
      ReadM.run source (run ws origin block true) = .ok full →
      loose = { full with diagnostics := full.diagnostics.filter fun d => d.code ∉ Check.strictCodes }) ∧
    ∀ ws' source', Agree block.uri ws ws' source source' → ∃ result,
      ReadM.run source (run ws origin block false) = .ok result ∧
      ReadM.run source' (run ws' origin block false) = .ok result := by
  refine ⟨fun loose full hloose hfull => ?_, fun ws' source' h => ?_⟩
  · obtain ⟨file, ix, hf, rfl⟩ := exists_of_run_strict hfull
    obtain rfl := Except.ok.inj (hloose.symm.trans (run_local ws hf origin))
    exact ofDocument_eq_strictly ws ix origin file.doc block
  · obtain ⟨file, file', hf, hf', hu, hu', ht⟩ := h.document
    have hdoc : file'.doc = file.doc := by
      rw [← file'.doc.ofText_text, hu', ht, ← hu, file.doc.ofText_text]
    refine ⟨_, run_local ws hf origin, ?_⟩
    rw [run_local ws' hf' origin, hdoc, ofDocument_catalog h.catalog]

open Resolution in
theorem run_loose_circular :
    let ws := circular.workspace none
    let source := Snapshot.source (circular.freeze circularDisk)
    let broken := Snapshot.source (circular.freeze fun path => .error (.missing "open" path))
    ∃ doc block loose full, block ∈ Block.scan doc ∧ Agree block.uri ws ws source broken ∧
      ReadM.run source (run ws .workspace block false) = .ok loose ∧
      ReadM.run source (run ws .workspace block true) = .ok full ∧
      loose = { full with diagnostics := full.diagnostics.filter fun d => d.code ∉ Check.strictCodes } ∧
      ReadM.run broken (run ws .workspace block false) = .ok loose := by
  intro ws source broken
  have hsome : 0 < (circular.buffers.flatMap Block.scan).length := by decide +kernel
  obtain ⟨block, hm⟩ := List.exists_mem_of_length_pos hsome
  obtain ⟨doc, hd, hb⟩ := List.mem_flatMap.mp hm
  have hnodup : (circular.buffers.map (·.uri)).Nodup := by decide
  have hsource : source block.uri = .ok (.ofDocument doc) :=
    Block.scan_uri hb ▸ Snapshot.source_buffer hnodup circularDisk hd
  have hbroken : broken block.uri = .ok (.ofDocument doc) :=
    Block.scan_uri hb ▸ Snapshot.source_buffer hnodup _ hd
  have hagree : Agree block.uri ws ws source broken :=
    ⟨rfl, _, _, hsource, hbroken, (Block.scan_uri hb).symm, (Block.scan_uri hb).symm, rfl⟩
  have hfull := run_strict circular_readable.run_index hsource .workspace
  obtain ⟨loose, hloose, hsame⟩ := (run_loose ws source .workspace block).2 ws broken hagree
  exact ⟨doc, block, loose, _, hb, hagree, hloose, hfull,
    (run_loose ws source .workspace block).1 loose _ hloose hfull, hsame⟩

end Parse

end HostScript
