import HostScript.Proofs.Check.Findings
import HostScript.Proofs.Check.Run
import HostScript.Proofs.Resolution.Reachable
import HostScript.Similar
import Mathlib.Data.List.Perm.Basic

/-!
Includes of scripts that are defined nowhere. Each block that is found is followed once, and no
number without a script counts as visited, so the resolution reports the same includes as the
checks of all its blocks.
-/

set_option autoImplicit false

namespace HostScript.Resolution

def danglingAt (ix : Index) (todo : List Step) : List Diagnostic :=
  (todo.filter fun step => (ix.lookup step.target).isNone).map fun step =>
    dangling step.block step.statement step.target

@[simp] theorem danglingAt_append (ix : Index) (todo rest : List Step) :
    danglingAt ix (todo ++ rest) = danglingAt ix todo ++ danglingAt ix rest := by
  simp [danglingAt]

theorem danglingAt_cons_of_some {ix : Index} {step : Step} (h : (ix.lookup step.target).isSome = true)
    (todo : List Step) : danglingAt ix (step :: todo) = danglingAt ix todo := by
  have hn : (ix.lookup step.target).isNone = false := by simpa using h
  simp [danglingAt, hn]

theorem danglingAt_cons_of_none {ix : Index} {step : Step} (h : ix.lookup step.target = none)
    (todo : List Step) : danglingAt ix (step :: todo) =
      dangling step.block step.statement step.target :: danglingAt ix todo := by
  simp [danglingAt, h]

/-- As long as all visited numbers have a script, following reports every include that leads
nowhere, of those to do and of those in scripts that are added. -/
theorem follow_diagnostics (ix : Index) (visited : List Nat) (todo : List Step)
    (hv : ∀ n ∈ visited, (ix.lookup n).isSome = true) :
    (follow ix visited todo).diagnostics.Perm
      (danglingAt ix (todo ++ (follow ix visited todo).blocks.flatMap steps)) := by
  fun_induction follow ix visited todo with
  | case1 visited => simp [danglingAt]
  | case2 visited step rest hm ih =>
    rw [List.cons_append, danglingAt_cons_of_some (hv _ (by simpa using hm))]
    exact ih hv
  | case3 visited step rest _ h after ih =>
    rw [List.cons_append, danglingAt_cons_of_none h]
    exact (ih hv).cons _
  | case4 visited step rest _ block h after ih =>
    have hs : (ix.lookup step.target).isSome = true := by simp [h]
    have hvisited : ∀ n ∈ step.target :: visited, (ix.lookup n).isSome = true := by
      intro n hn
      cases List.mem_cons.mp hn with
      | inl hn => rw [hn]; exact hs
      | inr hn => exact hv n hn
    rw [List.cons_append, danglingAt_cons_of_some hs]
    -- The includes of the new script move from those found later to those to do now.
    refine (ih hvisited).trans ?_
    simp only [danglingAt_append, List.flatMap_cons, List.append_assoc]
    exact List.perm_append_comm_assoc _ _ _

theorem lookup_isSome {ix : Index} {b : Block} {n : Nat} (hb : b ∈ ix.blocks)
    (hd : b.defines n = true) : (ix.lookup n).isSome = true := by
  have hm : b ∈ ix.definitions n := List.mem_filter.mpr ⟨hb, hd⟩
  rw [Index.lookup, List.isSome_head?]
  exact List.ne_nil_of_mem hm

/-- The resolution of blocks of the index reports what leads nowhere from the blocks it has. -/
theorem ofBlocks_diagnostics {ix : Index} {focal : List Block} (h : ∀ b ∈ focal, b ∈ ix.blocks) :
    (ofBlocks ix focal).diagnostics.Perm
      ((ofBlocks ix focal).blocks.flatMap (Check.onDanglingIncludes ix)) := by
  have hv : ∀ n ∈ definedNumbers focal, (ix.lookup n).isSome = true := by
    intro n hn
    obtain ⟨b, hb, hd⟩ := mem_definedNumbers.mp hn
    exact lookup_isSome (h b hb) hd
  have hf := follow_diagnostics ix (definedNumbers focal) (focal.flatMap steps) hv
  have hd (blocks : List Block) :
      danglingAt ix (blocks.flatMap steps) = blocks.flatMap (Check.onDanglingIncludes ix) := by
    induction blocks with
    | nil => rfl
    | cons b blocks ih =>
      simp only [List.flatMap_cons, danglingAt_append, ih]
      rfl
  rw [← List.flatMap_append, hd] at hf
  exact hf

theorem ofBlocks_mem_index {ix : Index} {focal : List Block} (h : ∀ b ∈ focal, b ∈ ix.blocks) :
    ∀ b ∈ (ofBlocks ix focal).blocks, b ∈ ix.blocks := by
  intro b hb
  cases (mem_ofBlocks_iff ix focal b).mp hb with
  | focal hb => exact h b hb
  | included _ _ _ _ hl => exact (lookup_mem hl).1

theorem code_ne_of_madeBy {c : Check} {block : Block} {d : Diagnostic} (h : Check.MadeBy c block d)
    (hc : c ≠ .danglingInclude) : d.code ≠ danglingInclude := by
  rw [h.code_eq]
  exact fun he => hc (Check.name_eq_danglingInclude he)

theorem structural_not_dangling (doc : Document) (block : Block) :
    ∀ d ∈ (Parse.structureOf doc block).diagnostics, d.code ≠ danglingInclude := by
  intro d hd he
  have hm := (Parse.walk_structural doc block _ d hd).code_mem
  rw [he] at hm
  exact Check.name_not_structural .danglingInclude hm

theorem local_not_dangling [Similar.Matcher] (ws : Workspace) (block : Block) (calls : List Call) :
    ∀ d ∈ Check.localFindings ws block calls, d.code ≠ danglingInclude := by
  intro d hd
  obtain ⟨c, hs, hc⟩ := Check.localFindings_madeBy ws block calls d hd
  exact code_ne_of_madeBy hc (by rintro rfl; exact absurd hs (by decide))

theorem strict_filter_dangling (ix : Index) (origin : Origin) (block : Block) :
    (Check.strictFindings ix origin block).filter (fun d => d.code = danglingInclude)
      = Check.onDanglingIncludes ix block := by
  have hself : (Check.onDanglingIncludes ix block).filter (fun d => d.code = danglingInclude)
      = Check.onDanglingIncludes ix block := by
    apply List.filter_eq_self.mpr
    intro d hd
    simp [(Check.onDanglingIncludes_madeBy ix block d hd).code_eq, Check.name]
  have hnil (ds : List Diagnostic) (c : Check) (hc : c ≠ .danglingInclude)
      (h : ∀ d ∈ ds, Check.MadeBy c block d) : ds.filter (fun d => d.code = danglingInclude) = [] := by
    apply List.filter_eq_nil_iff.mpr
    intro d hd
    simpa using code_ne_of_madeBy (h d hd) hc
  simp only [Check.strictFindings, List.filter_append, hself,
    hnil _ _ (by decide) (Check.onDuplicateScript_madeBy ix origin block),
    hnil _ _ (by decide) (Check.onUnknownHookTarget_madeBy ix block),
    hnil _ _ (by decide) (Check.onUnknownHook_madeBy ix block), List.append_nil]

theorem strictly_dangling [Similar.Matcher] (ws : Workspace) (ix : Index) (origin : Origin) (doc : Document)
    (block : Block) :
    ((Parse.strictly ws ix origin doc block).diagnostics.filter
      fun d => d.code = danglingInclude).Perm (Check.onDanglingIncludes ix block) := by
  refine ((List.mergeSort_perm _ _).filter _).trans (List.Perm.of_eq ?_)
  have hs : (Parse.structureOf doc block).diagnostics.filter (fun d => d.code = danglingInclude) = [] :=
    List.filter_eq_nil_iff.mpr fun d hd => by simpa using structural_not_dangling doc block d hd
  have hl : (Check.localFindings ws block (Parse.structureOf doc block).calls).filter
      (fun d => d.code = danglingInclude) = [] :=
    List.filter_eq_nil_iff.mpr fun d hd => by simpa using local_not_dangling ws block _ d hd
  rw [List.filter_append, List.filter_append, hs, hl, strict_filter_dangling]
  rfl

theorem errors_onDanglingIncludes (ix : Index) (blocks : List Block) :
    Diagnostic.errors (blocks.flatMap (Check.onDanglingIncludes ix))
      = blocks.flatMap (Check.onDanglingIncludes ix) := by
  apply List.filter_eq_self.mpr
  intro d hd
  obtain ⟨b, _, hd⟩ := List.mem_flatMap.mp hd
  obtain ⟨range, message, notes, rfl⟩ := Check.onDanglingIncludes_madeBy ix b d hd
  rfl

theorem source_of_mem_index {ws : Workspace} {source : Supply} (h : ws.ReadableFrom source)
    {b : Block} (hb : b ∈ (ws.indexFrom source).blocks) : ∃ file, source b.uri = .ok file := by
  obtain ⟨uri, hu, hb⟩ := List.mem_flatMap.mp hb
  obtain ⟨doc, hd, hs⟩ := h.found uri hu
  rw [Workspace.blocksFrom_ofDocument hs] at hb
  rw [Block.scan_uri hb, hd]
  exact ⟨_, hs⟩

theorem findingsFrom_dangling [Similar.Matcher] {ws : Workspace} {source : Supply} {b : Block}
    {file : HostFile} (hf : source b.uri = .ok file) :
    ((Parse.findingsFrom ws source b).filter fun d => d.code = danglingInclude).Perm
      (Check.onDanglingIncludes (ws.indexFrom source) b) := by
  simp only [Parse.findingsFrom, hf]
  exact strictly_dangling ws _ .workspace file.doc b

theorem errors_filter_comm (ds : List Diagnostic) (p : Diagnostic → Bool) :
    (Diagnostic.errors ds).filter p = Diagnostic.errors (ds.filter p) := by
  simp only [Diagnostic.errors, Diagnostic.atLeast, List.filter_filter, Bool.and_comm]

theorem errors_perm {ds es : List Diagnostic} (h : ds.Perm es) :
    (Diagnostic.errors ds).Perm (Diagnostic.errors es) := h.filter _

theorem errors_findingsFrom_dangling [Similar.Matcher] {ws : Workspace} {source : Supply}
    {blocks : List Block} (h : ∀ b ∈ blocks, ∃ file, source b.uri = .ok file) :
    ((Diagnostic.errors (blocks.flatMap (Parse.findingsFrom ws source))).filter
      fun d => d.code = danglingInclude).Perm
      (blocks.flatMap (Check.onDanglingIncludes (ws.indexFrom source))) := by
  rw [errors_filter_comm, List.filter_flatMap, ← errors_onDanglingIncludes]
  apply errors_perm
  apply List.Perm.flatMap_left
  intro b hb
  obtain ⟨file, hf⟩ := h b hb
  exact findingsFrom_dangling hf

section

variable [Similar.Matcher] {ws : Workspace} {source : Supply} {uri : String} {found : Resolution}

theorem run_check_error (stop : Option Stop) {failure : Failure}
    (h : ReadM.run source (ofDocument ws uri) = .error failure) :
    ((GraphCheck.run ws uri stop).run source).outcome = .error failure := by
  rw [GraphCheck.run_of_error h]

theorem run_check (stop : Option Stop) (h : ReadM.run source (ofDocument ws uri) = .ok found) :
    ((GraphCheck.run ws uri stop).run source).outcome =
      (((GraphCheck.visit ws stop found.blocks.length 0 found.blocks).run source).outcome).map
        Diagnostic.errors := by
  rw [GraphCheck.run_of_found h]

/-- A check that ends well ends as if it could not have been stopped. -/
theorem run_check_unstopped {stop : Option Stop} {errors : List Diagnostic}
    (hr : ReadM.run source (ofDocument ws uri) = .ok found)
    (h : ((GraphCheck.run ws uri stop).run source).outcome = .ok errors) :
    ((GraphCheck.run ws uri none).run source).outcome = .ok errors := by
  rw [run_check stop hr] at h
  rw [run_check none hr]
  cases hv : ((GraphCheck.visit ws stop found.blocks.length 0 found.blocks).run source).outcome with
  | error failure =>
    rw [hv] at h
    cases h
  | ok ds =>
    rw [hv] at h
    rw [GraphCheck.visit_unstopped hv]
    exact h

theorem run_check_stopped {stop : Stop} (hr : ReadM.run source (ofDocument ws uri) = .ok found)
    (h : stop.after ≤ found.blocks.length) :
    ∃ failure, ((GraphCheck.run ws uri (some stop)).run source).outcome = .error failure := by
  have hlength : stop.after ≤ 0 + found.blocks.length := by omega
  obtain ⟨failure, he⟩ := @GraphCheck.visit_stopped _ ws source _ _ found.blocks.length _ hlength
  exact ⟨failure, by rw [run_check _ hr, he]; rfl⟩

end

theorem run_check_outcome [Similar.Matcher] {ws : Workspace} {source : Supply} (h : ws.ReadableFrom source)
    {uri : String} {found : Resolution} (hr : ReadM.run source (ofDocument ws uri) = .ok found)
    (hs : ∀ b ∈ found.blocks, ∃ file, source b.uri = .ok file) :
    ((GraphCheck.run ws uri none).run source).outcome =
      .ok (Diagnostic.errors (found.blocks.flatMap (Parse.findingsFrom ws source))) := by
  rw [run_check none hr, GraphCheck.visit_outcome h.run_index hs]
  rfl

theorem run_ofDocument_error {ws : Workspace} {source : Supply} {uri : String} {failure : Failure} (h : source uri = .error failure) :
    ReadM.run source (ofDocument ws uri) = .error failure := by
  have hb : ReadM.run source (ws.blocks uri) = .error failure := by
    rw [Workspace.blocks, ReadM.run_ask, Reading.answer, h]
    rfl
  rw [ofDocument, ReadM.run_bind_error hb]

theorem run_ofDocument_missing {ws : Workspace} {source : Supply} (h : ws.ReadableFrom source)
    {uri : String} (hu : uri ∉ ws.uris) :
    ReadM.run source (ofDocument ws uri) = .error (.notFound uri) :=
  run_ofDocument_error (h.missing uri hu)

/-- In a readable workspace the errors of a whole check name the same dangling includes as the
resolution does, each as often, and both fail alike for a document that is not there. -/
theorem check_dangling_perm [Similar.Matcher] {ws : Workspace} {source : Supply} (h : ws.ReadableFrom source)
    (uri : String) :
    (uri ∈ ws.uris → ∃ found errors, ReadM.run source (ofDocument ws uri) = .ok found ∧
      ((GraphCheck.run ws uri none).run source).outcome = .ok errors ∧
      (errors.filter fun d => d.code = danglingInclude).Perm found.diagnostics) ∧
    (uri ∉ ws.uris → ReadM.run source (ofDocument ws uri) = .error (.notFound uri) ∧
      ((GraphCheck.run ws uri none).run source).outcome = .error (.notFound uri)) := by
  constructor
  · intro hu
    have hr := run_ofDocument h hu
    have hm : ∀ b ∈ Workspace.blocksFrom source uri, b ∈ (ws.indexFrom source).blocks :=
      fun b hb => Workspace.mem_indexFrom hu hb
    have hs : ∀ b ∈ (ofBlocks (ws.indexFrom source) (Workspace.blocksFrom source uri)).blocks,
        ∃ file, source b.uri = .ok file :=
      fun b hb => source_of_mem_index h (ofBlocks_mem_index hm b hb)
    exact ⟨_, _, hr, run_check_outcome h hr hs,
      (errors_findingsFrom_dangling hs).trans (ofBlocks_diagnostics hm).symm⟩
  · intro hu
    have hf := run_ofDocument_missing h hu
    have hr : Reading.run source (ExceptT.run (ofDocument ws uri)) = .error (.notFound uri) := hf
    exact ⟨hf, by simp [GraphCheck.run, hr]⟩

theorem check_dangling_perm_circular :
    (circular.workspace none).ReadableFrom (Snapshot.source (circular.freeze circularDisk)) ∧
      ∃ found errors,
        ReadM.run (Snapshot.source (circular.freeze circularDisk))
          (ofDocument (circular.workspace none) "a") = .ok found ∧
        ((GraphCheck.run (circular.workspace none) "a" none).run
          (Snapshot.source (circular.freeze circularDisk))).outcome = .ok errors ∧
        (errors.filter fun d => d.code = danglingInclude).Perm found.diagnostics :=
  ⟨circular_readable, (check_dangling_perm circular_readable "a").1 mem_circular_uris⟩

end HostScript.Resolution
