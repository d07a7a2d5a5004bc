import HostScript.GraphCheck
import HostScript.Proofs.Workspace.Readable

/-!
Reading blocks of a readable workspace. Strict checks see its index, whether or not the block
gives them a reason to ask for it, and a check of many blocks that is not stopped reads them all.
-/

set_option autoImplicit false

namespace HostScript

theorem Check.strictFindings_eq_nil {block : Block} (h : firstStrict? block = none) (ix : Index)
    (origin : Origin) : strictFindings ix origin block = [] := by
  unfold firstStrict? at h
  split at h
  · exact absurd h (by simp)
  · rename_i hs
    have hsteps : Resolution.steps block = [] := by simpa using hs
    split at h
    · exact absurd h (by simp)
    · exact absurd h (by simp)
    · rename_i hn
      simp [strictFindings, onDanglingIncludes, hsteps, onDuplicateScript, onUnknownHookTarget,
        onUnknownHook, hn]

/-- A check asks for the index if the block has a number, or includes a script by number. -/
theorem Check.firstStrict?_isSome {block : Block} : (firstStrict? block).isSome = true ↔
    block.number.isSome = true ∨ ∃ statement ∈ block.includes, statement.target.isSome = true := by
  have hsteps : Resolution.steps block = [] ↔ ∀ statement ∈ block.includes, statement.target = none := by
    simp [Resolution.steps, List.filterMap_eq_nil_iff]
  rw [firstStrict?]
  split
  · rename_i h
    have hne : Resolution.steps block ≠ [] := by simpa using h
    simp only [Option.isSome_some, true_iff]
    right
    by_contra hnone
    simp only [not_exists, not_and, Bool.not_eq_true, Option.isSome_eq_false_iff,
      Option.isNone_iff_eq_none] at hnone
    exact hne (hsteps.mpr hnone)
  · rename_i h
    have hnone := hsteps.mp (by simpa using h)
    have hno : ¬ ∃ statement ∈ block.includes, statement.target.isSome = true := by
      rintro ⟨statement, hi, ht⟩
      simp [hnone statement hi] at ht
    simp only [hno, or_false]
    cases block.kind <;> cases block.number <;> simp

namespace Parse

variable [Similar.Matcher]

theorem run_strict {ws : Workspace} {source : Supply} {ix : Index} {block : Block} {file : HostFile}
    (hi : ReadM.run source ws.index = .ok ix) (hf : source block.uri = .ok file) (origin : Origin) :
    ReadM.run source (run ws origin block true) = .ok (strictly ws ix origin file.doc block) := by
  rw [run, ReadM.run_bind_ok (ws.run_document_ok hf)]
  simp only [if_true]
  split
  · rename_i check _
    have hw : ReadM.run source (ReadM.within (.duringCheck block.describe check.name) ws.index)
        = .ok ix := by
      rw [ReadM.run_within, hi]
      rfl
    rw [ReadM.run_bind_ok hw]
    rfl
  · rename_i hn
    simp [strictly, Check.strictFindings_eq_nil hn]

/-- A block that gives strict checks nothing to look up is read without the index. -/
theorem run_strict_unasked {source : Supply} {block : Block} {file : HostFile} (ws : Workspace)
    (hf : source block.uri = .ok file) (hn : Check.firstStrict? block = none) (origin : Origin)
    (ix : Index) : ReadM.run source (run ws origin block true)
      = .ok (strictly ws ix origin file.doc block) := by
  rw [run, ReadM.run_bind_ok (ws.run_document_ok hf), hn]
  simp [strictly, Check.strictFindings_eq_nil hn]

theorem run_strict_error {ws : Workspace} {source : Supply} {block : Block} {file : HostFile}
    {check : Check} {failure : Failure} (hi : ReadM.run source ws.index = .error failure)
    (hf : source block.uri = .ok file) (hc : Check.firstStrict? block = some check)
    (origin : Origin) : ReadM.run source (run ws origin block true)
      = .error (.duringCheck block.describe check.name failure) := by
  have hw : ReadM.run source (ReadM.within (.duringCheck block.describe check.name) ws.index)
      = .error (.duringCheck block.describe check.name failure) := by
    rw [ReadM.run_within, hi]
    rfl
  rw [run, ReadM.run_bind_ok (ws.run_document_ok hf), hc]
  exact ReadM.run_bind_error hw _

theorem run_local {source : Supply} {block : Block} {file : HostFile} (ws : Workspace)
    (hf : source block.uri = .ok file) (origin : Origin) :
    ReadM.run source (run ws origin block false) = .ok (ofDocument ws file.doc block) := by
  rw [run, ReadM.run_bind_ok (ws.run_document_ok hf)]
  rfl

def findingsFrom (ws : Workspace) (source : Supply) (block : Block) : List Diagnostic :=
  match source block.uri with
  | .ok file => (strictly ws (ws.indexFrom source) .workspace file.doc block).diagnostics
  | .error _ => []

end Parse

namespace GraphCheck

variable [Similar.Matcher]

theorem visit_cons (ws : Workspace) (source : Supply) (stop : Option Stop) (total done : Nat)
    (block : Block) (rest : List Block) :
    ((visit ws stop total done (block :: rest)).run source).outcome =
      match stopped? stop done, ReadM.run source (Parse.run ws .workspace block true) with
      | some failure, _ => .error failure
      | none, .error failure => .error failure
      | none, .ok result => (((visit ws stop total (done + 1) rest).run source).outcome).map
          (result.diagnostics ++ ·) := by
  rw [visit]
  cases stopped? stop done with
  | some failure => rfl
  | none =>
    cases hr : ReadM.run source (Parse.run ws .workspace block true) with
    | error failure =>
      have hr : Reading.run source (ExceptT.run (Parse.run ws .workspace block true)) = .error failure := hr
      simp [hr]
    | ok result =>
      have hr : Reading.run source (ExceptT.run (Parse.run ws .workspace block true)) = .ok result := hr
      simp [hr]

theorem visit_ok {ws : Workspace} {source : Supply} {findings : Block → List Diagnostic}
    {blocks : List Block}
    (h : ∀ b ∈ blocks, ∃ result, ReadM.run source (Parse.run ws .workspace b true) = .ok result ∧
      result.diagnostics = findings b) (total done : Nat) :
    ((visit ws none total done blocks).run source).outcome = .ok (blocks.flatMap findings) := by
  induction blocks generalizing done with
  | nil => rfl
  | cons b blocks ih =>
    obtain ⟨result, hr, hd⟩ := h b (by simp)
    have ih := ih (fun c hc => h c (by simp [hc])) (done + 1)
    simp [visit_cons, stopped?, hr, ih, Except.map, hd]

theorem visit_outcome {ws : Workspace} {source : Supply} {blocks : List Block}
    (hi : ReadM.run source ws.index = .ok (ws.indexFrom source))
    (hf : ∀ b ∈ blocks, ∃ file, source b.uri = .ok file) (total done : Nat) :
    ((visit ws none total done blocks).run source).outcome =
      .ok (blocks.flatMap (Parse.findingsFrom ws source)) := by
  refine visit_ok (fun b hb => ?_) total done
  obtain ⟨file, hb⟩ := hf b hb
  exact ⟨_, Parse.run_strict hi hb .workspace, by simp only [Parse.findingsFrom, hb]⟩

/-- One block that cannot be read fails the whole check. -/
theorem visit_error {ws : Workspace} {source : Supply} {blocks : List Block}
    (h : ∃ b ∈ blocks, ∃ e, ReadM.run source (Parse.run ws .workspace b true) = .error e)
    (stop : Option Stop) (total done : Nat) :
    ∃ e, ((visit ws stop total done blocks).run source).outcome = .error e := by
  induction blocks generalizing done with
  | nil => simp at h
  | cons b blocks ih =>
    rw [visit_cons]
    cases stopped? stop done with
    | some failure => exact ⟨failure, rfl⟩
    | none =>
      cases hr : ReadM.run source (Parse.run ws .workspace b true) with
      | error e => exact ⟨e, rfl⟩
      | ok result =>
        have hlater : ∃ c ∈ blocks, ∃ e, ReadM.run source (Parse.run ws .workspace c true) = .error e := by
          obtain ⟨c, hc, e, he⟩ := h
          cases List.mem_cons.mp hc with
          | inl hc =>
            subst hc
            rw [hr] at he
            cases he
          | inr hc => exact ⟨c, hc, e, he⟩
        obtain ⟨e, he⟩ := ih hlater (done + 1)
        exact ⟨e, by simp [he, Except.map]⟩

theorem visit_unstopped {ws : Workspace} {source : Supply} {stop : Option Stop} {blocks : List Block}
    {total done : Nat} {ds : List Diagnostic}
    (h : ((visit ws stop total done blocks).run source).outcome = .ok ds) :
    ((visit ws none total done blocks).run source).outcome = .ok ds := by
  induction blocks generalizing done ds with
  | nil =>
    cases hs : stopped? stop done with
    | some failure =>
      have hend : ((visit ws stop total done []).run source).outcome = .error failure := by
        simp [visit, hs]
      rw [hend] at h
      cases h
    | none =>
      have hend : ((visit ws stop total done []).run source).outcome = .ok [] := by simp [visit, hs]
      rw [hend] at h
      exact h
  | cons b blocks ih =>
    rw [visit_cons] at h ⊢
    cases hs : stopped? stop done with
    | some failure => simp [hs] at h
    | none =>
      cases hr : ReadM.run source (Parse.run ws .workspace b true) with
      | error e => simp [hs, hr] at h
      | ok result =>
        cases hv : ((visit ws stop total (done + 1) blocks).run source).outcome with
        | error e => simp [hs, hr, hv, Except.map] at h
        | ok rest =>
          simp only [hs, hr, hv] at h
          simp only [stopped?, Option.bind_none, ih hv]
          exact h

theorem visit_stopped {ws : Workspace} {source : Supply} {stop : Stop} {blocks : List Block}
    (total : Nat) {done : Nat} (h : stop.after ≤ done + blocks.length) :
    ∃ e, ((visit ws (some stop) total done blocks).run source).outcome = .error e := by
  induction blocks generalizing done with
  | nil =>
    have hs : stopped? (some stop) done = some stop.failure := by simpa [stopped?] using h
    exact ⟨stop.failure, by simp [visit, hs]⟩
  | cons b blocks ih =>
    rw [visit_cons]
    cases stopped? (some stop) done with
    | some failure => exact ⟨failure, rfl⟩
    | none =>
      cases ReadM.run source (Parse.run ws .workspace b true) with
      | error e => exact ⟨e, rfl⟩
      | ok result =>
        have hlater : stop.after ≤ done + 1 + blocks.length := by
          rw [List.length_cons] at h
          omega
        obtain ⟨e, he⟩ := ih hlater
        exact ⟨e, by simp [he, Except.map]⟩

theorem run_of_found {ws : Workspace} {source : Supply} {uri : String} {found : Resolution}
    (h : ReadM.run source (Resolution.ofDocument ws uri) = .ok found) (stop : Option Stop) :
    (run ws uri stop).run source =
      let all := (visit ws stop found.blocks.length 0 found.blocks).run source
      { all with outcome := all.outcome.map Diagnostic.errors } := by
  have h : Reading.run source (ExceptT.run (Resolution.ofDocument ws uri)) = .ok found := h
  simp only [run, Reading.run_do, h, Reading.run_pure]

theorem run_of_error {ws : Workspace} {source : Supply} {uri : String} {failure : Failure}
    (h : ReadM.run source (Resolution.ofDocument ws uri) = .error failure) (stop : Option Stop) :
    (run ws uri stop).run source = ⟨[], .error failure⟩ := by
  have h : Reading.run source (ExceptT.run (Resolution.ofDocument ws uri)) = .error failure := h
  simp only [run, Reading.run_do, h, Reading.run_pure]

end GraphCheck

end HostScript
