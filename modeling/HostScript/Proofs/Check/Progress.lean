import HostScript.Proofs.Resolution.Dangling
import HostScript.Similar

set_option autoImplicit false

namespace HostScript.GraphCheck

/-- The steps of a check that reads all of the blocks, `done` having been read before. -/
def steps (total done : Nat) (blocks : List Block) : List Progress :=
  blocks.mapIdx fun i block => ⟨done + i + 1, total, block⟩

theorem steps_cons (total done : Nat) (block : Block) (rest : List Block) :
    steps total done (block :: rest) = ⟨done + 1, total, block⟩ :: steps total (done + 1) rest := by
  simp only [steps, List.mapIdx_cons, Nat.add_zero]
  congr 2
  funext i
  rw [Nat.add_right_comm done 1 i, Nat.add_assoc done i 1]

theorem steps_zero (blocks : List Block) : steps blocks.length 0 blocks =
    blocks.mapIdx fun i block => ⟨i + 1, blocks.length, block⟩ := by
  simp only [steps, Nat.zero_add]

section

variable [Similar.Matcher] {ws : Workspace} {source : Supply} {stop : Option Stop} {blocks : List Block}

theorem visit_noticed {failure : Failure} {done : Nat} (hs : stopped? stop done = some failure)
    (total : Nat) (blocks : List Block) :
    (visit ws stop total done blocks).run source = ⟨[], .error failure⟩ := by
  cases blocks with
  | nil => simp [visit, hs]
  | cons block rest =>
    rw [visit, hs]
    rfl

theorem visit_read {done : Nat} {block : Block} {result : ParseResult} (hs : stopped? stop done = none)
    (hr : ReadM.run source (Parse.run ws .workspace block true) = .ok result) (total : Nat)
    (rest : List Block) :
    (visit ws stop total done (block :: rest)).run source =
      let after := (visit ws stop total (done + 1) rest).run source
      ⟨⟨done + 1, total, block⟩ :: after.progress, after.outcome.map (result.diagnostics ++ ·)⟩ := by
  have hr : Reading.run source (ExceptT.run (Parse.run ws .workspace block true)) = .ok result := hr
  rw [visit, hs]
  simp only [Reading.run_do, hr, Reading.run_pure]

variable (hi : ReadM.run source ws.index = .ok (ws.indexFrom source))

include hi

theorem visit_all (done : Nat) (hf : ∀ b ∈ blocks, ∃ file, source b.uri = .ok file)
    (hs : ∀ k, done ≤ k → k ≤ done + blocks.length → stopped? stop k = none) (total : Nat) :
    (visit ws stop total done blocks).run source =
      ⟨steps total done blocks, .ok (blocks.flatMap (Parse.findingsFrom ws source))⟩ := by
  induction blocks generalizing done with
  | nil =>
    have hnow := hs done (Nat.le_refl _) (by simp)
    simp [visit, hnow, steps]
  | cons block rest ih =>
    rw [List.length_cons] at hs
    obtain ⟨file, hfile⟩ := hf block List.mem_cons_self
    have hrest := ih (done + 1) (fun b hb => hf b (List.mem_cons_of_mem _ hb))
      (fun k hlow hhigh => hs k (by omega) (by omega))
    rw [visit_read (hs done (Nat.le_refl _) (by omega)) (Parse.run_strict hi hfile .workspace), hrest,
      steps_cons]
    simp [Parse.findingsFrom, hfile, Except.map]

theorem visit_stoppedAt {stop : Stop} (done : Nat) (hf : ∀ b ∈ blocks, ∃ file, source b.uri = .ok file)
    (hs : stop.after ≤ done + blocks.length) (total : Nat) :
    (visit ws (some stop) total done blocks).run source =
      ⟨(steps total done blocks).take (stop.after - done), .error stop.failure⟩ := by
  induction blocks generalizing done with
  | nil =>
    have hnow : stopped? (some stop) done = some stop.failure := by simpa [stopped?] using hs
    rw [visit_noticed hnow]
    simp [steps]
  | cons block rest ih =>
    by_cases hle : stop.after ≤ done
    · have hnow : stopped? (some stop) done = some stop.failure := by simpa [stopped?] using hle
      rw [visit_noticed hnow, Nat.sub_eq_zero_of_le hle, List.take_zero]
    · have hnow : stopped? (some stop) done = none := by simpa [stopped?] using hle
      obtain ⟨file, hfile⟩ := hf block List.mem_cons_self
      have hrest := ih (done + 1) (fun b hb => hf b (List.mem_cons_of_mem _ hb))
        (by rw [List.length_cons] at hs; omega)
      have hcount : stop.after - done = stop.after - (done + 1) + 1 := by omega
      rw [visit_read hnow (Parse.run_strict hi hfile .workspace), hrest, steps_cons, hcount,
        List.take_succ_cons]
      rfl

end

/-- In a readable workspace a check of a document counts the reachable blocks in the order of the
resolution. A stop after some of them, none and all included, keeps the steps up to there, and its failure
is all that the check gives besides; one that comes later makes no difference. Of a document that is not
there nothing is checked, with a stop or without. -/
theorem run_steps [Similar.Matcher] {ws : Workspace} {source : Supply} (h : ws.ReadableFrom source)
    (uri : String) :
    (uri ∈ ws.uris → ∃ found, ReadM.run source (Resolution.ofDocument ws uri) = .ok found ∧
      let all := found.blocks.mapIdx fun i block => (⟨i + 1, found.blocks.length, block⟩ : Progress)
      let errors := Diagnostic.errors (found.blocks.flatMap (Parse.findingsFrom ws source))
      (run ws uri none).run source = ⟨all, .ok errors⟩ ∧
      ∀ stop : Stop, (run ws uri (some stop)).run source =
        if stop.after ≤ found.blocks.length then ⟨all.take stop.after, .error stop.failure⟩
        else ⟨all, .ok errors⟩) ∧
    (uri ∉ ws.uris → ∀ stop, (run ws uri stop).run source = ⟨[], .error (.notFound uri)⟩) := by
  constructor
  · intro hu
    have hr := Resolution.run_ofDocument h hu
    have hmem : ∀ b ∈ Workspace.blocksFrom source uri, b ∈ (ws.indexFrom source).blocks :=
      fun b hb => Workspace.mem_indexFrom hu hb
    have hf : ∀ b ∈ (Resolution.ofBlocks (ws.indexFrom source) (Workspace.blocksFrom source uri)).blocks,
        ∃ file, source b.uri = .ok file :=
      fun b hb => Resolution.source_of_mem_index h (Resolution.ofBlocks_mem_index hmem b hb)
    generalize Resolution.ofBlocks (ws.indexFrom source) (Workspace.blocksFrom source uri) = found at hr hf
    refine ⟨found, hr, ?_, fun stop => ?_⟩
    · rw [run_of_found hr, visit_all h.run_index 0 hf (fun _ _ _ => rfl), steps_zero]
      rfl
    · rw [run_of_found hr]
      split
      · rename_i hle
        rw [visit_stoppedAt h.run_index 0 hf (by omega), steps_zero]
        rfl
      · rename_i hgt
        have hnone : ∀ k, 0 ≤ k → k ≤ 0 + found.blocks.length → stopped? (some stop) k = none := fun k _ hk => by
          simp only [stopped?, Option.bind_some]
          exact if_neg (by omega)
        rw [visit_all h.run_index 0 hf hnone, steps_zero]
        rfl
  · intro hu stop
    exact run_of_error (Resolution.run_ofDocument_missing h hu) stop

def includingScripts : Document :=
  .ofText "a" (utf8 "SCRIPT:1,A\nincludescript 2\nENDSCRIPT\nSCRIPT:2,B\n)\nENDSCRIPT\n")

def oneEmpty : Workspace := ⟨["a", "b"], none⟩

def oneEmptySource : Supply := fun uri =>
  if uri = "a" then .ok (.ofDocument includingScripts)
  else if uri = "b" then .ok (.ofDocument (.ofText "b" []))
  else .error (.notFound uri)

theorem oneEmpty_readable : oneEmpty.ReadableFrom oneEmptySource := by
  constructor
  · intro uri huri
    have hcases : uri = "a" ∨ uri = "b" := by simpa [oneEmpty] using huri
    rcases hcases with rfl | rfl
    · exact ⟨includingScripts, rfl, rfl⟩
    · exact ⟨.ofText "b" [], rfl, rfl⟩
  · intro uri huri
    have hneither : uri ≠ "a" ∧ uri ≠ "b" := by simpa [oneEmpty] using huri
    rw [oneEmptySource, if_neg hneither.1, if_neg hneither.2]

theorem oneEmpty_found {uri : String} (doc : Document) (hs : oneEmptySource uri = .ok (.ofDocument doc))
    (hl : Resolution.leadsOut (Block.scan doc) = false) :
    ReadM.run oneEmptySource (Resolution.ofDocument oneEmpty uri) = .ok ⟨Block.scan doc, []⟩ := by
  rw [Resolution.run_ofDocument_of_ok hs, Workspace.blocksFrom_ofDocument hs, hl]
  rfl

theorem run_steps_oneEmpty :
    oneEmpty.ReadableFrom oneEmptySource ∧ "a" ∈ oneEmpty.uris ∧ "b" ∈ oneEmpty.uris ∧
      (∃ first second, Block.scan includingScripts = [first, second] ∧
        (run oneEmpty "a" (some ⟨1, .cancelled⟩)).run oneEmptySource
          = ⟨[⟨1, 2, first⟩], .error .cancelled⟩ ∧
        (run oneEmpty "a" (some ⟨2, .cancelled⟩)).run oneEmptySource
          = ⟨[⟨1, 2, first⟩, ⟨2, 2, second⟩], .error .cancelled⟩) ∧
      (run oneEmpty "b" none).run oneEmptySource = ⟨[], .ok []⟩ ∧
      (run oneEmpty "b" (some ⟨0, .cancelled⟩)).run oneEmptySource = ⟨[], .error .cancelled⟩ := by
  have ha : "a" ∈ oneEmpty.uris := by simp [oneEmpty]
  have hb : "b" ∈ oneEmpty.uris := by simp [oneEmpty]
  obtain ⟨found, hfound, -, hstop⟩ := (run_steps oneEmpty_readable "a").1 ha
  obtain ⟨found', hfound', hall', hstop'⟩ := (run_steps oneEmpty_readable "b").1 hb
  rw [oneEmpty_found includingScripts rfl (by decide +kernel)] at hfound
  rw [oneEmpty_found (.ofText "b" []) rfl (by decide +kernel)] at hfound'
  obtain rfl := Except.ok.inj hfound
  obtain rfl := Except.ok.inj hfound'
  have hlength : (Block.scan includingScripts).length = 2 := by decide +kernel
  obtain ⟨first, second, hscan⟩ := List.length_eq_two.mp hlength
  refine ⟨oneEmpty_readable, ha, hb, ⟨first, second, hscan, ?_, ?_⟩, hall', hstop' ⟨0, .cancelled⟩⟩
  · rw [hstop ⟨1, .cancelled⟩, hscan]
    rfl
  · rw [hstop ⟨2, .cancelled⟩, hscan]
    rfl

end HostScript.GraphCheck
