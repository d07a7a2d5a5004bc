import HostScript.Resolution
import HostScript.Proofs.Block.Layout
import HostScript.Proofs.Workspace.Readable

/-!
What is found from a document is what its includes lead to. A run of `follow` keeps two facts:
a script is added only if an include leads to it, and every include of an added script leads to a
script that has been visited or will be added.
-/

set_option autoImplicit false

namespace HostScript.Resolution

theorem mem_steps {block : Block} {step : Step} :
    step ∈ steps block ↔ step.block = block ∧ step.statement ∈ block.includes ∧
      step.statement.target = some step.target := by
  simp only [steps, List.mem_filterMap, Option.map_eq_some_iff]
  constructor
  · rintro ⟨statement, hi, target, ht, rfl⟩
    exact ⟨rfl, hi, ht⟩
  · rintro ⟨rfl, hi, ht⟩
    exact ⟨step.statement, hi, step.target, ht, rfl⟩

theorem mem_definedNumbers {blocks : List Block} {n : Nat} :
    n ∈ definedNumbers blocks ↔ ∃ b ∈ blocks, b.defines n = true := by
  simp only [definedNumbers, List.mem_filterMap, Block.defines, Bool.and_eq_true, beq_iff_eq]
  constructor
  · rintro ⟨b, hb, hn⟩
    by_cases hk : b.kind = .script
    · exact ⟨b, hb, hk, by simpa [hk] using hn⟩
    · simp [hk] at hn
  · rintro ⟨b, hb, hk, hn⟩
    exact ⟨b, hb, by simp [hk, hn]⟩

theorem defines_unique {b : Block} {m n : Nat} (hm : b.defines m = true) (hn : b.defines n = true) :
    m = n := by
  simp only [Block.defines, Bool.and_eq_true, beq_iff_eq] at hm hn
  exact Option.some.inj (hm.2.symm.trans hn.2)

/-- The least set of blocks that holds the focal ones, and with a block every script that an
include of it leads to, unless a focal block defines a script of that number. -/
inductive Reachable (ix : Index) (focal : List Block) : Block → Prop where
  | focal {b : Block} : b ∈ focal → Reachable ix focal b
  | included {b t : Block} {statement : Include} {n : Nat} : Reachable ix focal b →
      statement ∈ b.includes → statement.target = some n →
      (∀ f ∈ focal, f.defines n = false) → ix.lookup n = some t → Reachable ix focal t

theorem follow_reachable {ix : Index} {focal : List Block} (visited : List Nat) (todo : List Step)
    (hv : ∀ n ∈ definedNumbers focal, n ∈ visited)
    (ht : ∀ step ∈ todo, Reachable ix focal step.block ∧ step ∈ steps step.block) :
    ∀ b ∈ (follow ix visited todo).blocks, Reachable ix focal b := by
  fun_induction follow ix visited todo with
  | case1 visited => simp
  | case2 visited step rest _ ih => exact ih hv fun s hs => ht s (by simp [hs])
  | case3 visited step rest _ h after ih => exact ih hv fun s hs => ht s (by simp [hs])
  | case4 visited step rest hn block h after ih =>
    obtain ⟨hr, hs⟩ := ht step (by simp)
    obtain ⟨_, hi, htarget⟩ := mem_steps.mp hs
    have hfocal : ∀ f ∈ focal, f.defines step.target = false := by
      intro f hf
      by_contra hd
      have hm := hv _ (mem_definedNumbers.mpr ⟨f, hf, by simpa using hd⟩)
      exact hn (by simpa using hm)
    have hblock : Reachable ix focal block := .included hr hi htarget hfocal h
    have hafter : ∀ b ∈ after.blocks, Reachable ix focal b := by
      apply ih
      · intro n hn
        exact List.mem_cons_of_mem _ (hv n hn)
      · intro s hs
        cases List.mem_append.mp hs with
        | inl hs =>
          have hb := (mem_steps.mp hs).1
          rw [hb]
          exact ⟨hblock, hs⟩
        | inr hs => exact ht s (by simp [hs])
    intro b hb
    cases List.mem_cons.mp hb with
    | inl hb => rw [hb]; exact hblock
    | inr hb => exact hafter b hb

/-- No include is left open: its number has been visited before, or its script is found. -/
theorem follow_closed (ix : Index) (visited : List Nat) (todo : List Step) (step : Step)
    (hs : step ∈ todo ∨ ∃ b ∈ (follow ix visited todo).blocks, step ∈ steps b) :
    step.target ∈ visited ∨
      ∀ t, ix.lookup step.target = some t → t ∈ (follow ix visited todo).blocks := by
  fun_induction follow ix visited todo with
  | case1 visited => simp at hs
  | case2 visited first rest hv ih =>
    rcases hs with hs | hs
    · cases List.mem_cons.mp hs with
      | inl hs => rw [hs]; exact Or.inl (by simpa using hv)
      | inr hs => exact ih (Or.inl hs)
    · exact ih (Or.inr hs)
  | case3 visited first rest _ h after ih =>
    rcases hs with hs | hs
    · cases List.mem_cons.mp hs with
      | inl hs => rw [hs, h]; exact Or.inr (by simp)
      | inr hs => exact ih (Or.inl hs)
    · exact ih (Or.inr hs)
  | case4 visited first rest _ block h after ih =>
    have hfirst (t : Block) (hl : ix.lookup first.target = some t) : t ∈ block :: after.blocks := by
      rw [h] at hl
      simp [Option.some.inj hl]
    -- Unless it is the first include, the step is one that is still to do after the new script.
    have hlater : step = first ∨ step ∈ steps block ++ rest ∨ ∃ b ∈ after.blocks, step ∈ steps b := by
      rcases hs with hs | ⟨b, hb, hs⟩
      · cases List.mem_cons.mp hs with
        | inl hs => exact Or.inl hs
        | inr hs => exact Or.inr (Or.inl (by simp [hs]))
      · cases List.mem_cons.mp hb with
        | inl hb => exact Or.inr (Or.inl (by simp [← hb, hs]))
        | inr hb => exact Or.inr (Or.inr ⟨b, hb, hs⟩)
    rcases hlater with rfl | hlater
    · exact Or.inr hfirst
    · rcases ih hlater with hv | hf
      · cases List.mem_cons.mp hv with
        | inl hv => rw [hv]; exact Or.inr hfirst
        | inr hv => exact Or.inl hv
      · exact Or.inr fun t hl => List.mem_cons_of_mem _ (hf t hl)

theorem follow_fresh {ix : Index} (visited : List Nat) (todo : List Step) :
    ∀ b ∈ (follow ix visited todo).blocks, ∃ n, n ∉ visited ∧ b.defines n = true := by
  fun_induction follow ix visited todo with
  | case1 visited => simp
  | case2 visited step rest _ ih => exact ih
  | case3 visited step rest _ h after ih => exact ih
  | case4 visited step rest hn block h after ih =>
    intro b hb
    cases List.mem_cons.mp hb with
    | inl hb => exact ⟨step.target, by simpa using hn, hb ▸ (lookup_mem h).2⟩
    | inr hb =>
      obtain ⟨n, hv, hd⟩ := ih b hb
      exact ⟨n, fun hm => hv (List.mem_cons_of_mem _ hm), hd⟩

theorem follow_nodup {ix : Index} (visited : List Nat) (todo : List Step) :
    (follow ix visited todo).blocks.Nodup := by
  fun_induction follow ix visited todo with
  | case1 visited => simp
  | case2 visited step rest _ ih => exact ih
  | case3 visited step rest _ h after ih => exact ih
  | case4 visited step rest _ block h after ih =>
    refine List.nodup_cons.mpr ⟨fun hm => ?_, ih⟩
    obtain ⟨n, hv, hd⟩ := follow_fresh _ _ block hm
    exact hv (by simp [defines_unique hd (lookup_mem h).2])

theorem follow_of_visited {ix : Index} (visited : List Nat) (todo : List Step)
    (h : ∀ step ∈ todo, step.target ∈ visited) : follow ix visited todo = ⟨[], []⟩ := by
  induction todo with
  | nil => simp [follow]
  | cons step rest ih =>
    have hv : step.target ∈ visited := h step (by simp)
    rw [follow]
    simp [hv, ih fun s hs => h s (by simp [hs])]

def ofBlocks (ix : Index) (focal : List Block) : Resolution :=
  let found := follow ix (definedNumbers focal) (focal.flatMap steps)
  ⟨focal ++ found.blocks, found.diagnostics⟩

theorem leadsOut_iff {blocks : List Block} : leadsOut blocks = true ↔
    ∃ b ∈ blocks, ∃ statement ∈ b.includes, ∃ n, statement.target = some n ∧
      ∀ f ∈ blocks, f.defines n = false := by
  simp only [leadsOut, List.any_eq_true, List.mem_flatMap, Bool.not_eq_true', List.contains_eq_mem,
    decide_eq_false_iff_not, mem_definedNumbers, not_exists, not_and, Bool.not_eq_true]
  constructor
  · rintro ⟨step, ⟨b, hb, hs⟩, hn⟩
    obtain ⟨_, hi, ht⟩ := mem_steps.mp hs
    exact ⟨b, hb, step.statement, hi, step.target, ht, hn⟩
  · rintro ⟨b, hb, statement, hi, n, ht, hn⟩
    exact ⟨⟨b, statement, n⟩, ⟨b, hb, mem_steps.mpr ⟨rfl, hi, ht⟩⟩, hn⟩

/-- Blocks that define all they include are all that is found, whatever the index has. -/
theorem ofBlocks_of_not_leadsOut {blocks : List Block} (h : leadsOut blocks = false) (ix : Index) :
    ofBlocks ix blocks = ⟨blocks, []⟩ := by
  have hv : ∀ step ∈ blocks.flatMap steps, step.target ∈ definedNumbers blocks := by
    simp only [leadsOut, List.any_eq_false] at h
    intro step hm
    simpa using h step hm
  simp [ofBlocks, follow_of_visited _ _ hv]

theorem run_ofDocument_of_ok {ws : Workspace} {source : Supply} {uri : String} {file : HostFile}
    (hs : source uri = .ok file) : ReadM.run source (ofDocument ws uri) =
      if leadsOut (Workspace.blocksFrom source uri) then
        (ReadM.run source ws.index).map fun ix => ofBlocks ix (Workspace.blocksFrom source uri)
      else .ok ⟨Workspace.blocksFrom source uri, []⟩ := by
  rw [ofDocument, ReadM.run_bind_ok (ws.run_blocks hs)]
  split
  · rw [ReadM.run_bind]
    cases ReadM.run source ws.index <;> rfl
  · rfl

/-- Whether or not the index is asked for makes no difference. -/
theorem run_ofDocument {ws : Workspace} {source : Supply} (h : ws.ReadableFrom source) {uri : String}
    (hu : uri ∈ ws.uris) : ReadM.run source (ofDocument ws uri) =
      .ok (ofBlocks (ws.indexFrom source) (Workspace.blocksFrom source uri)) := by
  obtain ⟨doc, _, hs⟩ := h.found uri hu
  rw [run_ofDocument_of_ok hs, h.run_index]
  split
  · rfl
  · rename_i hl
    rw [ofBlocks_of_not_leadsOut (by simpa using hl)]

/-- What a resolution has to hold: the focal blocks first, in textual order, and then what else is
reachable. No block comes twice, and what is added is a script that no focal block defines. -/
structure Covers (ix : Index) (focal : List Block) (found : Resolution) : Prop where
  nodup : found.blocks.Nodup
  focal_first : focal <+: found.blocks
  focal_ordered : focal.Pairwise fun a b => a.start < b.start
  mem_iff : ∀ b, b ∈ found.blocks ↔ Reachable ix focal b
  not_replaced : ∀ b ∈ found.blocks, b ∉ focal →
    ∃ n, b.defines n = true ∧ ∀ f ∈ focal, f.defines n = false

theorem not_replaced_of_follow {ix : Index} {focal : List Block} {todo : List Step} {b : Block}
    (hb : b ∈ (follow ix (definedNumbers focal) todo).blocks) :
    ∃ n, b.defines n = true ∧ ∀ f ∈ focal, f.defines n = false := by
  obtain ⟨n, hn, hd⟩ := follow_fresh _ _ b hb
  refine ⟨n, hd, fun f hf => ?_⟩
  by_contra hd
  exact hn (mem_definedNumbers.mpr ⟨f, hf, by simpa using hd⟩)

theorem ofBlocks_nodup {ix : Index} {focal : List Block} (h : focal.Nodup) :
    (ofBlocks ix focal).blocks.Nodup := by
  refine List.nodup_append.mpr ⟨h, follow_nodup _ _, ?_⟩
  rintro a ha b hb rfl
  obtain ⟨n, hd, hn⟩ := not_replaced_of_follow hb
  rw [hn a ha] at hd
  exact absurd hd (by simp)

theorem mem_ofBlocks_iff (ix : Index) (focal : List Block) (b : Block) :
    b ∈ (ofBlocks ix focal).blocks ↔ Reachable ix focal b := by
  constructor
  · intro hb
    cases List.mem_append.mp hb with
    | inl hb => exact .focal hb
    | inr hb =>
      refine follow_reachable _ _ (fun n hn => hn) ?_ b hb
      intro step hs
      obtain ⟨f, hf, hs⟩ := List.mem_flatMap.mp hs
      have he := (mem_steps.mp hs).1
      rw [he]
      exact ⟨.focal hf, hs⟩
  · intro hb
    induction hb with
    | focal hb => exact List.mem_append_left _ hb
    | @included b t statement n _ hi ht hf hl ih =>
      have hs : (⟨b, statement, n⟩ : Step) ∈ steps b := mem_steps.mpr ⟨rfl, hi, ht⟩
      -- The include is one of the focal ones, or stands in a script that was added.
      have hc := follow_closed ix (definedNumbers focal) (focal.flatMap steps) ⟨b, statement, n⟩ (by
          cases List.mem_append.mp ih with
          | inl hb => exact Or.inl (List.mem_flatMap.mpr ⟨b, hb, hs⟩)
          | inr hb => exact Or.inr ⟨b, hb, hs⟩)
      rcases hc with hc | hc
      · obtain ⟨f, hm, hd⟩ := mem_definedNumbers.mp hc
        rw [hf f hm] at hd
        exact absurd hd (by simp)
      · exact List.mem_append_right _ (hc t hl)

theorem ofBlocks_covers (ix : Index) (doc : Document) :
    Covers ix (Block.scan doc) (ofBlocks ix (Block.scan doc)) where
  nodup := ofBlocks_nodup (Block.scan_nodup doc)
  focal_first := List.prefix_append _ _
  focal_ordered := Block.scan_starts_ascending doc
  mem_iff := mem_ofBlocks_iff ix (Block.scan doc)
  not_replaced := by
    intro b hb hf
    cases List.mem_append.mp hb with
    | inl hb => exact absurd hb hf
    | inr hb => exact not_replaced_of_follow hb

/-- In a readable workspace every document has a resolution, and it covers what is reachable. -/
theorem ofDocument_covers {ws : Workspace} {source : Supply} (h : ws.ReadableFrom source)
    {uri : String} (hu : uri ∈ ws.uris) :
    ∃ doc ix found, source uri = .ok (.ofDocument doc) ∧ ReadM.run source ws.index = .ok ix ∧
      ReadM.run source (ofDocument ws uri) = .ok found ∧ Covers ix (Block.scan doc) found := by
  obtain ⟨doc, _, hs⟩ := h.found uri hu
  have hr := run_ofDocument h hu
  rw [Workspace.blocksFrom_ofDocument hs] at hr
  exact ⟨doc, _, _, hs, h.run_index, hr, ofBlocks_covers _ doc⟩

/-- An open document and a file whose scripts include each other. The file also has another script
of number 1, a script that includes itself, and an include of a script that is nowhere. -/
def circular : Snapshot :=
  .ofBuffers [.ofText "a" (utf8 "SCRIPT:1,A\nincludescript 2\nENDSCRIPT\n")] ["b"]

def circularDisk (_ : String) : Except FileError Bytes :=
  .ok (utf8 ("SCRIPT:1,B\nENDSCRIPT\n"
    ++ "SCRIPT:2,C\nincludescript 1 includescript 2 includescript 3\nENDSCRIPT\n"))

theorem circular_readable :
    (circular.workspace none).ReadableFrom (Snapshot.source (circular.freeze circularDisk)) :=
  circular.readableFrom none circularDisk fun _ _ => ⟨_, rfl⟩

theorem mem_circular_uris : "a" ∈ (circular.workspace none).uris :=
  (circular.mem_uris "a").mpr (by simp [circular, Snapshot.ofBuffers, Snapshot.keepLast, Document.ofText])

theorem ofDocument_covers_circular :
    (circular.workspace none).ReadableFrom (Snapshot.source (circular.freeze circularDisk)) ∧
      "a" ∈ (circular.workspace none).uris ∧
      ∃ doc ix found,
        Snapshot.source (circular.freeze circularDisk) "a" = .ok (.ofDocument doc) ∧
        ReadM.run (Snapshot.source (circular.freeze circularDisk))
          (circular.workspace none).index = .ok ix ∧
        ReadM.run (Snapshot.source (circular.freeze circularDisk))
          (ofDocument (circular.workspace none) "a") = .ok found ∧
        Covers ix (Block.scan doc) found :=
  ⟨circular_readable, mem_circular_uris, ofDocument_covers circular_readable mem_circular_uris⟩

end HostScript.Resolution
