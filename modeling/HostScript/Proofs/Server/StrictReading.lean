import HostScript.Proofs.Server.Cache
import HostScript.Similar

/-!
The strict reading of the block at a place. It is made of a block that was found in the open document,
which no block of the workspace is the same as. So it says what the reading of the block of the
workspace says, except that a script with several definitions is listed among its own.
-/

set_option autoImplicit false

namespace HostScript

namespace Diagnostic

/-- Findings with a gap for one more are sorted alike whatever fills it, if its range is known. -/
theorem sort_getD {a b : Diagnostic} (h : b.range = a.range) (slots : List (Option Diagnostic)) :
    sort (slots.map (·.getD b)) = (slots.mergeSort fun p q =>
      !(q.getD a).range.start.less (p.getD a).range.start).map (·.getD b) := by
  have hrange (slot : Option Diagnostic) : (slot.getD b).range = (slot.getD a).range := by
    cases slot with
    | none => exact h
    | some x => rfl
  refine (List.map_mergeSort fun p _ q _ => ?_).symm
  rw [hrange, hrange]

theorem map_getD_congr {slots : List (Option Diagnostic)} (h : none ∉ slots) (a b : Diagnostic) :
    slots.map (·.getD a) = slots.map (·.getD b) := by
  refine List.map_congr_left fun slot hm => ?_
  cases slot with
  | none => exact absurd hm h
  | some x => rfl

/-- Two findings with one range take the same place among others. -/
theorem sort_replace {a b : Diagnostic} (h : b.range = a.range) (before after : List Diagnostic) :
    ∃ pre post, sort (before ++ a :: after) = pre ++ a :: post ∧
      sort (before ++ b :: after) = pre ++ b :: post := by
  have hfill (x : Diagnostic) :
      (before.map some ++ none :: after.map some).map (·.getD x) = before ++ x :: after := by
    simp [Function.comp_def]
  have hgap : (before.map some ++ none :: after.map some).count (none : Option Diagnostic) = 1 := by
    have hsome (ds : List Diagnostic) : (ds.map some).count none = 0 := List.count_eq_zero.mpr (by simp)
    rw [List.count_append, List.count_cons_self, hsome, hsome]
  have ha := sort_getD (rfl : a.range = a.range) (before.map some ++ none :: after.map some)
  have hb := sort_getD h (before.map some ++ none :: after.map some)
  rw [hfill] at ha hb
  have hperm := List.mergeSort_perm (before.map some ++ none :: after.map some) fun p q =>
    !(q.getD a).range.start.less (p.getD a).range.start
  generalize (before.map some ++ none :: after.map some).mergeSort _ = sorted at ha hb hperm
  rw [← hperm.count_eq none] at hgap
  -- The gap is in the sorted findings, once.
  obtain ⟨pre, post, rfl⟩ := List.append_of_mem (List.count_pos_iff.mp (by omega : 0 < sorted.count none))
  rw [List.count_append, List.count_cons_self] at hgap
  have hpre : none ∉ pre := List.count_eq_zero.mp (by omega)
  have hpost : none ∉ post := List.count_eq_zero.mp (by omega)
  refine ⟨pre.map (·.getD a), post.map (·.getD a), ?_, ?_⟩
  · rw [ha, List.map_append, List.map_cons]
    rfl
  · rw [hb, List.map_append, List.map_cons, map_getD_congr hpre b a, map_getD_congr hpost b a]
    rfl

end Diagnostic

namespace Check

/-- The finding that a script has several definitions, some of which are listed. -/
def repeated (block : Block) (n : Nat) (definitions listed : List Block) : Diagnostic :=
  finding .duplicateScript block block.headerRange
    (utf8 ("script " ++ toString n ++ " is defined " ++ toString definitions.length ++ " times"))
    (listed.map fun other =>
      "also defined at " ++ pathOfUri other.uri ++ ":" ++ other.headerRange.start.describe)

/-- The block is a script whose number has several definitions. -/
structure Repeated (ix : Index) (block : Block) (n : Nat) : Prop where
  kind : block.kind = .script
  number : block.number = some n
  several : 2 ≤ (ix.definitions n).length

theorem repeated_ne {block : Block} {definitions : List Block} (h : block ∈ definitions) (n : Nat) :
    repeated block n definitions definitions
      ≠ repeated block n definitions (definitions.filter (· ≠ block)) := by
  intro heq
  have hlength := congrArg (fun d : Diagnostic => d.notes.length) heq
  simp only [repeated, finding, List.length_map] at hlength
  have hall := List.length_filter_eq_length_iff.mp hlength.symm block h
  simp at hall

theorem onDuplicateScript_eq {ix : Index} {block : Block} {n : Nat} (h : Repeated ix block n)
    (origin : Origin) : onDuplicateScript ix origin block
      = [repeated block n (ix.definitions n)
        ((ix.definitions n).filter fun other => !isSelf origin block other)] := by
  simp only [onDuplicateScript, h.kind, h.number, Nat.not_lt.mpr h.several, if_false, repeated]

theorem onDuplicateScript_eq_nil {ix : Index} {block : Block} (h : ∀ n, ¬ Repeated ix block n)
    (origin : Origin) : onDuplicateScript ix origin block = [] := by
  unfold onDuplicateScript
  split
  · rename_i n hk hn
    refine if_pos (Nat.lt_of_not_le fun hle => h n ⟨hk, hn, hle⟩)
  · rfl

end Check

namespace Parse

variable [Similar.Matcher] {ws : Workspace} {ix : Index} {doc : Document} {block : Block}

/-- Where a script is not defined several times, it makes no difference where its block was found. -/
theorem strictly_origin (h : ∀ n, ¬ Check.Repeated ix block n) (a b : Origin) :
    strictly ws ix a doc block = strictly ws ix b doc block := by
  simp only [strictly, Check.strictFindings, Check.onDuplicateScript_eq_nil h]

/-- Otherwise the readings differ in the definitions that are listed. -/
theorem strictly_repeated {n : Nat} (h : Check.Repeated ix block n) (a b : Origin) :
    ∃ pre post,
      (strictly ws ix a doc block).diagnostics = pre ++ Check.repeated block n (ix.definitions n)
        ((ix.definitions n).filter fun other => !Check.isSelf a block other) :: post ∧
      (strictly ws ix b doc block).diagnostics = pre ++ Check.repeated block n (ix.definitions n)
        ((ix.definitions n).filter fun other => !Check.isSelf b block other) :: post := by
  have hall (origin : Origin) : (strictly ws ix origin doc block).diagnostics
      = Diagnostic.sort (((structureOf doc block).diagnostics
          ++ (Check.localFindings ws block (structureOf doc block).calls
            ++ Check.onDanglingIncludes ix block))
        ++ Check.repeated block n (ix.definitions n)
          ((ix.definitions n).filter fun other => !Check.isSelf origin block other)
        :: (Check.onUnknownHookTarget ix block ++ Check.onUnknownHook ix block)) := by
    simp [strictly, Check.strictFindings, Check.onDuplicateScript_eq h]
  rw [hall a, hall b]
  exact Diagnostic.sort_replace (by rfl) _ _

/-- A strict reading does not depend on where its block was found, unless the block is a script with
several definitions in the index. -/
theorem run_strict_origin {source : Supply} {file : HostFile} (hf : source block.uri = .ok file)
    (h : ∀ ix n, ReadM.run source ws.index = .ok ix → ¬ Check.Repeated ix block n) (a b : Origin) :
    ReadM.run source (run ws a block true) = ReadM.run source (run ws b block true) := by
  cases hi : ReadM.run source ws.index with
  | ok ix => rw [run_strict hi hf, run_strict hi hf, strictly_origin (h ix · hi) a b]
  | error e =>
    have hdoc := ws.run_document_ok hf
    rw [run, run, ReadM.run_bind_ok hdoc, ReadM.run_bind_ok hdoc]
    simp only [if_true]
    split
    · rename_i check _
      have hw : ReadM.run source (ReadM.within (.duringCheck block.describe check.name) ws.index)
          = .error (.duringCheck block.describe check.name e) := by
        rw [ReadM.run_within, hi]
        rfl
      rw [ReadM.run_bind_error hw, ReadM.run_bind_error hw]
    · rename_i hn
      simp [strictly, Check.strictFindings_eq_nil hn]

end Parse

namespace Server

variable {s : Server} {d : Disk} {v : View}

theorem documents_distinct (bs : Buffers) : (bs.documents.map (·.uri)).Nodup := by
  have hperm : (bs.documents.map (·.uri)).Perm (bs.entries.map (·.doc.uri)) := by
    have h := (List.mergeSort_perm (bs.entries.map (·.doc)) fun a b => !decide (b.uri < a.uri)).map
      Document.uri
    simpa [Buffers.documents, Function.comp_def] using h
  exact hperm.nodup_iff.mpr bs.distinct

theorem doc?_mem {bs : Buffers} {uri : String} {doc : Document} (h : bs.doc? uri = some doc) :
    doc ∈ bs.documents ∧ doc.uri = uri := by
  obtain ⟨entry, he, rfl⟩ := Option.map_eq_some_iff.mp h
  refine ⟨?_, by simpa using List.find?_some he⟩
  rw [Buffers.documents, List.mem_mergeSort]
  exact List.mem_map_of_mem (List.mem_of_find?_eq_some he)

theorem view_source (hv : s.view d = .ok v) {uri : String} {doc : Document}
    (h : s.buffers.doc? uri = some doc) :
    doc.uri = uri ∧ v.source uri = .ok (.ofDocument doc) ∧ uri ∈ v.workspace.uris := by
  obtain ⟨paths, _, rfl⟩ := view_eq_ok hv
  obtain ⟨hm, rfl⟩ := doc?_mem h
  have hdistinct := documents_distinct s.buffers
  have hbuffers : (Snapshot.ofBuffers s.buffers.documents paths).buffers = s.buffers.documents :=
    Snapshot.keepLast_of_nodup hdistinct
  refine ⟨rfl, Snapshot.source_buffer (by rwa [hbuffers]) _ (by rwa [hbuffers]), ?_⟩
  refine (Snapshot.mem_uris _ _).mpr (List.mem_append_left _ ?_)
  rw [hbuffers]
  exact List.mem_map_of_mem hm

theorem view_source_uri (hv : s.view d = .ok v) {uri : String} {file : HostFile}
    (h : v.source uri = .ok file) : file.doc.uri = uri := by
  obtain ⟨paths, _, rfl⟩ := view_eq_ok hv
  exact Snapshot.source_uri h

end Server

theorem View.run_eq_ok {v : View} {α : Type} {x : ReadM α} {a : α} :
    v.run x = .ok a ↔ ReadM.run v.source x = .ok a := by
  unfold View.run
  cases ReadM.run v.source x <;> simp [Except.mapError]

namespace Server

variable {s : Server} {d : Disk} {v : View} {place : Place} {doc : Document} {block : Block}

theorem blockAt?_doc (hb : s.blockAt? place = some (doc, block)) :
    s.buffers.doc? place.uri = some doc := by
  simp only [blockAt?, Option.bind_eq_bind, Option.bind_eq_some_iff, Option.pure_def,
    Option.some.injEq, Prod.mk.injEq] at hb
  obtain ⟨_, hd, _, _, rfl, _⟩ := hb
  exact hd

theorem run_blockReading_strict [Similar.Matcher] (hb : s.blockAt? place = some (doc, block)) (d : Disk)
    (cache : ParseCache) : (s.blockReading d place true).run cache
      = ((s.strictReading d block).map fun result =>
          some ⟨block, result, ((s.buffers.get? place.uri).map (·.version)).getD 0⟩, cache) := by
  simp only [blockReading, hb, if_true]
  rfl

theorem strictReading_eq [Similar.Matcher] (hv : s.view d = .ok v) (block : Block) :
    s.strictReading d block = v.run (Parse.run v.workspace .apart block true) := by
  simp only [strictReading, read, hv]
  rfl

/-- Of the blocks of the workspace only the block itself stands at its place. -/
theorem samePlace_iff (hv : s.view d = .ok v) {uri : String} (hd : s.buffers.doc? uri = some doc)
    (hb : block ∈ Block.scan doc) {ix : Index} (hi : ReadM.run v.source v.workspace.index = .ok ix)
    {other : Block} (ho : other ∈ ix.blocks) : block.samePlace other = true ↔ other = block := by
  constructor
  · intro hs
    simp only [Block.samePlace, Bool.and_eq_true, beq_iff_eq] at hs
    obtain ⟨rfl, hfound⟩ := Workspace.run_index_ok hi
    obtain ⟨uri', hu, hm⟩ := List.mem_flatMap.mp ho
    obtain ⟨file, hf⟩ := hfound uri' hu
    obtain ⟨hdoc, hsource, _⟩ := view_source hv hd
    have huri := view_source_uri hv hf
    simp only [Workspace.blocksFrom, hf, file.blocks_eq] at hm
    -- Both stand in the one document of their URI.
    have heq : uri' = uri := by
      rw [← huri, ← Block.scan_uri hm, ← hs.1, Block.scan_uri hb, hdoc]
    rw [heq, hsource] at hf
    obtain rfl := Except.ok.inj hf
    exact Block.eq_of_start_eq hm hb hs.2.symm
  · rintro rfl
    simp [Block.samePlace]

/-- The strict reading of a script with several definitions lists them all, the block itself too. The
reading of the block of the workspace lists the others. -/
theorem strictReading_repeated [Similar.Matcher] (hb : s.blockAt? place = some (doc, block))
    (hv : s.view d = .ok v)
    {ix : Index} {n : Nat} (hi : v.run v.workspace.index = .ok ix) (hr : Check.Repeated ix block n) :
    block ∈ ix.definitions n ∧
      ∃ apart whole pre post, s.strictReading d block = .ok apart ∧
        v.run (Parse.run v.workspace .workspace block true) = .ok whole ∧
        apart.diagnostics
          = pre ++ Check.repeated block n (ix.definitions n) (ix.definitions n) :: post ∧
        whole.diagnostics = pre ++ Check.repeated block n (ix.definitions n)
          ((ix.definitions n).filter (· ≠ block)) :: post := by
  rw [View.run_eq_ok] at hi
  have hd := blockAt?_doc hb
  have hscan := blockAt?_mem hb
  obtain ⟨hdoc, hsource, huris⟩ := view_source hv hd
  have hfile : v.source block.uri = .ok (.ofDocument doc) := by rw [Block.scan_uri hscan, hdoc, hsource]
  have hmem : block ∈ ix.definitions n := by
    rw [(Workspace.run_index_ok hi).1]
    refine List.mem_filter.mpr ⟨Workspace.mem_indexFrom huris ?_, by simp [Block.defines, hr.kind, hr.number]⟩
    rwa [Workspace.blocksFrom_ofDocument hsource]
  have hothers : ((ix.definitions n).filter fun other => !Check.isSelf .workspace block other)
      = (ix.definitions n).filter (· ≠ block) := by
    refine List.filter_congr fun other ho => ?_
    have hplace := samePlace_iff hv hd hscan hi (List.mem_filter.mp ho).1
    simp only [Check.isSelf, beq_self_eq_true, Bool.true_and]
    rw [Bool.eq_iff_iff, Bool.not_eq_true', Bool.eq_false_iff, ne_eq, hplace, decide_eq_true_eq]
  have hself : ((ix.definitions n).filter fun other => !Check.isSelf .apart block other)
      = ix.definitions n := List.filter_eq_self.mpr fun _ _ => rfl
  obtain ⟨pre, post, hapart, hwhole⟩ :=
    @Parse.strictly_repeated _ v.workspace ix doc block n hr .apart .workspace
  rw [hself] at hapart
  rw [hothers] at hwhole
  refine ⟨hmem, _, _, pre, post, ?_, View.run_eq_ok.mpr (Parse.run_strict hi hfile .workspace), hapart, hwhole⟩
  rw [strictReading_eq hv]
  exact View.run_eq_ok.mpr (Parse.run_strict hi hfile .apart)

/-- A strict request reads the block at a place apart from the block the workspace has there. Both
readings are the same unless the block is a script with several definitions. Then the first one lists
all of them, the block itself too, and the second one lists the others. -/
theorem strictReading_eq_iff [Similar.Matcher] (hb : s.blockAt? place = some (doc, block))
    (hv : s.view d = .ok v) :
    (∀ cache, ((s.blockReading d place true).run cache).1 = (s.strictReading d block).map fun result =>
      some ⟨block, result, ((s.buffers.get? place.uri).map (·.version)).getD 0⟩) ∧
    ∃ blocks, v.run (v.workspace.blocks place.uri) = .ok blocks ∧
      ∃ b ∈ blocks, b.start = block.start ∧ (∀ c ∈ blocks, c.start = block.start → c = b) ∧
        (s.strictReading d block = v.run (Parse.run v.workspace .workspace b true) ↔
          ∀ ix n, v.run v.workspace.index = .ok ix → ¬ Check.Repeated ix b n) ∧
        ∀ ix n, v.run v.workspace.index = .ok ix → Check.Repeated ix b n →
          b ∈ ix.definitions n ∧
          ∃ apart whole pre post, s.strictReading d block = .ok apart ∧
            v.run (Parse.run v.workspace .workspace b true) = .ok whole ∧
            apart.diagnostics
              = pre ++ Check.repeated b n (ix.definitions n) (ix.definitions n) :: post ∧
            whole.diagnostics = pre ++ Check.repeated b n (ix.definitions n)
              ((ix.definitions n).filter (· ≠ b)) :: post := by
  have hscan := blockAt?_mem hb
  obtain ⟨hdoc, hsource, _⟩ := view_source hv (blockAt?_doc hb)
  have hfile : v.source block.uri = .ok (.ofDocument doc) := by rw [Block.scan_uri hscan, hdoc, hsource]
  have hblocks := Workspace.run_blocks v.workspace hsource
  rw [Workspace.blocksFrom_ofDocument hsource] at hblocks
  refine ⟨fun cache => congrArg Prod.fst (run_blockReading_strict hb d cache),
    _, View.run_eq_ok.mpr hblocks, block, hscan, rfl,
    fun c hc hstart => Block.eq_of_start_eq hc hscan hstart, ⟨fun heq ix n hi hr => ?_, fun h => ?_⟩,
    fun ix n hi hr => strictReading_repeated hb hv hi hr⟩
  · obtain ⟨hmem, apart, whole, pre, post, hapart, hwhole, hda, hdw⟩ := strictReading_repeated hb hv hi hr
    rw [hapart, hwhole] at heq
    obtain rfl := Except.ok.inj heq
    rw [hda] at hdw
    exact Check.repeated_ne hmem n (List.cons.inj (List.append_cancel_left hdw)).1
  · rw [strictReading_eq hv]
    exact congrArg (Except.mapError ServerError.documents)
      (Parse.run_strict_origin hfile (fun ix n hi => h ix n (View.run_eq_ok.mpr hi)) .apart .workspace)

def twoDefinitions : Document :=
  .ofText "file:///a.cpp" (utf8 "SCRIPT:1,A\nENDSCRIPT\nSCRIPT:1,B\nENDSCRIPT\n")

def firstDefinition : Block := .close twoDefinitions ⟨0, .script, utf8 "1,A"⟩ 11 20 true

def secondDefinition : Block := .close twoDefinitions ⟨2, .script, utf8 "1,B"⟩ 32 41 true

def twoDefinitionsServer : Server := { buffers := { entries := [⟨twoDefinitions, 1⟩] } }

def emptyDisk : Disk := ⟨"/", .directory []⟩

def firstPlace : Place := ⟨"file:///a.cpp", ⟨0, 0⟩⟩

def twoDefinitionsView : View :=
  let snapshot := Snapshot.ofBuffers [twoDefinitions] []
  ⟨snapshot.workspace (some twoDefinitionsServer.catalog), Snapshot.source (snapshot.freeze emptyDisk.read)⟩

theorem twoDefinitions_scan : Block.scan twoDefinitions = [firstDefinition, secondDefinition] := by
  decide +kernel

theorem twoDefinitions_blockAt? :
    twoDefinitionsServer.blockAt? firstPlace = some (twoDefinitions, firstDefinition) := by
  have hblock : twoDefinitions.blockAt? ⟨0, 0⟩ = some firstDefinition := by decide +kernel
  have hdoc : twoDefinitionsServer.buffers.doc? firstPlace.uri = some twoDefinitions := rfl
  rw [blockAt?, hdoc]
  exact congrArg (Option.map (Prod.mk twoDefinitions)) hblock

theorem twoDefinitions_view : twoDefinitionsServer.view emptyDisk = .ok twoDefinitionsView := by
  have hdocs : twoDefinitionsServer.buffers.documents = [twoDefinitions] := List.mergeSort_singleton _
  have hfiles : twoDefinitionsServer.hostFiles emptyDisk = .ok [] := rfl
  rw [view, hfiles, hdocs]
  rfl

theorem twoDefinitions_index :
    twoDefinitionsView.run twoDefinitionsView.workspace.index
      = .ok ⟨[firstDefinition, secondDefinition]⟩ := by
  have hr := Snapshot.readableFrom (Snapshot.ofBuffers [twoDefinitions] [])
    (some twoDefinitionsServer.catalog) emptyDisk.read (by simp [Snapshot.ofBuffers, Snapshot.keepLast])
  have hscan : Workspace.blocksFrom twoDefinitionsView.source "file:///a.cpp" = Block.scan twoDefinitions :=
    rfl
  have huris : twoDefinitionsView.workspace.uris = ["file:///a.cpp"] := List.mergeSort_singleton _
  refine View.run_eq_ok.mpr (hr.run_index.trans ?_)
  have hblocks : (twoDefinitionsView.workspace.indexFrom twoDefinitionsView.source).blocks
      = [firstDefinition, secondDefinition] := by
    rw [Workspace.indexFrom, huris, List.flatMap_singleton, hscan, twoDefinitions_scan]
  exact congrArg (fun blocks => Except.ok (Index.mk blocks)) hblocks

theorem twoDefinitions_repeated :
    Check.Repeated ⟨[firstDefinition, secondDefinition]⟩ firstDefinition 1 := by
  refine ⟨by decide, by decide, by decide⟩

theorem strictReading_eq_iff_twoDefinitions :
    twoDefinitionsServer.blockAt? firstPlace = some (twoDefinitions, firstDefinition) ∧
      twoDefinitionsServer.view emptyDisk = .ok twoDefinitionsView ∧
      twoDefinitionsServer.strictReading emptyDisk firstDefinition
        ≠ twoDefinitionsView.run
          (Parse.run twoDefinitionsView.workspace .workspace firstDefinition true) := by
  refine ⟨twoDefinitions_blockAt?, twoDefinitions_view, ?_⟩
  obtain ⟨_, blocks, hblocks, b, _, _, hunique, hiff, _⟩ :=
    strictReading_eq_iff twoDefinitions_blockAt? twoDefinitions_view
  have hscan : twoDefinitionsView.run (twoDefinitionsView.workspace.blocks firstPlace.uri)
      = .ok (Block.scan twoDefinitions) := rfl
  obtain rfl := Except.ok.inj (hscan.symm.trans hblocks)
  obtain rfl := hunique firstDefinition (by simp [twoDefinitions_scan]) rfl
  exact fun heq => hiff.mp heq _ 1 twoDefinitions_index twoDefinitions_repeated

/-- The finding of the first of two definitions lists that definition itself. -/
theorem strictReading_lists_itself :
    twoDefinitionsServer.blockAt? firstPlace = some (twoDefinitions, firstDefinition) ∧
      twoDefinitionsServer.view emptyDisk = .ok twoDefinitionsView ∧
      ∃ apart whole diag, twoDefinitionsServer.strictReading emptyDisk firstDefinition = .ok apart ∧
        twoDefinitionsView.run (Parse.run twoDefinitionsView.workspace .workspace firstDefinition true)
          = .ok whole ∧
        apart.diagnostics ≠ whole.diagnostics ∧ diag ∈ apart.diagnostics ∧
        diag.code = Check.duplicateScript.name ∧
        diag.notes = ["also defined at /a.cpp:1:1", "also defined at /a.cpp:3:1"] := by
  obtain ⟨hmem, apart, whole, pre, post, hapart, hwhole, hda, hdw⟩ := strictReading_repeated
    twoDefinitions_blockAt? twoDefinitions_view twoDefinitions_index twoDefinitions_repeated
  refine ⟨twoDefinitions_blockAt?, twoDefinitions_view, apart, whole, _, hapart, hwhole, ?_,
    hda ▸ List.mem_append_right _ List.mem_cons_self, rfl, by decide +kernel⟩
  rw [hda, hdw]
  exact fun heq => Check.repeated_ne hmem 1 (List.cons.inj (List.append_cancel_left heq)).1

end Server

end HostScript
