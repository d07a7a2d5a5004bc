import HostScript.Proofs.Block.Layout
import HostScript.Proofs.Workspace.Frozen
import Mathlib.Data.Set.Basic

/-!
Workspaces with documents that cannot be read. Only files can be unreadable, never a buffer, and
one of them is enough to leave the workspace without an index.
-/

set_option autoImplicit false

namespace HostScript

namespace Workspace

/-- The documents of `unread` cannot be had, all other documents of the workspace can. -/
structure ReadableBut (ws : Workspace) (source : Supply) (unread : Set String) : Prop where
  found : ∀ uri ∈ ws.uris, uri ∉ unread →
    ∃ doc : Document, doc.uri = uri ∧ source uri = .ok (.ofDocument doc)
  broken : ∀ uri ∈ unread, uri ∈ ws.uris ∧ ∃ failure, source uri = .error failure
  missing : ∀ uri, uri ∉ ws.uris → source uri = .error (.notFound uri)

namespace ReadableBut

variable {ws : Workspace} {source : Supply} {unread : Set String}

theorem readableFrom (h : ws.ReadableBut source ∅) : ws.ReadableFrom source where
  found uri hu := h.found uri hu (by simp)
  missing := h.missing

theorem source_error (h : ws.ReadableBut source unread) {uri : String}
    (hu : uri ∉ ws.uris ∨ uri ∈ unread) : ∃ failure, source uri = .error failure := by
  cases hu with
  | inl hu => exact ⟨_, h.missing uri hu⟩
  | inr hu => exact (h.broken uri hu).2

theorem mem_of_source (h : ws.ReadableBut source unread) {uri : String} {file : HostFile}
    (hs : source uri = .ok file) : uri ∈ ws.uris ∧ uri ∉ unread := by
  by_contra hc
  rw [not_and_or, not_not] at hc
  obtain ⟨failure, he⟩ := h.source_error hc
  rw [he] at hs
  cases hs

theorem source_of_block (h : ws.ReadableBut source unread) {uri : String} {block : Block}
    (hb : block ∈ blocksFrom source uri) :
    ∃ doc, source block.uri = .ok (.ofDocument doc) ∧ block ∈ Block.scan doc := by
  cases hs : source uri with
  | error failure => simp [blocksFrom, hs] at hb
  | ok file =>
    obtain ⟨hu, hr⟩ := h.mem_of_source hs
    obtain ⟨doc, hd, hs⟩ := h.found uri hu hr
    rw [blocksFrom_ofDocument hs] at hb
    rw [Block.scan_uri hb, hd]
    exact ⟨doc, hs, hb⟩

theorem source_of_index (h : ws.ReadableBut source unread) {block : Block}
    (hb : block ∈ (ws.indexFrom source).blocks) :
    ∃ doc, source block.uri = .ok (.ofDocument doc) ∧ block ∈ Block.scan doc := by
  obtain ⟨_, _, hb⟩ := List.mem_flatMap.mp hb
  exact h.source_of_block hb

theorem run_index_error (h : ws.ReadableBut source unread) (hne : unread.Nonempty) :
    ∃ failure, ReadM.run source ws.index = .error failure := by
  cases hi : ReadM.run source ws.index with
  | error failure => exact ⟨failure, rfl⟩
  | ok ix =>
    obtain ⟨uri, hu⟩ := hne
    obtain ⟨hm, failure, he⟩ := h.broken uri hu
    obtain ⟨file, hf⟩ := (run_index_ok hi).2 uri hm
    rw [he] at hf
    cases hf

end ReadableBut

end Workspace

namespace Snapshot

def unread (s : Snapshot) (read : String → Except FileError Bytes) : Set String :=
  {uri | s.buffer? uri = none ∧ ∃ path cause, s.path? uri = some path ∧ read path = .error cause}

theorem not_mem_uris {s : Snapshot} {uri : String} :
    uri ∉ s.uris ↔ s.buffer? uri = none ∧ s.path? uri = none := by
  rw [s.mem_uris, List.mem_append, not_or, buffer?, path?, Option.map_eq_none_iff, List.find?_eq_none,
    List.find?_eq_none]
  simp only [List.mem_map, not_exists, not_and, beq_iff_eq]

/-- Every snapshot has the documents that its files allow for. -/
theorem readableBut (s : Snapshot) (catalog : Option Catalog)
    (read : String → Except FileError Bytes) :
    (s.workspace catalog).ReadableBut (source (s.freeze read)) (s.unread read) := by
  constructor
  case found =>
    intro uri hu hr
    have hu : uri ∈ s.uris := hu
    rw [source_freeze]
    cases hb : s.buffer? uri with
    | some doc => exact ⟨doc, by simpa using List.find?_some hb, rfl⟩
    | none =>
      cases hp : s.path? uri with
      | none => exact absurd hu (not_mem_uris.mpr ⟨hb, hp⟩)
      | some path =>
        cases ht : read path with
        | error cause => exact absurd ⟨hb, path, cause, hp, ht⟩ hr
        | ok text => exact ⟨.ofText uri text, rfl, by simp [answer, ht]⟩
  case broken =>
    rintro uri ⟨hb, path, cause, hp, ht⟩
    refine ⟨?_, .unreadable path cause, by simp [source_freeze, hb, hp, answer, ht]⟩
    by_contra hu
    rw [(not_mem_uris.mp hu).2] at hp
    cases hp
  case missing =>
    intro uri hu
    obtain ⟨hb, hp⟩ := not_mem_uris.mp hu
    simp [source_freeze, hb, hp]

end Snapshot

end HostScript
