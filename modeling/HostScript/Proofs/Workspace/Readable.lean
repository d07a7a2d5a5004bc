import HostScript.Snapshot
import Mathlib.Data.List.Basic

/-!
What a computation on documents gives when it is run. In a workspace whose documents can all be
read, blocks and index are those of the documents, and nothing fails but a request for a document
that the workspace does not have.
-/

set_option autoImplicit false

namespace HostScript

abbrev Supply := String → Except Failure HostFile

theorem Reading.run_bind {α β : Type} (source : Supply) (x : Reading α) (f : α → Reading β) :
    (x.bind f).run source = (f (x.run source)).run source := by
  induction x with
  | done a => rfl
  | ask request next ih => exact ih (answer source request)

@[simp] theorem Reading.run_pure {α : Type} (source : Supply) (a : α) :
    Reading.run source (pure a) = a := rfl

@[simp] theorem Reading.run_do {α β : Type} (source : Supply) (x : Reading α) (f : α → Reading β) :
    Reading.run source (x >>= f) = (f (x.run source)).run source := Reading.run_bind source x f

theorem Reading.run_map {α β : Type} (source : Supply) (f : α → β) (x : Reading α) :
    Reading.run source (f <$> x) = f (x.run source) := Reading.run_bind source x _

namespace ReadM

@[simp] theorem run_pure {α : Type} (source : Supply) (a : α) :
    ReadM.run source (pure a) = .ok a := rfl

@[simp] theorem run_ask (source : Supply) (request : Reading.Request) :
    ReadM.run source (ReadM.ask request) = Reading.answer source request := rfl

theorem run_bind {α β : Type} (source : Supply) (x : ReadM α) (f : α → ReadM β) :
    ReadM.run source (x >>= f) = (ReadM.run source x).bind fun a => ReadM.run source (f a) := by
  have h := Reading.run_bind source (ExceptT.run x) (ExceptT.bindCont f)
  have hr : ReadM.run source (x >>= f)
      = Reading.run source ((ExceptT.run x).bind (ExceptT.bindCont f)) := rfl
  rw [hr, h]
  cases hx : Reading.run source (ExceptT.run x) <;> simp [ReadM.run, hx, ExceptT.bindCont] <;> rfl

theorem run_bind_ok {α β : Type} {source : Supply} {x : ReadM α} {a : α}
    (h : ReadM.run source x = .ok a) (f : α → ReadM β) :
    ReadM.run source (x >>= f) = ReadM.run source (f a) := by
  rw [run_bind, h]
  rfl

theorem run_bind_error {α β : Type} {source : Supply} {x : ReadM α} {e : Failure}
    (h : ReadM.run source x = .error e) (f : α → ReadM β) :
    ReadM.run source (x >>= f) = .error e := by
  rw [run_bind, h]
  rfl

/-- A computation for each item succeeds with what is known of each result. -/
theorem run_mapM {α β γ : Type} {source : Supply} {f : α → ReadM β} {p : β → γ} {q : α → γ} {as : List α}
    (h : ∀ a ∈ as, ∃ b, ReadM.run source (f a) = .ok b ∧ p b = q a) :
    ∃ bs, ReadM.run source (as.mapM f) = .ok bs ∧ bs.map p = as.map q := by
  -- The results so far are kept in reverse.
  have hloop (before : List β) : ∃ bs, ReadM.run source (List.mapM.loop f as before) = .ok bs ∧
      bs.map p = before.reverse.map p ++ as.map q := by
    induction as generalizing before with
    | nil => exact ⟨before.reverse, rfl, by simp⟩
    | cons a as ih =>
      obtain ⟨b, hb, hp⟩ := h a (by simp)
      obtain ⟨bs, hbs, heq⟩ := ih (fun a ha => h a (by simp [ha])) (b :: before)
      refine ⟨bs, ?_, by simp [heq, hp]⟩
      rw [List.mapM.loop, run_bind_ok hb, hbs]
  obtain ⟨bs, hbs, heq⟩ := hloop []
  exact ⟨bs, hbs, by simpa using heq⟩

theorem run_within {α : Type} (source : Supply) (context : Failure → Failure) (x : ReadM α) :
    ReadM.run source (ReadM.within context x) = (ReadM.run source x).mapError context :=
  Reading.run_bind source _ _

end ReadM

namespace Workspace

/-- Every document of the workspace can be had, and no other one. -/
structure ReadableFrom (ws : Workspace) (source : Supply) : Prop where
  found : ∀ uri ∈ ws.uris, ∃ doc : Document, doc.uri = uri ∧ source uri = .ok (.ofDocument doc)
  missing : ∀ uri, uri ∉ ws.uris → source uri = .error (.notFound uri)

/-- The blocks of the document of a URI, none if it cannot be had. -/
def blocksFrom (source : Supply) (uri : String) : List Block :=
  match source uri with
  | .ok file => file.blocks
  | .error _ => []

theorem blocksFrom_ofDocument {source : Supply} {uri : String} {doc : Document}
    (h : source uri = .ok (.ofDocument doc)) : blocksFrom source uri = Block.scan doc := by
  simp only [blocksFrom, h, HostFile.ofDocument]

def indexFrom (ws : Workspace) (source : Supply) : Index := ⟨ws.uris.flatMap (blocksFrom source)⟩

@[simp] theorem run_document (source : Supply) (ws : Workspace) (uri : String) :
    ReadM.run source (ws.document uri) = (source uri).map (·.doc) := rfl

theorem run_document_ok {source : Supply} {uri : String} {file : HostFile} (ws : Workspace)
    (h : source uri = .ok file) : ReadM.run source (ws.document uri) = .ok file.doc := by
  rw [run_document, h]
  rfl

theorem run_blocks {source : Supply} {uri : String} {file : HostFile} (ws : Workspace)
    (h : source uri = .ok file) : ReadM.run source (ws.blocks uri) = .ok (blocksFrom source uri) := by
  rw [blocks, ReadM.run_ask, Reading.answer, blocksFrom, h]
  rfl

theorem run_index (source : Supply) (ws : Workspace) :
    ReadM.run source ws.index = (Reading.gather source ws.uris).map .mk := rfl

theorem gather_eq {source : Supply} {uris : List String}
    (h : ∀ uri ∈ uris, ∃ file, source uri = .ok file) :
    Reading.gather source uris = .ok (uris.flatMap (blocksFrom source)) := by
  induction uris with
  | nil => rfl
  | cons uri uris ih =>
    obtain ⟨file, hf⟩ := h uri (by simp)
    have ih := ih fun u hu => h u (by simp [hu])
    have hb : blocksFrom source uri = file.blocks := by simp [blocksFrom, hf]
    rw [Reading.gather, hf, ih, List.flatMap_cons, hb]
    rfl

theorem ReadableFrom.run_index {ws : Workspace} {source : Supply} (h : ws.ReadableFrom source) :
    ReadM.run source ws.index = .ok (ws.indexFrom source) := by
  have hg : Reading.gather source ws.uris = .ok (ws.uris.flatMap (blocksFrom source)) := by
    apply gather_eq
    intro uri hu
    obtain ⟨doc, _, hs⟩ := h.found uri hu
    exact ⟨_, hs⟩
  rw [Workspace.run_index, hg]
  rfl

theorem gather_ok {source : Supply} {uris : List String} {bs : List Block}
    (h : Reading.gather source uris = .ok bs) :
    bs = uris.flatMap (blocksFrom source) ∧ ∀ uri ∈ uris, ∃ file, source uri = .ok file := by
  have hfound : ∀ uri ∈ uris, ∃ file, source uri = .ok file := by
    induction uris generalizing bs with
    | nil => simp
    | cons uri uris ih =>
      cases hf : source uri with
      | error e =>
        rw [Reading.gather, hf] at h
        cases h
      | ok file =>
        cases hg : Reading.gather source uris with
        | error e =>
          rw [Reading.gather, hf, hg] at h
          cases h
        | ok rest =>
          intro u hu
          cases List.mem_cons.mp hu with
          | inl hu => exact ⟨file, hu ▸ hf⟩
          | inr hu => exact ih hg u hu
  exact ⟨Except.ok.inj (h.symm.trans (gather_eq hfound)), hfound⟩

/-- If there is an index, it has the blocks of all documents. -/
theorem run_index_ok {ws : Workspace} {source : Supply} {ix : Index}
    (h : ReadM.run source ws.index = .ok ix) :
    ix = ws.indexFrom source ∧ ∀ uri ∈ ws.uris, ∃ file, source uri = .ok file := by
  rw [run_index] at h
  cases hg : Reading.gather source ws.uris with
  | error e =>
    rw [hg] at h
    cases h
  | ok bs =>
    rw [hg] at h
    obtain ⟨rfl, hfound⟩ := gather_ok hg
    exact ⟨(Except.ok.inj h).symm, hfound⟩

theorem mem_indexFrom {ws : Workspace} {source : Supply} {uri : String} {b : Block}
    (hu : uri ∈ ws.uris) (hb : b ∈ blocksFrom source uri) : b ∈ (ws.indexFrom source).blocks :=
  List.mem_flatMap.mpr ⟨uri, hu, hb⟩

end Workspace

namespace Snapshot

theorem mem_uris (s : Snapshot) (uri : String) :
    uri ∈ s.uris ↔ uri ∈ s.buffers.map (·.uri) ++ s.files.map (·.1) := by
  simp only [uris, sortStrings, List.mem_mergeSort]

theorem freeze_entry {s : Snapshot} {read : String → Except FileError Bytes}
    (h : ∀ file ∈ s.files, ∃ text, read file.2 = .ok text) {uri : String}
    {found : Except Failure HostFile} (hm : (uri, found) ∈ s.freeze read) :
    ∃ doc : Document, doc.uri = uri ∧ found = .ok (.ofDocument doc) := by
  simp only [freeze, List.mem_append, List.mem_map, Prod.mk.injEq] at hm
  rcases hm with ⟨doc, _, hu, hf⟩ | ⟨file, hfile, hu, hf⟩
  · exact ⟨doc, hu, hf.symm⟩
  · obtain ⟨text, ht⟩ := h file hfile
    refine ⟨.ofText uri text, rfl, ?_⟩
    rw [← hf, ← hu, ht]
    rfl

theorem mem_of_source {frozen : Loaded} {uri : String} {file : HostFile}
    (h : source frozen uri = .ok file) : (uri, .ok file) ∈ frozen := by
  cases hl : frozen.lookup uri with
  | none => simp [source, hl] at h
  | some found =>
    obtain rfl : found = .ok file := by simpa [source, hl] using h
    obtain ⟨before, after, hs, _⟩ := List.lookup_eq_some_iff.mp hl
    simp [hs]

theorem source_uri {s : Snapshot} {read : String → Except FileError Bytes} {uri : String}
    {file : HostFile} (h : source (s.freeze read) uri = .ok file) : file.doc.uri = uri := by
  have hm := mem_of_source h
  simp only [freeze, List.mem_append, List.mem_map, Prod.mk.injEq] at hm
  rcases hm with ⟨doc, _, hu, hf⟩ | ⟨⟨u, path⟩, _, hu, hf⟩
  · obtain rfl := Except.ok.inj hf
    exact hu
  · cases hr : read path with
    | error e => simp [hr, answer] at hf
    | ok text =>
      simp only [hr, answer, Except.ok.injEq] at hf
      subst hf
      exact hu

theorem keepLast_of_nodup {α : Type} {key : α → String} {as : List α} (h : (as.map key).Nodup) :
    keepLast key as = as := by
  induction as with
  | nil => rfl
  | cons a as ih =>
    rw [List.map_cons, List.nodup_cons] at h
    have hnone : as.any (key · == key a) = false := by
      rw [List.any_eq_false]
      intro b hb he
      exact h.1 (List.mem_map.mpr ⟨b, hb, by simpa using he⟩)
    simp [keepLast, hnone, ih h.2]

theorem mem_of_mem_keepLast {α : Type} {key : α → String} {as : List α} {a : α} (h : a ∈ keepLast key as) :
    a ∈ as := by
  induction as with
  | nil => exact h
  | cons b as ih =>
    rw [keepLast] at h
    split at h
    · exact List.mem_cons_of_mem b (ih h)
    · cases List.mem_cons.mp h with
      | inl h => exact h ▸ List.mem_cons_self
      | inr h => exact List.mem_cons_of_mem b (ih h)

theorem key_mem_keepLast {α : Type} {key : α → String} {as : List α} {a : α} (h : a ∈ as) :
    key a ∈ (keepLast key as).map key := by
  induction as generalizing a with
  | nil => cases h
  | cons b as ih =>
    rw [keepLast]
    split
    · rename_i hlater
      cases List.mem_cons.mp h with
      | inl h =>
        obtain ⟨c, hc, heq⟩ := List.any_eq_true.mp hlater
        rw [h, ← eq_of_beq heq]
        exact ih hc
      | inr h => exact ih h
    · cases List.mem_cons.mp h with
      | inl h => simp [h]
      | inr h => exact List.mem_cons_of_mem _ (ih h)

theorem lookup_buffers {buffers : List Document} (h : (buffers.map (·.uri)).Nodup) {doc : Document}
    (hm : doc ∈ buffers) (files : Loaded) :
    (buffers.map (fun doc : Document => (doc.uri, Except.ok (HostFile.ofDocument doc))) ++ files).lookup doc.uri
      = some (.ok (.ofDocument doc)) := by
  induction buffers with
  | nil => cases hm
  | cons first buffers ih =>
    rw [List.map_cons, List.nodup_cons] at h
    cases List.mem_cons.mp hm with
    | inl he => simp [he]
    | inr hm =>
      have hne : (doc.uri == first.uri) = false :=
        beq_false_of_ne fun he => h.1 (he ▸ List.mem_map_of_mem (f := Document.uri) hm)
      rw [List.map_cons, List.cons_append, List.lookup_cons, hne]
      exact ih h.2 hm

theorem source_buffer {s : Snapshot} (h : (s.buffers.map (·.uri)).Nodup)
    (read : String → Except FileError Bytes) {doc : Document} (hm : doc ∈ s.buffers) :
    source (s.freeze read) doc.uri = .ok (.ofDocument doc) := by
  rw [source, freeze, lookup_buffers h hm]
  rfl

theorem freeze_keys (s : Snapshot) (read : String → Except FileError Bytes) :
    (s.freeze read).map (·.1) = s.buffers.map (·.uri) ++ s.files.map (·.1) := by
  simp [freeze, Function.comp_def]

theorem readableFrom (s : Snapshot) (catalog : Option Catalog)
    (read : String → Except FileError Bytes)
    (h : ∀ file ∈ s.files, ∃ text, read file.2 = .ok text) :
    (s.workspace catalog).ReadableFrom (source (s.freeze read)) := by
  have hk (uri : String) : uri ∈ (s.workspace catalog).uris ↔ uri ∈ (s.freeze read).map (·.1) := by
    rw [freeze_keys]
    exact s.mem_uris uri
  have hn (uri : String) : (s.freeze read).lookup uri = none ↔ uri ∉ (s.workspace catalog).uris := by
    rw [hk, List.lookup_eq_none_iff]
    simp only [List.mem_map, not_exists, not_and, bne_iff_ne]
    exact ⟨fun hp p hm he => hp p hm he.symm, fun hp p hm he => hp p hm he.symm⟩
  refine ⟨fun uri hu => ?_, fun uri hu => ?_⟩
  · cases hl : (s.freeze read).lookup uri with
    | none => exact absurd hu ((hn uri).mp hl)
    | some found =>
      obtain ⟨before, after, hs, _⟩ := List.lookup_eq_some_iff.mp hl
      have hm : (uri, found) ∈ s.freeze read := by simp [hs]
      obtain ⟨doc, hd, hf⟩ := freeze_entry h hm
      exact ⟨doc, hd, by simp [source, hl, hf]⟩
  · simp [source, (hn uri).mpr hu]

end Snapshot

end HostScript
