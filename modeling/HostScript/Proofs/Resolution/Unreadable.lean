import HostScript.Proofs.Resolution.Dangling
import HostScript.Proofs.Workspace.Unreadable
import HostScript.Similar

/-!
Resolutions and checks in a workspace with unreadable documents. The index needs every document, so
what asks for it fails, and what does not ask for it never notices. A result is complete: it is what
the blocks and the index say, as in a workspace without unreadable documents.
-/

set_option autoImplicit false

namespace HostScript

namespace Resolution

variable {ws : Workspace} {source : Supply} {unread : Set String}

theorem ofDocument_ok (h : ws.ReadableBut source unread) {uri : String} {found : Resolution}
    (hr : ReadM.run source (ofDocument ws uri) = .ok found) :
    uri ∈ ws.uris ∧ uri ∉ unread ∧
      found = ofBlocks (ws.indexFrom source) (Workspace.blocksFrom source uri) := by
  cases hs : source uri with
  | error failure =>
    rw [run_ofDocument_error hs] at hr
    cases hr
  | ok file =>
    obtain ⟨hu, hn⟩ := h.mem_of_source hs
    refine ⟨hu, hn, ?_⟩
    rw [run_ofDocument_of_ok hs] at hr
    split at hr
    · cases hi : ReadM.run source ws.index with
      | error failure =>
        rw [hi] at hr
        cases hr
      | ok ix =>
        rw [hi] at hr
        rw [← (Workspace.run_index_ok hi).1]
        exact (Except.ok.inj hr).symm
    · rename_i hl
      rw [ofBlocks_of_not_leadsOut (by simpa using hl)]
      exact (Except.ok.inj hr).symm

theorem ofDocument_error_iff (h : ws.ReadableBut source unread) (uri : String) :
    (∃ failure, ReadM.run source (ofDocument ws uri) = .error failure) ↔
      uri ∉ ws.uris ∨ uri ∈ unread ∨
        unread.Nonempty ∧ leadsOut (Workspace.blocksFrom source uri) = true := by
  constructor
  · rintro ⟨failure, he⟩
    by_contra hc
    simp only [not_or, not_not, not_and, Bool.not_eq_true] at hc
    obtain ⟨hu, hn, hopen⟩ := hc
    obtain ⟨doc, _, hs⟩ := h.found uri hu hn
    rw [run_ofDocument_of_ok hs] at he
    split at he
    · rename_i hl
      have hall : unread = ∅ := by
        by_contra hne
        simp [hopen (Set.nonempty_iff_ne_empty.mpr hne)] at hl
      subst hall
      rw [h.readableFrom.run_index] at he
      cases he
    · cases he
  · rintro (hu | hu | ⟨hne, hl⟩)
    · exact ⟨_, run_ofDocument_error (h.missing uri hu)⟩
    · obtain ⟨failure, hs⟩ := (h.broken uri hu).2
      exact ⟨failure, run_ofDocument_error hs⟩
    · cases hs : source uri with
      | error failure => exact ⟨failure, run_ofDocument_error hs⟩
      | ok file =>
        obtain ⟨failure, hi⟩ := h.run_index_error hne
        exact ⟨failure, by rw [run_ofDocument_of_ok hs, if_pos hl, hi]; rfl⟩

/-- Every block that is found stands in a document that can be had. -/
theorem source_of_found (h : ws.ReadableBut source unread) {uri : String} {block : Block}
    (hb : block ∈ (ofBlocks (ws.indexFrom source) (Workspace.blocksFrom source uri)).blocks) :
    ∃ doc, source block.uri = .ok (.ofDocument doc) ∧ block ∈ Block.scan doc := by
  cases (mem_ofBlocks_iff _ _ block).mp hb with
  | focal hb => exact h.source_of_block hb
  | included _ _ _ _ hl => exact h.source_of_index (lookup_mem hl).1

theorem run_parse_error [Similar.Matcher] (h : ws.ReadableBut source unread) {block : Block} {doc : Document}
    (hs : source block.uri = .ok (.ofDocument doc)) (hne : unread.Nonempty)
    (hask : (Check.firstStrict? block).isSome = true) :
    ∃ failure, ReadM.run source (Parse.run ws .workspace block true) = .error failure := by
  obtain ⟨failure, hi⟩ := h.run_index_error hne
  obtain ⟨check, hcheck⟩ := Option.isSome_iff_exists.mp hask
  exact ⟨_, Parse.run_strict_error hi hs hcheck .workspace⟩

theorem run_parse_ok [Similar.Matcher] (h : ws.ReadableBut source unread) {block : Block} {doc : Document}
    (hs : source block.uri = .ok (.ofDocument doc))
    (hask : ¬ (unread.Nonempty ∧ (Check.firstStrict? block).isSome = true)) :
    ∃ result, ReadM.run source (Parse.run ws .workspace block true) = .ok result ∧
      result.diagnostics = Parse.findingsFrom ws source block := by
  have hread : ReadM.run source (Parse.run ws .workspace block true)
      = .ok (Parse.strictly ws (ws.indexFrom source) .workspace doc block) := by
    rcases Set.eq_empty_or_nonempty unread with rfl | hne
    · exact Parse.run_strict h.readableFrom.run_index hs .workspace
    · have hn : Check.firstStrict? block = none := by simpa [hne] using hask
      exact Parse.run_strict_unasked ws hs hn .workspace _
  exact ⟨_, hread, by simp only [Parse.findingsFrom, hs, HostFile.ofDocument]⟩

variable {uri : String}

/-- If the check of a graph asks for the index at all, it does so for a focal block: only an
include of a focal block leads to another one. -/
theorem asks_focal {blocks : List Block} (ix : Index)
    (h : ∃ b ∈ (ofBlocks ix blocks).blocks, (Check.firstStrict? b).isSome = true) :
    ∃ b ∈ blocks, (Check.firstStrict? b).isSome = true := by
  cases hl : leadsOut blocks with
  | false => simpa [ofBlocks_of_not_leadsOut hl] using h
  | true =>
    obtain ⟨b, hb, statement, hi, n, ht, _⟩ := leadsOut_iff.mp hl
    exact ⟨b, hb, Check.firstStrict?_isSome.mpr (Or.inr ⟨statement, hi, by simp [ht]⟩)⟩

theorem check_ok [Similar.Matcher] (h : ws.ReadableBut source unread) {errors : List Diagnostic}
    (hc : ((GraphCheck.run ws uri none).run source).outcome = .ok errors) :
    ∃ found, ReadM.run source (ofDocument ws uri) = .ok found ∧
      errors = Diagnostic.errors (found.blocks.flatMap (Parse.findingsFrom ws source)) := by
  cases hr : ReadM.run source (ofDocument ws uri) with
  | error failure =>
    rw [run_check_error none hr] at hc
    cases hc
  | ok found =>
    refine ⟨found, rfl, ?_⟩
    rw [run_check none hr] at hc
    obtain ⟨_, _, rfl⟩ := ofDocument_ok h hr
    have hread : ∀ b ∈ (ofBlocks (ws.indexFrom source) (Workspace.blocksFrom source uri)).blocks,
        ∃ result, ReadM.run source (Parse.run ws .workspace b true) = .ok result ∧
          result.diagnostics = Parse.findingsFrom ws source b := by
      intro b hb
      obtain ⟨doc, hs, _⟩ := source_of_found h hb
      refine run_parse_ok h hs fun ⟨hne, hask⟩ => ?_
      obtain ⟨failure, he⟩ := GraphCheck.visit_error ⟨b, hb, run_parse_error h hs hne hask⟩ none _ 0
      rw [he] at hc
      cases hc
    rw [GraphCheck.visit_ok hread] at hc
    exact (Except.ok.inj hc).symm

theorem check_error_iff [Similar.Matcher] (h : ws.ReadableBut source unread) (uri : String) :
    (∃ failure, ((GraphCheck.run ws uri none).run source).outcome = .error failure) ↔
      uri ∉ ws.uris ∨ uri ∈ unread ∨ unread.Nonempty ∧
        ∃ b ∈ Workspace.blocksFrom source uri, (Check.firstStrict? b).isSome = true := by
  constructor
  · rintro ⟨failure, he⟩
    by_contra hc
    simp only [not_or, not_not] at hc
    obtain ⟨hu, hn, hask⟩ := hc
    cases hr : ReadM.run source (ofDocument ws uri) with
    | error failure =>
      rcases (ofDocument_error_iff h uri).mp ⟨failure, hr⟩ with hu' | hn' | ⟨hne, hl⟩
      · exact hu' hu
      · exact hn hn'
      · obtain ⟨b, hb, statement, hi, n, ht, _⟩ := leadsOut_iff.mp hl
        exact hask ⟨hne, b, hb, Check.firstStrict?_isSome.mpr (Or.inr ⟨statement, hi, by simp [ht]⟩)⟩
    | ok found =>
      obtain ⟨_, _, rfl⟩ := ofDocument_ok h hr
      have hread : ∀ b ∈ (ofBlocks (ws.indexFrom source) (Workspace.blocksFrom source uri)).blocks,
          ∃ result, ReadM.run source (Parse.run ws .workspace b true) = .ok result ∧
            result.diagnostics = Parse.findingsFrom ws source b := by
        intro b hb
        obtain ⟨doc, hs, _⟩ := source_of_found h hb
        exact run_parse_ok h hs fun hc => hask ⟨hc.1, asks_focal _ ⟨b, hb, hc.2⟩⟩
      rw [run_check none hr, GraphCheck.visit_ok hread] at he
      cases he
  · intro hc
    cases hr : ReadM.run source (ofDocument ws uri) with
    | error failure => exact ⟨failure, run_check_error none hr⟩
    | ok found =>
      obtain ⟨hu, hn, rfl⟩ := ofDocument_ok h hr
      rcases hc with hu' | hn' | ⟨hne, b, hb, hask⟩
      · exact absurd hu hu'
      · exact absurd hn' hn
      · obtain ⟨doc, hs, _⟩ := h.source_of_block hb
        have hm : b ∈ (ofBlocks (ws.indexFrom source) (Workspace.blocksFrom source uri)).blocks :=
          List.mem_append_left _ hb
        obtain ⟨failure, he⟩ := GraphCheck.visit_error ⟨b, hm, run_parse_error h hs hne hask⟩ none _ 0
        exact ⟨failure, by rw [run_check none hr, he]; rfl⟩

/-- Of a document that cannot be had there are no blocks, as of an empty one. -/
theorem covers_focal {source : Supply} {uri : String} (ix : Index) :
    Covers ix (Workspace.blocksFrom source uri) (ofBlocks ix (Workspace.blocksFrom source uri)) := by
  cases hs : source uri with
  | error failure =>
    have hb : Workspace.blocksFrom source uri = Block.scan (.ofText uri []) := by
      rw [Workspace.blocksFrom, hs]
      rfl
    rw [hb]
    exact ofBlocks_covers ix _
  | ok file =>
    have hb : Workspace.blocksFrom source uri = Block.scan file.doc := by
      rw [Workspace.blocksFrom, hs]
      exact file.blocks_eq
    rw [hb]
    exact ofBlocks_covers ix _

end Resolution

namespace Session

open Resolution (Covers covers_focal)

theorem returned_fixed [Similar.Matcher] (buffers : List Document) (paths : List String)
    (catalog : Option Catalog) (text : String → Except FileError Bytes) (queries : List Query) :
    let s := Snapshot.ofBuffers buffers paths
    returned s catalog (fixed text) () queries = queries.map fun query =>
      (query.reading (s.workspace catalog)).run (Snapshot.source (s.freeze text)) :=
  (computes_replies (Snapshot.uri_of_path? buffers paths) _ queries).start_fixed
    (records_replies _ _ _ queries)

/-- Whatever a workspace has been asked before, a resolution fails exactly if its document cannot be
had, or if one of the workspace cannot and an include leads out of the document; a check fails
exactly if its document cannot be had, or if one of the workspace cannot and the document has a
block with a number or an include of one. Whatever succeeds is complete. -/
theorem returned_error_iff [Similar.Matcher] (buffers : List Document) (paths : List String)
    (catalog : Option Catalog) (text : String → Except FileError Bytes) (queries : List Query)
    (i : Nat) (uri : String) :
    let s := Snapshot.ofBuffers buffers paths
    let ws := s.workspace catalog
    let source := Snapshot.source (s.freeze text)
    let unread := s.unread text
    let focal := Workspace.blocksFrom source uri
    let replies := returned s catalog (fixed text) () queries
    (queries[i]? = some (.resolve uri) →
      ∃ result, replies[i]? = some (.resolve result) ∧
        ((∃ failure, result = .error failure) ↔ uri ∉ s.uris ∨ uri ∈ unread ∨ unread.Nonempty ∧
          ∃ b ∈ focal, ∃ statement ∈ b.includes, ∃ n, statement.target = some n ∧
            ∀ f ∈ focal, f.defines n = false) ∧
        ∀ found, result = .ok found → Covers (ws.indexFrom source) focal found) ∧
    (queries[i]? = some (.check uri none) →
      ∃ check, replies[i]? = some (.check check) ∧
        ((∃ failure, check.outcome = .error failure) ↔ uri ∉ s.uris ∨ uri ∈ unread ∨
          unread.Nonempty ∧ ∃ b ∈ focal, b.number.isSome = true ∨
            ∃ statement ∈ b.includes, statement.target.isSome = true) ∧
        ∀ errors, check.outcome = .ok errors → ∃ found, Covers (ws.indexFrom source) focal found ∧
          errors = Diagnostic.errors (found.blocks.flatMap (Parse.findingsFrom ws source))) := by
  intro s ws source unread focal replies
  have hread : ws.ReadableBut source unread := s.readableBut catalog text
  have hreplies : replies = queries.map fun query => (query.reading ws).run source :=
    returned_fixed buffers paths catalog text queries
  constructor
  · intro hq
    refine ⟨ReadM.run source (Resolution.ofDocument ws uri), ?_, ?_, fun found hr => ?_⟩
    · rw [hreplies, List.getElem?_map, hq, Option.map_some, Query.reading, Reading.run_map]
      rfl
    · have hiff := Resolution.ofDocument_error_iff hread uri
      rwa [Resolution.leadsOut_iff] at hiff
    · rw [(Resolution.ofDocument_ok hread hr).2.2]
      exact covers_focal _
  · intro hq
    refine ⟨(GraphCheck.run ws uri none).run source, ?_, ?_, fun errors hc => ?_⟩
    · rw [hreplies, List.getElem?_map, hq, Option.map_some, Query.reading, Reading.run_map]
    · have hiff := Resolution.check_error_iff hread uri
      simp only [Check.firstStrict?_isSome] at hiff
      exact hiff
    · obtain ⟨found, hr, he⟩ := Resolution.check_ok hread hc
      refine ⟨found, ?_, he⟩
      rw [(Resolution.ofDocument_ok hread hr).2.2]
      exact covers_focal _

def lonely : Document := .ofText "a" (utf8 "SCRIPT:1,A\nENDSCRIPT\n")

def brokenDisk (path : String) : Except FileError Bytes := .error (.missing "open" path)

theorem returned_error_iff_lonely :
    let s := Snapshot.ofBuffers [lonely] ["b"]
    let replies := returned s none (fixed brokenDisk) () [.index, .resolve "a", .check "a" none]
    (∃ found, replies[1]? = some (.resolve (.ok found))) ∧
      ∃ check failure, replies[2]? = some (.check check) ∧ check.outcome = .error failure := by
  intro s replies
  have hother : (lonely.uri == uriOfPath "b") = false := by decide +kernel
  have hs : s = ⟨[lonely], [(uriOfPath "b", "b")]⟩ := by
    simp [s, Snapshot.ofBuffers, Snapshot.keepLast, hother]
  have hsource : Snapshot.source (s.freeze brokenDisk) "a" = .ok (.ofDocument lonely) := by
    rw [hs]
    rfl
  have hfocal := Workspace.blocksFrom_ofDocument hsource
  have hmem : "a" ∈ s.uris := (s.mem_uris "a").mpr (by rw [hs]; exact List.mem_cons_self)
  have hread : "a" ∉ s.unread brokenDisk := by
    rintro ⟨hb, _⟩
    rw [hs] at hb
    cases hb
  have hbroken : (s.unread brokenDisk).Nonempty := by
    refine ⟨uriOfPath "b", ?_, "b", .missing "open" "b", ?_, rfl⟩ <;> rw [hs] <;> decide +kernel
  have hblocks : ∃ b ∈ Block.scan lonely, b.number = some 1 ∧ ∀ c ∈ Block.scan lonely, c.includes = [] := by
    decide +kernel
  obtain ⟨b, hb, hnumber, hnone⟩ := hblocks
  obtain ⟨result, hresult, hfails, _⟩ := (returned_error_iff [lonely] ["b"] none brokenDisk
    [.index, .resolve "a", .check "a" none] 1 "a").1 rfl
  obtain ⟨check, hcheck, hfailed, _⟩ := (returned_error_iff [lonely] ["b"] none brokenDisk
    [.index, .resolve "a", .check "a" none] 2 "a").2 rfl
  constructor
  · cases result with
    | ok found => exact ⟨found, hresult⟩
    | error failure =>
      rcases hfails.mp ⟨failure, rfl⟩ with hu | hu | ⟨_, c, hc, statement, hi, _⟩
      · exact absurd hmem hu
      · exact absurd hu hread
      · rw [hfocal] at hc
        rw [hnone c hc] at hi
        cases hi
  · obtain ⟨failure, he⟩ := hfailed.mpr
      (Or.inr (Or.inr ⟨hbroken, b, by rw [hfocal]; exact hb, Or.inl (by rw [hnumber]; rfl)⟩))
    exact ⟨check, failure, hcheck, he⟩

end Session

end HostScript
