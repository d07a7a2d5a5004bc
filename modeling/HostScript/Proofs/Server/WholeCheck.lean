import HostScript.Catalog.Yaml
import HostScript.Proofs.Check.Sites
import HostScript.Proofs.Check.Strictness
import HostScript.Proofs.Registry.Answers
import HostScript.Proofs.Resolution.Unreadable
import HostScript.Proofs.Server.StrictReading
import HostScript.Similar

/-!
What a whole check publishes. Errors and live findings of a document may overlap; as no two findings
of a document share place and code, leaving out what says the same loses nothing.
-/

set_option autoImplicit false

namespace HostScript

namespace Diagnostic

theorem saysSame_iff {a b : Diagnostic} :
    a.saysSame b = true ↔ a.range = b.range ∧ a.code = b.code ∧ a.message = b.message := by
  simp [saysSame, and_assoc]

theorem addMissing_pairwise {known : List Diagnostic} (h : known.Pairwise fun a b => a.saysSame b = false)
    (ds : List Diagnostic) : (addMissing known ds).Pairwise fun a b => a.saysSame b = false := by
  induction ds generalizing known with
  | nil => exact h
  | cons d ds ih =>
    rw [addMissing]
    split
    · exact ih h
    · rename_i hnone
      refine ih (List.pairwise_append.mpr ⟨h, List.pairwise_singleton _ _, fun a ha b hb => ?_⟩)
      rw [List.mem_singleton.mp hb]
      simpa using fun hsame => hnone (List.any_eq_true.mpr ⟨a, ha, hsame⟩)

/-- If findings that say the same are the same, all of them are kept. -/
theorem mem_addMissing {known ds : List Diagnostic}
    (h : ∀ a ∈ known ++ ds, ∀ b ∈ known ++ ds, a.saysSame b = true → a = b) (x : Diagnostic) :
    x ∈ addMissing known ds ↔ x ∈ known ∨ x ∈ ds := by
  induction ds generalizing known with
  | nil => simp [addMissing]
  | cons d ds ih =>
    rw [addMissing]
    split
    · rename_i hany
      obtain ⟨a, ha, hsame⟩ := List.any_eq_true.mp hany
      obtain rfl : a = d := h a (by simp [ha]) d (by simp) hsame
      rw [ih fun a ha b hb => h a (by grind) b (by grind)]
      grind
    · rw [ih fun a ha b hb => h a (by simpa using ha) b (by simpa using hb)]
      grind

theorem saysSame_comm (a b : Diagnostic) : a.saysSame b = b.saysSame a := by
  simp only [saysSame, BEq.comm]

theorem merge_pairwise {known : List Diagnostic} (h : known.Pairwise fun a b => a.saysSame b = false)
    (ds : List Diagnostic) : (merge known ds).Pairwise fun a b => a.saysSame b = false :=
  ((addMissing_pairwise h ds).perm (List.mergeSort_perm _ _).symm) fun hab => by
    rwa [saysSame_comm]

theorem mem_merge {known ds : List Diagnostic}
    (h : ∀ a ∈ known ++ ds, ∀ b ∈ known ++ ds, a.saysSame b = true → a = b) (x : Diagnostic) :
    x ∈ merge known ds ↔ x ∈ known ∨ x ∈ ds := by
  rw [merge, sort, List.mem_mergeSort, mem_addMissing h]

end Diagnostic

namespace WholeCheck

open ParseCache (Gives)

theorem run_of_ok [Similar.Matcher] {s : Server} (hs : s.Sound) {d : Disk} {focal : String}
    (after : Option Nat) {v : View} {found : Resolution} {errors : List Diagnostic} (hv : s.view d = .ok v)
    (hr : v.run (Resolution.ofDocument v.workspace focal) = .ok found)
    (hc : (Reading.run v.source (GraphCheck.run v.workspace focal (stop? s after))).outcome = .ok errors) :
    let check := ((run s d focal after).run s.cache).1
    check.outcome = .ok errors ∧ check.published = (uris focal found.blocks).map fun uri =>
      .publish uri (shown s v.workspace errors uri) := by
  cases hall : Reading.run v.source (GraphCheck.run v.workspace focal (stop? s after)) with
  | mk progress outcome =>
    obtain rfl : outcome = .ok errors := by rw [← hc, hall]
    have hgives : Gives s.catalog (run s d focal after) ⟨progress, .ok errors,
        (uris focal found.blocks).map fun uri => .publish uri (shown s v.workspace errors uri)⟩ := by
      simp only [run, hv, hr, hall]
      exact (publish_gives (Server.view_catalog hv) errors (uris focal found.blocks)).bind (.pure _)
    have hcheck := (hgives s.cache hs).1
    exact ⟨congrArg WholeCheck.outcome hcheck, congrArg published hcheck⟩

/-- A check fails and publishes nothing, or everything it asks for succeeds. -/
theorem run_cases [Similar.Matcher] (s : Server) (d : Disk) (focal : String) (after : Option Nat) :
    let check := ((run s d focal after).run s.cache).1
    (∃ e, check.outcome = .error e ∧ check.published = []) ∨
      ∃ v found errors, s.view d = .ok v ∧
        v.run (Resolution.ofDocument v.workspace focal) = .ok found ∧
        (Reading.run v.source (GraphCheck.run v.workspace focal (stop? s after))).outcome = .ok errors := by
  intro check
  cases hv : s.view d with
  | error e =>
    have hcheck : check = ⟨[], .error e, []⟩ := by
      simp only [check, run, hv]
      rfl
    exact Or.inl ⟨e, by simp [hcheck]⟩
  | ok v =>
    cases hr : v.run (Resolution.ofDocument v.workspace focal) with
    | error e =>
      have hcheck : check = ⟨[], .error e, []⟩ := by
        simp only [check, run, hv, hr]
        rfl
      exact Or.inl ⟨e, by simp [hcheck]⟩
    | ok found =>
      cases hall : Reading.run v.source (GraphCheck.run v.workspace focal (stop? s after)) with
      | mk progress outcome =>
        cases outcome with
        | error e =>
          have hcheck : check = ⟨progress, .error (.documents e), []⟩ := by
            simp only [check, run, hv, hr, hall]
            rfl
          exact Or.inl ⟨.documents e, by simp [hcheck]⟩
        | ok errors => exact Or.inr ⟨v, found, errors, rfl, hr, by rw [hall]⟩

theorem mem_uris {focal : String} {blocks : List Block} {uri : String} :
    uri ∈ uris focal blocks ↔ uri = focal ∨ ∃ b ∈ blocks, b.uri = uri := by
  rw [uris, mem_dropRepeats, sortStrings, List.mem_mergeSort, List.mem_cons, List.mem_map]

theorem uris_nodup (focal : String) (blocks : List Block) : (uris focal blocks).Nodup := by
  have hle (a b : String) : (!decide (b < a)) = true ↔ a ≤ b := by
    rw [Bool.not_eq_true', decide_eq_false_iff_not, String.not_lt]
  have hlt : (uris focal blocks).Pairwise (· < ·) := by
    refine pairwise_dropRepeats (fun a => (hle a a).mpr (String.le_refl a))
      (fun a b c hab hne hbc => ?_) (List.pairwise_mergeSort (fun a b c hab hbc => ?_) (fun a b => ?_) _)
    · rw [hle] at hab hbc
      by_contra hnot
      exact hne (String.le_antisymm hab (String.le_trans hbc (String.not_lt.mp hnot)))
    · rw [hle] at hab hbc ⊢
      exact String.le_trans hab hbc
    · rw [Bool.or_eq_true, hle, hle]
      exact String.le_total a b
  refine hlt.imp fun {a b} hab => ?_
  rintro rfl
  exact String.lt_irrefl a hab

section Findings

variable [Similar.Matcher] {ws : Workspace} {source : Supply}

theorem findingsFrom_eq {b : Block} {doc : Document} (hs : source b.uri = .ok (.ofDocument doc)) :
    Parse.findingsFrom ws source b
      = (Parse.strictly ws (ws.indexFrom source) .workspace doc b).diagnostics := by
  simp only [Parse.findingsFrom, hs, HostFile.ofDocument]

theorem uri_of_findingsFrom {b : Block} {doc : Document} (hs : source b.uri = .ok (.ofDocument doc))
    (hb : b ∈ Block.scan doc) {x : Diagnostic} (hx : x ∈ Parse.findingsFrom ws source b) :
    x.uri = b.uri := by
  rw [findingsFrom_eq hs] at hx
  rw [((Parse.strictly_sites ws _ .workspace hb).2 x hx).1, Block.scan_uri hb]

theorem findings_nodup {blocks : List Block} (hn : blocks.Nodup)
    (hs : ∀ b ∈ blocks, ∃ doc, source b.uri = .ok (.ofDocument doc) ∧ b ∈ Block.scan doc) :
    (blocks.flatMap (Parse.findingsFrom ws source)).Nodup := by
  refine List.nodup_flatMap.mpr ⟨fun b hb => ?_, hn.imp_of_mem fun {a b} ha hb hne => ?_⟩
  · obtain ⟨doc, hs, hb⟩ := hs b hb
    rw [findingsFrom_eq hs]
    exact (Parse.strictly_sites ws _ .workspace hb).1.of_map _
  · obtain ⟨doc, hsa, ha⟩ := hs a ha
    obtain ⟨doc', hsb, hb⟩ := hs b hb
    refine List.disjoint_left.mpr fun x hxa hxb => hne ?_
    have huri : a.uri = b.uri :=
      (uri_of_findingsFrom hsa ha hxa).symm.trans (uri_of_findingsFrom hsb hb hxb)
    rw [huri, hsb] at hsa
    obtain rfl : doc' = doc := congrArg HostFile.doc (Except.ok.inj hsa)
    rw [findingsFrom_eq hsb] at hxb
    rw [findingsFrom_eq (huri ▸ hsb)] at hxa
    exact Parse.block_eq_of_start ha hb hxa hxb rfl

variable {doc : Document}

theorem exists_strictly_of_own {blocks : List Block}
    (hs : ∀ b ∈ blocks, ∃ doc, source b.uri = .ok (.ofDocument doc) ∧ b ∈ Block.scan doc)
    {uri : String} (hd : source uri = .ok (.ofDocument doc)) {x : Diagnostic}
    (hx : x ∈ blocks.flatMap (Parse.findingsFrom ws source)) (huri : x.uri = uri) :
    ∃ b ∈ Block.scan doc,
      x ∈ (Parse.strictly ws (ws.indexFrom source) .workspace doc b).diagnostics := by
  obtain ⟨b, hb, hx⟩ := List.mem_flatMap.mp hx
  obtain ⟨doc', hs, hb⟩ := hs b hb
  have hsame := uri_of_findingsFrom hs hb hx
  rw [← hsame, huri, hd] at hs
  obtain rfl : doc = doc' := congrArg HostFile.doc (Except.ok.inj hs)
  rw [findingsFrom_eq (by rw [← hsame, huri, hd])] at hx
  exact ⟨b, hb, hx⟩

theorem exists_strictly_of_live {x : Diagnostic} (hx : x ∈ live ws doc) (ix : Index) :
    ∃ b ∈ Block.scan doc, x ∈ (Parse.strictly ws ix .workspace doc b).diagnostics := by
  obtain ⟨b, hb, hx⟩ := List.mem_flatMap.mp hx
  rw [Parse.ofDocument_eq_strictly ws ix .workspace] at hx
  exact ⟨b, hb, List.mem_of_mem_filter hx⟩

end Findings

/-- What the publishes of a check that found `errors` have to hold. -/
structure Publishes [Similar.Matcher] (s : Server) (ws : Workspace) (focal : String) (blocks : List Block)
    (errors : List Diagnostic) (published : List (String × List Diagnostic)) : Prop where
  once : (published.map (·.1)).Nodup
  reached : ∀ uri, uri ∈ published.map (·.1) ↔ uri = focal ∨ ∃ b ∈ blocks, b.uri = uri
  complete : ∀ x ∈ errors, ∃ ds, (x.uri, ds) ∈ published ∧ x ∈ ds
  closed : ∀ uri ds, (uri, ds) ∈ published → s.buffers.doc? uri = none →
    ds = errors.filter (·.uri == uri)
  sorted : ∀ uri ds doc, (uri, ds) ∈ published → s.buffers.doc? uri = some doc →
    ds.Pairwise fun a b => b.range.start.less a.range.start = false
  distinct : ∀ uri ds doc, (uri, ds) ∈ published → s.buffers.doc? uri = some doc →
    ds.Pairwise fun a b => ¬ (a.range = b.range ∧ a.code = b.code ∧ a.message = b.message)
  opened : ∀ uri ds doc, (uri, ds) ∈ published → s.buffers.doc? uri = some doc →
    ∀ x, x ∈ ds ↔ x ∈ errors ∧ x.uri = uri ∨
      ∃ b ∈ Block.scan doc, x ∈ (Parse.ofDocument ws doc b).diagnostics

section

variable {s : Server} {d : Disk} {v : View} {blocks : List Block}

theorem view_readableBut (hv : s.view d = .ok v) :
    ∃ unread, v.workspace.ReadableBut v.source unread := by
  obtain ⟨paths, _, rfl⟩ := Server.view_eq_ok hv
  exact ⟨_, Snapshot.readableBut _ _ _⟩

/-- Findings of an open document that say the same are the same. -/
theorem eq_of_saysSame [Similar.Matcher] (hv : s.view d = .ok v)
    (hs : ∀ b ∈ blocks, ∃ doc, v.source b.uri = .ok (.ofDocument doc) ∧ b ∈ Block.scan doc)
    {uri : String} {doc : Document} (hd : s.buffers.doc? uri = some doc) {a b : Diagnostic}
    (ha : a ∈ (Diagnostic.errors (blocks.flatMap (Parse.findingsFrom v.workspace v.source))).filter
      (·.uri == uri) ++ live v.workspace doc)
    (hb : b ∈ (Diagnostic.errors (blocks.flatMap (Parse.findingsFrom v.workspace v.source))).filter
      (·.uri == uri) ++ live v.workspace doc)
    (hsame : a.saysSame b = true) : a = b := by
  have hsource := (Server.view_source hv hd).2.1
  have hstrict {x : Diagnostic} (hx : x ∈ (Diagnostic.errors (blocks.flatMap
      (Parse.findingsFrom v.workspace v.source))).filter (·.uri == uri) ++ live v.workspace doc) :
      ∃ b ∈ Block.scan doc, x ∈ (Parse.strictly v.workspace (v.workspace.indexFrom v.source)
        .workspace doc b).diagnostics := by
    cases List.mem_append.mp hx with
    | inl hx =>
      obtain ⟨hx, huri⟩ := List.mem_filter.mp hx
      exact exists_strictly_of_own hs hsource (List.mem_of_mem_filter hx) (by simpa using huri)
    | inr hx => exact exists_strictly_of_live hx _
  obtain ⟨_, hba, ha⟩ := hstrict ha
  obtain ⟨_, hbb, hb⟩ := hstrict hb
  obtain ⟨hrange, hcode, _⟩ := Diagnostic.saysSame_iff.mp hsame
  exact Parse.strictly_eq_of_site hba hbb ha hb (congrArg Range.start hrange) hcode

theorem publishes_shown [Similar.Matcher] (hv : s.view d = .ok v) (hn : blocks.Nodup)
    (hs : ∀ b ∈ blocks, ∃ doc, v.source b.uri = .ok (.ofDocument doc) ∧ b ∈ Block.scan doc)
    (focal : String) :
    let errors := Diagnostic.errors (blocks.flatMap (Parse.findingsFrom v.workspace v.source))
    Publishes s v.workspace focal blocks errors
      ((uris focal blocks).map fun uri => (uri, shown s v.workspace errors uri)) := by
  intro errors
  have hkeys : ((uris focal blocks).map fun uri => (uri, shown s v.workspace errors uri)).map (·.1)
      = uris focal blocks := by simp [Function.comp_def]
  have hshown {uri : String} {ds : List Diagnostic}
      (hp : (uri, ds) ∈ (uris focal blocks).map fun uri => (uri, shown s v.workspace errors uri)) :
      ds = shown s v.workspace errors uri := by
    obtain ⟨uri', _, he⟩ := List.mem_map.mp hp
    obtain ⟨rfl, rfl⟩ := Prod.mk.inj he
    rfl
  have hopen {uri : String} {doc : Document} (hd : s.buffers.doc? uri = some doc) :
      shown s v.workspace errors uri
        = Diagnostic.merge (errors.filter (·.uri == uri)) (live v.workspace doc) := by
    simp only [shown, hd]
  have hmem {uri : String} {doc : Document} (hd : s.buffers.doc? uri = some doc) (x : Diagnostic) :=
    Diagnostic.mem_merge (fun a ha b hb => eq_of_saysSame hv hs hd ha hb) x
  constructor
  case once => rw [hkeys]; exact uris_nodup focal blocks
  case reached => intro uri; rw [hkeys]; exact mem_uris
  case complete =>
    intro x hx
    obtain ⟨b, hb, hf⟩ := List.mem_flatMap.mp (List.mem_of_mem_filter hx)
    obtain ⟨doc, hsb, hbd⟩ := hs b hb
    have huri : x.uri ∈ uris focal blocks :=
      mem_uris.mpr (Or.inr ⟨b, hb, (uri_of_findingsFrom hsb hbd hf).symm⟩)
    have hown : x ∈ errors.filter (·.uri == x.uri) := List.mem_filter.mpr ⟨hx, by simp⟩
    refine ⟨_, List.mem_map.mpr ⟨x.uri, huri, rfl⟩, ?_⟩
    cases hd : s.buffers.doc? x.uri with
    | none => simpa only [shown, hd] using hown
    | some doc =>
      rw [hopen hd]
      exact (hmem hd x).mpr (Or.inl hown)
  case closed =>
    intro uri ds hp hd
    rw [hshown hp]
    simp only [shown, hd]
  case sorted =>
    intro uri ds doc hp hd
    rw [hshown hp, hopen hd]
    exact Diagnostic.sort_pairwise _
  case distinct =>
    intro uri ds doc hp hd
    have hown : (errors.filter (·.uri == uri)).Pairwise fun a b => a.saysSame b = false := by
      have hnodup : (errors.filter (·.uri == uri)).Nodup := ((findings_nodup hn hs).filter _).filter _
      refine hnodup.imp_of_mem fun {a b} ha hb hne => Bool.eq_false_iff.mpr fun hsame => hne ?_
      exact eq_of_saysSame hv hs hd (List.mem_append_left _ ha) (List.mem_append_left _ hb) hsame
    rw [hshown hp, hopen hd]
    refine (Diagnostic.merge_pairwise hown _).imp fun {a b} hab hsame => ?_
    rw [Diagnostic.saysSame_iff.mpr hsame] at hab
    cases hab
  case opened =>
    intro uri ds doc hp hd x
    rw [hshown hp, hopen hd, hmem hd x, List.mem_filter, beq_iff_eq, live, List.mem_flatMap]

end

end WholeCheck

namespace Server

open WholeCheck (Publishes stop?)

/-- A whole check fails and publishes nothing, as it does whenever it is stopped before it is through;
or it has the errors of all blocks that are reachable, and publishes them together with the live findings
of open documents. -/
theorem Reached.check_publishes [Similar.Matcher] [Catalog.Decoder] {s : Server} (hs : s.Reached)
    (d : Disk) (focal : String) (after : Option Nat) :
    let check := ((WholeCheck.run s d focal after).run s.cache).1
    ((∃ e, check.outcome = .error e ∧ check.published = []) ∨
      ∃ v found errors published, s.view d = .ok v ∧
        v.run (Resolution.ofDocument v.workspace focal) = .ok found ∧ check.outcome = .ok errors ∧
        errors = Diagnostic.errors (found.blocks.flatMap (Parse.findingsFrom v.workspace v.source)) ∧
        check.published = published.map (fun p => .publish p.1 p.2) ∧
        Publishes s v.workspace focal found.blocks errors published) ∧
    ∀ v found stop, s.view d = .ok v → v.run (Resolution.ofDocument v.workspace focal) = .ok found →
      stop? s after = some stop → stop.after ≤ found.blocks.length →
        ∃ e, check.outcome = .error e ∧ check.published = [] := by
  intro check
  have hcases := WholeCheck.run_cases s d focal after
  constructor
  · refine hcases.imp id ?_
    rintro ⟨v, found, errors, hv, hr, hc⟩
    obtain ⟨houtcome, hpublished⟩ := WholeCheck.run_of_ok hs.sound after hv hr hc
    obtain ⟨unread, hread⟩ := WholeCheck.view_readableBut hv
    have hfound := View.run_eq_ok.mp hr
    obtain ⟨_, _, hall⟩ := Resolution.ofDocument_ok hread hfound
    obtain ⟨_, hfound', herrors⟩ := Resolution.check_ok hread (Resolution.run_check_unstopped hfound hc)
    obtain rfl := Except.ok.inj (hfound.symm.trans hfound')
    have hnodup : found.blocks.Nodup := by
      rw [hall]
      exact (Resolution.covers_focal _).nodup
    have hsource : ∀ b ∈ found.blocks, ∃ doc, v.source b.uri = .ok (.ofDocument doc) ∧
        b ∈ Block.scan doc := by
      rw [hall]
      exact fun b hb => Resolution.source_of_found hread hb
    refine ⟨v, found, errors, _, hv, hr, houtcome, herrors, ?_,
      herrors ▸ WholeCheck.publishes_shown hv hnodup hsource focal⟩
    rw [hpublished, List.map_map, herrors]
    rfl
  · intro v found stop hv hr hstop hafter
    rcases hcases with h | ⟨v', found', errors, hv', hr', hc⟩
    · exact h
    · obtain rfl := Except.ok.inj (hv.symm.trans hv')
      obtain rfl := Except.ok.inj (hr.symm.trans hr')
      obtain ⟨failure, he⟩ := Resolution.run_check_stopped (View.run_eq_ok.mp hr) hafter
      rw [hstop, he] at hc
      cases hc

theorem Reached.check_publishes_twoDefinitions :
    let check := ((WholeCheck.run twoDefinitionsServer emptyDisk "file:///a.cpp" none).run {}).1
    twoDefinitionsServer.Reached ∧ ∃ found errors published, check.outcome = .ok errors ∧
      check.published = published.map (fun p => .publish p.1 p.2) ∧
      Publishes twoDefinitionsServer twoDefinitionsView.workspace "file:///a.cpp" found errors published := by
  intro check
  have hreached : twoDefinitionsServer.Reached := .fresh rfl
  have hread : twoDefinitionsView.workspace.ReadableFrom twoDefinitionsView.source :=
    Snapshot.readableFrom (Snapshot.ofBuffers [twoDefinitions] [])
      (some twoDefinitionsServer.catalog) emptyDisk.read (by simp [Snapshot.ofBuffers, Snapshot.keepLast])
  have huri : "file:///a.cpp" ∈ twoDefinitionsView.workspace.uris := by
    have huris : twoDefinitionsView.workspace.uris = ["file:///a.cpp"] := List.mergeSort_singleton _
    simp [huris]
  have hfound := Resolution.run_ofDocument hread huri
  have hcheck := Resolution.run_check_outcome hread hfound fun b hb =>
    Resolution.source_of_mem_index hread
      (Resolution.ofBlocks_mem_index (fun b hb => Workspace.mem_indexFrom huri hb) b hb)
  have hok : check.outcome = _ := (WholeCheck.run_of_ok hreached.sound none twoDefinitions_view
    (View.run_eq_ok.mpr hfound) hcheck).1
  refine ⟨hreached, ?_⟩
  rcases (hreached.check_publishes emptyDisk "file:///a.cpp" none).1 with
    ⟨e, he, _⟩ | ⟨v, found, errors, published, hv, _, houtcome, _, hpublished, hpublishes⟩
  · cases he.symm.trans hok
  · obtain rfl := Except.ok.inj (hv.symm.trans twoDefinitions_view)
    exact ⟨found.blocks, errors, published, houtcome, hpublished, hpublishes⟩

end Server

end HostScript
