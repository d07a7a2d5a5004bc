import HostScript.Catalog.Yaml
import HostScript.Command.Check
import HostScript.Proofs.Check.Describe
import HostScript.Proofs.Resolution.Dangling
import HostScript.Similar

set_option autoImplicit false

namespace HostScript

theorem pathOfUri_uriOfPath {path : String} (h : ':' ∉ path.toList) : pathOfUri (uriOfPath path) = path := by
  unfold uriOfPath
  split
  · have hscheme : (fileScheme ++ path).startsWith fileScheme = true := by simp
    rw [pathOfUri, if_pos hscheme, String.toList_append, ← String.length_toList, List.drop_left,
      String.ofList_toList]
  · have hscheme : ¬ path.startsWith fileScheme = true := by
      rw [String.startsWith_string_iff]
      intro hbegins
      exact h (hbegins.subset (by decide))
    rw [pathOfUri, if_neg hscheme]

namespace Diagnostic

theorem errors_atLeast_warning (ds : List Diagnostic) :
    errors (atLeast Severity.warning.level ds) = errors ds := by
  rw [errors, atLeast, atLeast, List.filter_filter]
  refine List.filter_congr fun d _ => ?_
  cases d.severity with
  | none => rfl
  | some severity => cases severity <;> rfl

end Diagnostic

namespace Command

section Lists

variable {α : Type} [DecidableEq α]

theorem eraseDups_concat (as : List α) (a : α) :
    (as ++ [a]).eraseDups = if a ∈ as then as.eraseDups else as.eraseDups ++ [a] := by
  rw [List.eraseDups_append, List.removeAll]
  split
  · rename_i h
    simp [h]
  · rename_i h
    simp [h, List.eraseDups_cons]

theorem filter_eraseDups (p : α → Bool) (as : List α) :
    as.eraseDups.filter p = (as.filter p).eraseDups := by
  -- Whether an element is a repeat depends on those before it.
  induction as using List.reverseRecOn with
  | nil => rfl
  | append_singleton as a ih =>
    rw [eraseDups_concat, List.filter_append]
    cases hp : p a with
    | false => split <;> simp [hp, ih]
    | true =>
      rw [List.filter_singleton, hp, cond_true, eraseDups_concat]
      by_cases ha : a ∈ as <;> simp [ha, hp, ih]

theorem errors_flatMap_eraseDups (files : List String) (found : String → List Diagnostic) :
    Diagnostic.errors (files.flatMap found).eraseDups
      = (files.flatMap fun path => Diagnostic.errors (found path)).eraseDups := by
  rw [Diagnostic.errors, Diagnostic.atLeast, filter_eraseDups, List.filter_flatMap]
  rfl

end Lists

variable {all ds : List Diagnostic}

/-- The findings of a list have lines of their own. -/
def LinesDiffer (ds : List Diagnostic) : Prop := ∀ x ∈ ds, ∀ y ∈ ds, x.describe = y.describe → x = y

theorem addUnseen_eraseDups (h : LinesDiffer (all ++ ds)) :
    addUnseen all.eraseDups ds = (all ++ ds).eraseDups := by
  induction ds generalizing all with
  | nil => simp [addUnseen]
  | cons d ds ih =>
    have hseen : all.eraseDups.any (·.describe == d.describe) = true ↔ d ∈ all := by
      rw [List.any_eq_true]
      constructor
      · rintro ⟨x, hx, heq⟩
        have hx := List.mem_eraseDups.mp hx
        exact h x (by simp [hx]) d (by simp) (eq_of_beq heq) ▸ hx
      · intro hd
        exact ⟨d, List.mem_eraseDups.mpr hd, beq_self_eq_true _⟩
    simp only [addUnseen, hseen, ← eraseDups_concat]
    rw [ih (by simpa using h), List.append_assoc]
    rfl

theorem LinesDiffer.mono (h : LinesDiffer ds) (hsub : all ⊆ ds) : LinesDiffer all :=
  fun x hx y hy => h x (hsub hx) y (hsub hy)

theorem reached_mem_index {ws : Workspace} {source : Supply} {uri : String} (hu : uri ∈ ws.uris) :
    ∀ b ∈ (Resolution.ofBlocks (ws.indexFrom source) (Workspace.blocksFrom source uri)).blocks,
      b ∈ (ws.indexFrom source).blocks :=
  Resolution.ofBlocks_mem_index fun _ hb => Workspace.mem_indexFrom hu hb

section Reached

variable [Similar.Matcher] {ws : Workspace} {source : Supply}

def reached (ws : Workspace) (source : Supply) (uri : String) : List Diagnostic :=
  (Resolution.ofBlocks (ws.indexFrom source) (Workspace.blocksFrom source uri)).blocks.flatMap
    (Parse.findingsFrom ws source)

theorem run_strictFindings (h : ws.ReadableFrom source) {uri : String} (hu : uri ∈ ws.uris) :
    ReadM.run source (strictFindings ws uri)
      = .ok (Diagnostic.atLeast Severity.warning.level (reached ws source uri)) := by
  have hblocks : ∀ b ∈ (Resolution.ofBlocks (ws.indexFrom source) (Workspace.blocksFrom source uri)).blocks,
      ∃ result, ReadM.run source (Parse.run ws .workspace b true) = .ok result ∧
        result.diagnostics = Parse.findingsFrom ws source b := by
    intro b hb
    obtain ⟨file, hf⟩ := Resolution.source_of_mem_index h (reached_mem_index hu b hb)
    exact ⟨_, Parse.run_strict h.run_index hf .workspace, by simp only [Parse.findingsFrom, hf]⟩
  obtain ⟨results, hresults, hmap⟩ := ReadM.run_mapM hblocks
  rw [strictFindings, ReadM.run_bind_ok (Resolution.run_ofDocument h hu), ReadM.run_bind_ok hresults,
    List.flatMap_def, hmap]
  rfl

theorem run_graphCheck (h : ws.ReadableFrom source) {uri : String} (hu : uri ∈ ws.uris) :
    ((GraphCheck.run ws uri none).run source).outcome
      = .ok (Diagnostic.errors (reached ws source uri)) :=
  Resolution.run_check_outcome h (Resolution.run_ofDocument h hu) fun b hb =>
    Resolution.source_of_mem_index h (reached_mem_index hu b hb)

def kept (ws : Workspace) (source : Supply) (strict : Bool) (uri : String) : List Diagnostic :=
  if strict then Diagnostic.atLeast Severity.warning.level (reached ws source uri)
  else Diagnostic.errors (reached ws source uri)

theorem errors_kept (ws : Workspace) (source : Supply) (uri : String) :
    Diagnostic.errors (kept ws source true uri) = kept ws source false uri :=
  Diagnostic.errors_atLeast_warning _

theorem kept_subset (strict : Bool) (uri : String) : kept ws source strict uri ⊆ reached ws source uri := by
  cases strict <;> exact List.filter_subset_self _

theorem run_findingsOf (h : ws.ReadableFrom source) {uri : String} (hu : uri ∈ ws.uris) (strict : Bool) :
    ReadM.run source (findingsOf ws false strict uri) = .ok (kept ws source strict uri) := by
  cases strict with
  | true => exact run_strictFindings h hu
  | false => exact (Reading.run_do source _ _).trans (run_graphCheck h hu)

theorem kept_linesDiffer (h : ws.LegibleFrom source) {d : Disk} {paths : List String}
    (hu : ∀ path ∈ paths, uriFor d path ∈ ws.uris) (strict : Bool) :
    LinesDiffer (paths.flatMap fun path => kept ws source strict (uriFor d path)) := by
  have hone {x : Diagnostic} (hx : x ∈ paths.flatMap fun path => kept ws source strict (uriFor d path)) :
      ∃ b ∈ (ws.indexFrom source).blocks, x ∈ Parse.findingsFrom ws source b := by
    obtain ⟨path, hp, hx⟩ := List.mem_flatMap.mp hx
    obtain ⟨b, hb, hx⟩ := List.mem_flatMap.mp (kept_subset strict _ hx)
    exact ⟨b, reached_mem_index (hu path hp) b hb, hx⟩
  intro x hx y hy heq
  obtain ⟨a, ha, hx⟩ := hone hx
  obtain ⟨b, hb, hy⟩ := hone hy
  exact Parse.eq_of_describe_eq h ha hb hx hy heq

/-- Checking files one after the other gives their findings in order, without repeats. -/
theorem findingsOfAll_eq (all : List Diagnostic) {d : Disk} {expired strict : Bool} {found : String → List Diagnostic}
    {paths : List String}
    (h : ∀ path ∈ paths,
      ReadM.run source (findingsOf ws expired strict (uriFor d path)) = .ok (found path))
    (hl : LinesDiffer (all ++ paths.flatMap found)) :
    findingsOfAll d ws source expired strict all.eraseDups paths
      = .ok (all ++ paths.flatMap found).eraseDups := by
  induction paths generalizing all with
  | nil => simp [findingsOfAll]
  | cons path paths ih =>
    rw [List.flatMap_cons, ← List.append_assoc] at hl ⊢
    have hseen := addUnseen_eraseDups (hl.mono (List.subset_append_left _ _))
    simp only [findingsOfAll, h path (by simp), hseen]
    exact ih _ (fun path hp => h path (by simp [hp])) hl

theorem findingsOfAll_kept (h : ws.LegibleFrom source) {d : Disk} {paths : List String}
    (hu : ∀ path ∈ paths, uriFor d path ∈ ws.uris) (strict : Bool) :
    findingsOfAll d ws source false strict [] paths
      = .ok (paths.flatMap fun path => kept ws source strict (uriFor d path)).eraseDups :=
  findingsOfAll_eq [] (fun path hp => run_findingsOf h.toReadableFrom (hu path hp) strict)
    (kept_linesDiffer h hu strict)

end Reached

section Files

variable {d : Disk} {s : Settings} {paths extra : List String} {snapshot : Snapshot}

theorem snapshotFor_eq_ok (h : snapshotFor d s extra = .ok snapshot) :
    ∃ paths, snapshot = .ofBuffers [] paths ∧ ∀ path ∈ extra, d.absolute path ∈ paths := by
  unfold snapshotFor at h
  cases hfound : HostFiles.find d s.root s.extensions with
  | error e =>
    rw [hfound] at h
    cases h
  | ok found =>
    rw [hfound] at h
    refine ⟨_, (Except.ok.inj h).symm, fun path hp => List.mem_map_of_mem ?_⟩
    exact List.mem_append_right _ hp

theorem ofBuffers_nil (paths : List String) : Snapshot.ofBuffers [] paths
    = ⟨[], Snapshot.keepLast (·.1) (paths.map fun path => (uriOfPath path, path))⟩ := by
  simp [Snapshot.ofBuffers, Snapshot.keepLast]

theorem mem_uris_ofBuffers_nil {uri : String} :
    uri ∈ (Snapshot.ofBuffers [] paths).uris ↔ ∃ file ∈ (Snapshot.ofBuffers [] paths).files, file.1 = uri := by
  rw [Snapshot.mem_uris, ofBuffers_nil]
  simp

theorem file_uri {file : String × String} (h : file ∈ (Snapshot.ofBuffers [] paths).files) :
    file.1 = uriOfPath file.2 := by
  rw [ofBuffers_nil] at h
  obtain ⟨path, _, rfl⟩ := List.mem_map.mp (Snapshot.mem_of_mem_keepLast h)
  rfl

theorem uriFor_mem_uris (h : snapshotFor d s extra = .ok snapshot) {path : String} (hp : path ∈ extra) :
    uriFor d path ∈ snapshot.uris := by
  obtain ⟨paths, rfl, hpaths⟩ := snapshotFor_eq_ok h
  rw [Snapshot.mem_uris, ofBuffers_nil]
  exact List.mem_append_right _ (Snapshot.key_mem_keepLast (List.mem_map_of_mem (hpaths path hp)))

/-- A file that can be read, whose path has no colon and whose bytes numbers of 64 bits count. -/
structure Checkable (d : Disk) (file : String × String) : Prop where
  path : ':' ∉ file.2.toList
  text : ∃ text, d.read file.2 = .ok text ∧ text.length ≤ Bytes.numberLimit

theorem legibleFrom (catalog : Catalog) (hs : snapshotFor d s extra = .ok snapshot)
    (h : ∀ file ∈ snapshot.files, Checkable d file) :
    (snapshot.workspace (some catalog)).LegibleFrom (sourceOf d snapshot) := by
  obtain ⟨paths, rfl, _⟩ := snapshotFor_eq_ok hs
  have hfile {uri : String} (hu : uri ∈ (Snapshot.ofBuffers [] paths).uris) :
      ':' ∉ (pathOfUri uri).toList ∧ uriOfPath (pathOfUri uri) = uri := by
    obtain ⟨file, hf, rfl⟩ := mem_uris_ofBuffers_nil.mp hu
    rw [file_uri hf, pathOfUri_uriOfPath (h file hf).path]
    exact ⟨(h file hf).path, rfl⟩
  refine { toReadableFrom := ?_, path := fun uri hu => (hfile hu).1, apart := ?_, length := ?_ }
  · refine Snapshot.readableFrom _ _ _ fun file hf => ?_
    obtain ⟨text, ht, _⟩ := (h file hf).text
    exact ⟨text, ht⟩
  · intro a ha b hb heq
    rw [← (hfile ha).2, ← (hfile hb).2, heq]
  · intro doc hdoc
    have hmem := Snapshot.mem_of_source hdoc
    rw [ofBuffers_nil] at h hmem
    obtain ⟨file, hf, heq⟩ := List.mem_map.mp hmem
    obtain ⟨text, ht, hlength⟩ := (h file hf).text
    simp only [ht, Snapshot.answer, Prod.mk.injEq, Except.ok.injEq] at heq
    obtain rfl : Document.ofText file.1 text = doc := congrArg HostFile.doc heq.2
    exact hlength

variable {given : Option Catalog} {o : CheckOptions} {args files : List String} {catalog : Catalog}

theorem checkFindings_eq [Similar.Matcher] [Catalog.Decoder]
    (hfiles : expandArgs d s.extensions o.exclude args = .ok files)
    (hcatalog : catalogFor d s given = .ok catalog) (hsnapshot : snapshotFor d s files = .ok snapshot) :
    checkFindings d s given o args = if files = [] then .error .noFiles
      else findingsOfAll d (snapshot.workspace (some catalog)) (sourceOf d snapshot) s.expired o.strict []
        files := by
  unfold checkFindings
  rw [hfiles]
  cases files with
  | nil => rfl
  | cons path files =>
    simp only [hcatalog, hsnapshot, bind, Except.bind]
    rfl

/-- In a check that is not stopped the errors of each file are those among its errors and warnings.
What is found is what was found in the files one after the other, less repeats, and no two findings
that differ have one line. So leaving warnings out gives the errors in the same order. -/
theorem checkFindings_errors [Similar.Matcher] [Catalog.Decoder] (hexpired : s.expired = false)
    (hfiles : expandArgs d s.extensions o.exclude args = .ok files)
    (hcatalog : catalogFor d s given = .ok catalog) (hsnapshot : snapshotFor d s files = .ok snapshot)
    (hcheckable : ∀ file ∈ snapshot.files, Checkable d file) :
    ∃ found : String → List Diagnostic,
      (∀ path ∈ files,
        ReadM.run (sourceOf d snapshot)
          (strictFindings (snapshot.workspace (some catalog)) (uriFor d path)) = .ok (found path) ∧
        ((GraphCheck.run (snapshot.workspace (some catalog)) (uriFor d path) none).run
          (sourceOf d snapshot)).outcome = .ok (Diagnostic.errors (found path))) ∧
      (files ≠ [] →
        checkFindings d s given { o with strict := true } args = .ok (files.flatMap found).eraseDups ∧
        checkFindings d s given { o with strict := false } args
          = .ok (files.flatMap fun path => Diagnostic.errors (found path)).eraseDups) ∧
      checkFindings d s given { o with strict := false } args
        = (checkFindings d s given { o with strict := true } args).map Diagnostic.errors ∧
      LinesDiffer (files.flatMap found) := by
  have hlegible := legibleFrom catalog hsnapshot hcheckable
  have hfocal : ∀ path ∈ files, uriFor d path ∈ (snapshot.workspace (some catalog)).uris :=
    fun path hp => uriFor_mem_uris hsnapshot hp
  have hcheck (strict : Bool) := checkFindings_eq (o := { o with strict }) hfiles hcatalog hsnapshot
  simp only [hexpired, findingsOfAll_kept hlegible hfocal] at hcheck
  refine ⟨fun path => kept (snapshot.workspace (some catalog)) (sourceOf d snapshot) true (uriFor d path),
    fun path hp => ⟨?_, ?_⟩, fun hne => ⟨?_, ?_⟩, ?_, kept_linesDiffer hlegible hfocal true⟩
  · exact run_strictFindings hlegible.toReadableFrom (hfocal path hp)
  · rw [errors_kept]
    exact run_graphCheck hlegible.toReadableFrom (hfocal path hp)
  · rw [hcheck, if_neg hne]
  · simp only [errors_kept]
    rw [hcheck, if_neg hne]
  · rw [hcheck, hcheck]
    split
    · rfl
    · simp only [← errors_kept, ← errors_flatMap_eraseDups]
      rfl

end Files

/-- Two scripts, one of them without a name, that include a script with an error. -/
def sharedDisk : Disk where
  workingDirectory := "/"
  root := .directory [
    ("a.cpp", .file (utf8 "SCRIPT:1,A\nincludescript 3\nENDSCRIPT\n")),
    ("b.cpp", .file (utf8 "SCRIPT:2,\nincludescript 3\nENDSCRIPT\n")),
    ("c.cpp", .file (utf8 "SCRIPT:3,C\n)\nENDSCRIPT\n"))]

def sharedFiles : List String := ["a.cpp", "b.cpp"]

def sharedCatalog : Catalog := ⟨none, .first⟩

def sharedSnapshot : Snapshot := .ofBuffers [] ["/a.cpp", "/b.cpp", "/c.cpp", "/a.cpp", "/b.cpp"]

theorem shared_snapshotFor : snapshotFor sharedDisk {} sharedFiles = .ok sharedSnapshot := by
  have hentry : sharedDisk.entry "lstat" "." = .ok sharedDisk.root := rfl
  have hbelow : HostFiles.below (HostFiles.wanted HostFiles.defaultExtensions) "." sharedDisk.root
      = ["a.cpp", "b.cpp", "c.cpp"] := by decide +kernel
  have hsort : sortStrings ["a.cpp", "b.cpp", "c.cpp"] = ["a.cpp", "b.cpp", "c.cpp"] :=
    List.mergeSort_of_pairwise (by decide)
  rw [snapshotFor, HostFiles.find, hentry]
  simp only [bind, pure, Except.bind, Except.pure, hbelow, hsort]
  rfl

theorem shared_checkable : ∀ file ∈ sharedSnapshot.files, Checkable sharedDisk file := by
  have hfiles : sharedSnapshot.files
      = [("file:///c.cpp", "/c.cpp"), ("file:///a.cpp", "/a.cpp"), ("file:///b.cpp", "/b.cpp")] := by
    decide +kernel
  intro file hf
  simp only [hfiles, List.mem_cons, List.not_mem_nil, or_false] at hf
  rcases hf with rfl | rfl | rfl <;> exact ⟨by decide, _, rfl, by decide +kernel⟩

theorem checkFindings_errors_shared :
    ∃ found : String → List Diagnostic,
      checkFindings sharedDisk {} (some sharedCatalog) { strict := true } sharedFiles
        = .ok (sharedFiles.flatMap found).eraseDups ∧
      checkFindings sharedDisk {} (some sharedCatalog) {} sharedFiles
        = .ok (Diagnostic.errors (sharedFiles.flatMap found).eraseDups) ∧
      LinesDiffer (sharedFiles.flatMap found) := by
  have hfiles : expandArgs sharedDisk ({} : Settings).extensions ({} : CheckOptions).exclude sharedFiles
      = .ok sharedFiles := rfl
  have hcatalog : catalogFor sharedDisk {} (some sharedCatalog) = .ok sharedCatalog := rfl
  obtain ⟨found, _, hok, hmap, hlines⟩ :=
    checkFindings_errors rfl hfiles hcatalog shared_snapshotFor shared_checkable
  have hstrict := (hok (by decide)).1
  rw [hstrict] at hmap
  exact ⟨found, hstrict, hmap, hlines⟩

end Command

end HostScript
