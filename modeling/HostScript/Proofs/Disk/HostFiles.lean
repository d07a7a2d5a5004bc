import HostScript.Disk
import HostScript.Proofs.Disk.Paths
import HostScript.Proofs.Text.Order
import Mathlib.Data.List.Nodup

set_option autoImplicit false

namespace HostScript

namespace Tree

/-- The names lead from a tree to an entry. -/
inductive Leads : Tree → List String → Tree → Prop where
  | here (t : Tree) : Leads t [] t
  | down {entries : List (String × Tree)} {name : String} {t leaf : Tree} {names : List String}
      (hmem : (name, t) ∈ entries) (h : Leads t names leaf) : Leads (.directory entries) (name :: names) leaf

/-- Every directory has valid and different names. -/
inductive WellNamed : Tree → Prop where
  | file (text : Bytes) : WellNamed (.file text)
  | broken : WellNamed .broken
  | directory {entries : List (String × Tree)} (names : ∀ e ∈ entries, Path.IsName e.1)
      (distinct : (entries.map (·.1)).Nodup) (below : ∀ e ∈ entries, WellNamed e.2) :
      WellNamed (.directory entries)

theorem Leads.isDirectory {t leaf : Tree} {name : String} {names : List String} (h : t.Leads (name :: names) leaf) :
    t.isDirectory = true := by
  cases h
  rfl

theorem Leads.eq_here {t leaf : Tree} {names : List String} (h : t.Leads names leaf) (ht : t.isDirectory = false) :
    names = [] ∧ leaf = t := by
  cases h with
  | here => exact ⟨rfl, rfl⟩
  | down => cases ht

theorem Leads.isName {t leaf : Tree} {names : List String} (h : t.Leads names leaf) (ht : t.WellNamed) :
    ∀ name ∈ names, Path.IsName name := by
  induction h with
  | here => simp
  | down hmem _ ih =>
    cases ht with
    | directory hnames _ hbelow =>
      intro name hname
      rcases List.mem_cons.mp hname with rfl | hname
      · exact hnames _ hmem
      · exact ih (hbelow _ hmem) name hname

end Tree

namespace HostFiles

variable {listed : List String} {root path : String}

theorem below_leaf {t : Tree} (h : t.isDirectory = false) (listed : List String) (root : String) :
    below listed root t = if isHost listed root then [root] else [] := by
  cases t with
  | directory => cases h
  | _ => rfl

theorem below_directory (listed : List String) (root : String) (entries : List (String × Tree)) :
    below listed root (.directory entries) = entries.flatMap fun e =>
      if e.2.isDirectory && isSkipped e.1 then [] else below listed (Path.join root e.1) e.2 := by
  rw [below]
  induction entries with
  | nil => rfl
  | cons e entries ih => rw [amongst, ih, List.flatMap_cons]

/-- A wanted entry that is no directory, and the names that lead to it through directories that are not
skipped. -/
structure Found (listed : List String) (root : String) (t : Tree) (names : List String) (path : String) : Prop where
  leaf : ∃ leaf, t.Leads names leaf ∧ leaf.isDirectory = false
  passed : ∀ dir ∈ names.dropLast, isSkipped dir = false
  host : isHost listed path = true
  path_eq : path = Path.joinAll root names

theorem Found.isName {t : Tree} {names : List String} (h : Found listed root t names path) (ht : t.WellNamed) :
    ∀ name ∈ names, Path.IsName name := by
  obtain ⟨leaf, hleads, -⟩ := h.leaf
  exact hleads.isName ht

theorem mem_below_leaf {t : Tree} (h : t.isDirectory = false) :
    path ∈ below listed root t ↔ ∃ names, Found listed root t names path := by
  rw [below_leaf h]
  constructor
  · intro hpath
    split at hpath
    · rename_i hhost
      obtain rfl := List.mem_singleton.mp hpath
      exact ⟨[], ⟨t, .here t, h⟩, by simp, hhost, rfl⟩
    · cases hpath
  · rintro ⟨names, ⟨leaf, hleads, -⟩, -, hhost, hpath⟩
    obtain ⟨rfl, rfl⟩ := hleads.eq_here h
    obtain rfl : path = root := hpath
    rw [if_pos hhost]
    exact List.mem_singleton_self path

theorem Found.cons {entries : List (String × Tree)} {name : String} {t : Tree} {names : List String}
    (hmem : (name, t) ∈ entries) (hkept : ¬ (t.isDirectory && isSkipped name) = true)
    (h : Found listed (Path.join root name) t names path) :
    Found listed root (.directory entries) (name :: names) path := by
  obtain ⟨leaf, hleads, hleaf⟩ := h.leaf
  refine ⟨⟨leaf, .down hmem hleads, hleaf⟩, fun dir hdir => ?_, h.host, h.path_eq⟩
  cases names with
  | nil => cases hdir
  | cons next names =>
    rw [List.dropLast_cons_of_ne_nil (List.cons_ne_nil next names)] at hdir
    rcases List.mem_cons.mp hdir with rfl | hdir
    · simpa [hleads.isDirectory] using hkept
    · exact h.passed dir hdir

theorem Found.uncons {entries : List (String × Tree)} {names : List String}
    (h : Found listed root (.directory entries) names path) : ∃ name t rest, names = name :: rest ∧
      (name, t) ∈ entries ∧ ¬ (t.isDirectory && isSkipped name) = true ∧
      Found listed (Path.join root name) t rest path := by
  obtain ⟨leaf, hleads, hleaf⟩ := h.leaf
  cases hleads with
  | here => cases hleaf
  | @down _ name t _ rest hmem hrest =>
    have hpassed := h.passed
    refine ⟨name, t, rest, rfl, hmem, ?_, ⟨leaf, hrest, hleaf⟩, fun dir hdir => ?_, h.host, h.path_eq⟩
    · cases hrest with
      | here => simp [hleaf]
      | down => simp [hpassed name (by simp)]
    · cases rest with
      | nil => cases hdir
      | cons next rest => exact hpassed dir (by simpa using .inr hdir)

/-- What is listed below a directory is what its entries lead to. -/
theorem mem_below {t : Tree} (h : t.WellNamed) :
    path ∈ below listed root t ↔ ∃ names, Found listed root t names path := by
  induction h generalizing root with
  | file => exact mem_below_leaf rfl
  | broken => exact mem_below_leaf rfl
  | @directory entries _ _ _ ih =>
    rw [below_directory, List.mem_flatMap]
    constructor
    · rintro ⟨⟨name, t⟩, hmem, hpath⟩
      split at hpath
      · cases hpath
      · rename_i hkept
        obtain ⟨names, hfound⟩ := (ih _ hmem).mp hpath
        exact ⟨name :: names, hfound.cons hmem hkept⟩
    · rintro ⟨names, hfound⟩
      obtain ⟨name, t, rest, rfl, hmem, hkept, hrest⟩ := hfound.uncons
      refine ⟨(name, t), hmem, ?_⟩
      rw [if_neg hkept]
      exact (ih _ hmem).mpr ⟨rest, hrest⟩

theorem disjoint_below {name other : String} {t u : Tree} (hname : Path.IsName name) (hother : Path.IsName other)
    (ht : t.WellNamed) (hu : u.WellNamed) (hroot : root ≠ "") (hne : name ≠ other) :
    List.Disjoint (below listed (Path.join root name) t) (below listed (Path.join root other) u) := by
  intro path hpath hpath'
  obtain ⟨names, hfound⟩ := (mem_below ht).mp hpath
  obtain ⟨others, hfound'⟩ := (mem_below hu).mp hpath'
  have hnames : ∀ n ∈ name :: names, Path.IsName n := List.forall_mem_cons.mpr ⟨hname, hfound.isName ht⟩
  have hothers : ∀ n ∈ other :: others, Path.IsName n := List.forall_mem_cons.mpr ⟨hother, hfound'.isName hu⟩
  have hsame : Path.joinAll root (name :: names) = Path.joinAll root (other :: others) :=
    hfound.path_eq.symm.trans hfound'.path_eq
  exact hne (List.cons.inj (Path.joinAll_inj hroot hnames hothers hsame)).1

theorem nodup_below_leaf {t : Tree} (h : t.isDirectory = false) : (below listed root t).Nodup := by
  rw [below_leaf h]
  split
  · exact List.nodup_singleton root
  · exact List.nodup_nil

theorem nodup_below {t : Tree} (h : t.WellNamed) (hroot : root ≠ "") : (below listed root t).Nodup := by
  induction h generalizing root with
  | file => exact nodup_below_leaf rfl
  | broken => exact nodup_below_leaf rfl
  | @directory entries hnames hdistinct hbelow ih =>
    rw [below_directory, List.nodup_flatMap]
    refine ⟨fun e he => ?_, ?_⟩
    · split
      · exact List.nodup_nil
      · exact ih e he (Path.join_ne_empty hroot (hnames e he))
    · have hapart : entries.Pairwise fun e f => e.1 ≠ f.1 := List.pairwise_map.mp hdistinct
      refine hapart.imp_of_mem fun {e f} he hf hne path hpath hpath' => ?_
      simp only at hpath hpath'
      split at hpath
      · cases hpath
      · split at hpath'
        · cases hpath'
        · exact disjoint_below (hnames e he) (hnames f hf) (hbelow e he) (hbelow f hf) hroot hne hpath hpath'

theorem isSkipped_eq_false_iff {name : String} (h : Path.IsName name) :
    isSkipped name = false ↔ name.toList.head? ≠ some '.' ∧ name ≠ "node_modules" := by
  simp [isSkipped, h.ne_dot, h.ne_up]

theorem isHost_iff (extensions : List String) (path : String) : isHost (wanted extensions) path = true ↔
    ∃ e ∈ if extensions = [] then [".cpp"] else extensions,
      lower (Path.extension path) = lower (if e.toList.head? = some '.' then e else "." ++ e) := by
  simp only [isHost, wanted, List.contains_iff_mem, List.mem_map, List.isEmpty_iff, defaultExtensions]
  exact exists_congr fun e => and_congr_right fun _ => eq_comm

theorem ne_empty_of_entry {d : Disk} {action : String} {tree : Tree} (h : d.entry action root = .ok tree) :
    root ≠ "" := by
  rintro rfl
  cases h

/-- The host files below a directory are listed in ascending order, each of them once. -/
theorem find_ascending {d : Disk} {tree : Tree} (htree : d.entry "lstat" root = .ok tree)
    (hdir : tree.isDirectory = true) (hnames : tree.WellNamed) (extensions : List String) :
    ∃ paths, find d root extensions = .ok paths ∧ (paths.Pairwise fun a b => utf8 a < utf8 b) ∧
      ∀ path, path ∈ paths ↔ ∃ dirs name leaf, tree.Leads (dirs ++ [name]) leaf ∧ leaf.isDirectory = false ∧
        (∀ dir ∈ dirs, dir.toList.head? ≠ some '.' ∧ dir ≠ "node_modules") ∧
        (∃ e ∈ if extensions = [] then [".cpp"] else extensions,
          lower (Path.extension name) = lower (if e.toList.head? = some '.' then e else "." ++ e)) ∧
        path = Path.joinAll root (dirs ++ [name]) := by
  have hroot := ne_empty_of_entry htree
  refine ⟨sortStrings (below (wanted extensions) root tree), by rw [find, htree]; rfl,
    sortStrings_ascending (nodup_below hnames hroot), fun path => ?_⟩
  rw [sortStrings, List.mem_mergeSort, mem_below hnames]
  constructor
  · rintro ⟨names, hfound⟩
    obtain ⟨leaf, hleads, hleaf⟩ := hfound.leaf
    have hpath := hfound.path_eq
    obtain rfl | ⟨dirs, name, rfl⟩ := List.eq_nil_or_concat names
    · cases hleads
      rw [hdir] at hleaf
      cases hleaf
    · rw [List.concat_eq_append] at *
      have hvalid := hfound.isName hnames
      have hhost := (isHost_iff extensions path).mp hfound.host
      rw [hpath, Path.extension_joinAll hroot hvalid] at hhost
      refine ⟨dirs, name, leaf, hleads, hleaf, fun dir hmem => ?_, hhost, hpath⟩
      refine (isSkipped_eq_false_iff (hvalid dir (List.mem_append_left _ hmem))).mp ?_
      exact hfound.passed dir (by simpa using hmem)
  · rintro ⟨dirs, name, leaf, hleads, hleaf, hpassed, hhost, rfl⟩
    have hvalid := hleads.isName hnames
    refine ⟨dirs ++ [name], ⟨leaf, hleads, hleaf⟩, fun dir hmem => ?_, (isHost_iff extensions _).mpr ?_, rfl⟩
    · rw [List.dropLast_concat] at hmem
      exact (isSkipped_eq_false_iff (hvalid dir (List.mem_append_left _ hmem))).mpr (hpassed dir hmem)
    · rw [Path.extension_joinAll hroot hvalid]
      exact hhost

def hiddenTree : Tree := .directory
  [("x.cpp", .directory [("B.CPP", .file []), (".d", .directory [("e.cpp", .file [])])]), (".h.cpp", .file []),
    ("node_modules", .directory [("c.cpp", .file [])]), ("n.txt", .file [])]

def hiddenDisk : Disk := ⟨"/", .directory [(".w", hiddenTree)]⟩

theorem hiddenTree_wellNamed : hiddenTree.WellNamed := by
  have hlisted (name : String) (text : Bytes) (h : Path.IsName name) :
      (Tree.directory [(name, .file text)]).WellNamed :=
    .directory (by simpa using h) (by simp) (by simpa using .file text)
  have hinner : (Tree.directory [("B.CPP", .file []), (".d", .directory [("e.cpp", .file [])])]).WellNamed := by
    refine .directory (by decide +kernel) (by decide +kernel) ?_
    simpa using ⟨.file [], hlisted "e.cpp" [] (by decide +kernel)⟩
  refine .directory (by decide +kernel) (by decide +kernel) ?_
  simpa using ⟨hinner, .file [], hlisted "c.cpp" [] (by decide +kernel), .file []⟩

theorem find_ascending_hiddenDisk :
    (hiddenDisk.entry "lstat" ".w" = .ok hiddenTree ∧ hiddenTree.isDirectory = true ∧ hiddenTree.WellNamed) ∧
      ∃ paths, find hiddenDisk ".w" [] = .ok paths ∧ (paths.Pairwise fun a b => utf8 a < utf8 b) ∧
        ".w/x.cpp/B.CPP" ∈ paths ∧ ".w/.h.cpp" ∈ paths ∧ ".w/x.cpp/.d/e.cpp" ∉ paths := by
  have hentry : hiddenDisk.entry "lstat" ".w" = .ok hiddenTree := rfl
  obtain ⟨paths, hfind, hsorted, hmem⟩ := find_ascending hentry rfl hiddenTree_wellNamed []
  have hwanted : lower (if ".cpp".toList.head? = some '.' then ".cpp" else "." ++ ".cpp") = ".cpp" := by
    decide +kernel
  refine ⟨⟨hentry, rfl, hiddenTree_wellNamed⟩, paths, hfind, hsorted, ?_, ?_, fun hpath => ?_⟩
  · have hleads : hiddenTree.Leads ["x.cpp", "B.CPP"] (.file []) := .down (.head _) (.down (.head _) (.here _))
    have hjoin : Path.joinAll ".w" ["x.cpp", "B.CPP"] = ".w/x.cpp/B.CPP" := by decide +kernel
    have hpassed : ∀ dir ∈ ["x.cpp"], dir.toList.head? ≠ some '.' ∧ dir ≠ "node_modules" := by decide +kernel
    have hhost : lower (Path.extension "B.CPP") = ".cpp" := by decide +kernel
    exact (hmem _).mpr ⟨["x.cpp"], "B.CPP", .file [], hleads, rfl, hpassed,
      ⟨".cpp", List.mem_singleton_self _, hhost.trans hwanted.symm⟩, hjoin.symm⟩
  · have hleads : hiddenTree.Leads [".h.cpp"] (.file []) := .down (.tail _ (.head _)) (.here _)
    have hjoin : Path.joinAll ".w" [".h.cpp"] = ".w/.h.cpp" := by decide +kernel
    have hhost : lower (Path.extension ".h.cpp") = ".cpp" := by decide +kernel
    exact (hmem _).mpr ⟨[], ".h.cpp", .file [], hleads, rfl, by simp,
      ⟨".cpp", List.mem_singleton_self _, hhost.trans hwanted.symm⟩, hjoin.symm⟩
  · obtain ⟨dirs, name, leaf, hleads, -, hpassed, -, hjoin⟩ := (hmem _).mp hpath
    have hnames : ∀ n ∈ ["x.cpp", ".d", "e.cpp"], Path.IsName n := by decide +kernel
    have hroot : Path.joinAll ".w" ["x.cpp", ".d", "e.cpp"] = ".w/x.cpp/.d/e.cpp" := by decide +kernel
    have hsame : ["x.cpp", ".d"] ++ ["e.cpp"] = dirs ++ [name] :=
      Path.joinAll_inj (by decide) hnames (hleads.isName hiddenTree_wellNamed) (hroot.trans hjoin)
    obtain ⟨rfl, -⟩ := List.append_inj' hsame rfl
    exact (hpassed ".d" (by simp)).1 (by decide +kernel)

def linkTree : Tree := .directory [("a.cpp", .file []), ("x.cpp", .broken)]

/-- The link is listed, though there is no file at its path. -/
theorem linkTree_listed :
    find ⟨"/", linkTree⟩ "." [] = .ok ["a.cpp", "x.cpp"] ∧
      ∀ names text, "x.cpp" = Path.joinAll "." names → ¬ linkTree.Leads names (.file text) := by
  have hentry : (Disk.mk "/" linkTree).entry "lstat" "." = .ok linkTree := rfl
  have hbelow : below (wanted []) "." linkTree = ["a.cpp", "x.cpp"] := by decide +kernel
  have hsort : sortStrings ["a.cpp", "x.cpp"] = ["a.cpp", "x.cpp"] := List.mergeSort_of_pairwise (by decide)
  refine ⟨by rw [find, hentry, ← hsort, ← hbelow]; rfl, fun names text hjoin hleads => ?_⟩
  have htree : linkTree.WellNamed := by
    refine .directory (by decide +kernel) (by decide +kernel) ?_
    simpa using ⟨.file [], .broken⟩
  have hpath : Path.joinAll "." ["x.cpp"] = "x.cpp" := by decide +kernel
  obtain rfl : ["x.cpp"] = names :=
    Path.joinAll_inj (by decide) (by decide +kernel) (hleads.isName htree) (hpath.trans hjoin)
  cases hleads with
  | down hmem hrest =>
    cases hrest
    simp at hmem

end HostFiles

end HostScript
