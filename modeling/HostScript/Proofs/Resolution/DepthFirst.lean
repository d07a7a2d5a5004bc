import HostScript.Proofs.Resolution.Reachable
import Mathlib.Logic.Relation

/-!
The order in which included scripts are found. What a script leads to, by includes of scripts that are
not yet among the blocks found, stands right behind it, before anything else is added.
-/

set_option autoImplicit false

namespace HostScript.Resolution

/-- A block includes a script whose number is none of those taken, and the index has that script. -/
def Includes (ix : Index) (taken : List Nat) (b t : Block) : Prop :=
  ∃ statement ∈ b.includes, ∃ n, statement.target = some n ∧ n ∉ taken ∧ ix.lookup n = some t

/-- A block leads to a script by a chain of such includes. -/
abbrev LeadsTo (ix : Index) (taken : List Nat) : Block → Block → Prop :=
  Relation.TransGen (Includes ix taken)

theorem includes_iff_step {ix : Index} {taken : List Nat} {b t : Block} : Includes ix taken b t ↔
    ∃ step ∈ steps b, step.target ∉ taken ∧ ix.lookup step.target = some t := by
  constructor
  · rintro ⟨statement, hi, n, ht, hn, hl⟩
    exact ⟨⟨b, statement, n⟩, mem_steps.mpr ⟨rfl, hi, ht⟩, hn, hl⟩
  · rintro ⟨step, hs, hn, hl⟩
    obtain ⟨-, hi, ht⟩ := mem_steps.mp hs
    exact ⟨step.statement, hi, step.target, ht, hn, hl⟩

theorem Includes.mono {ix : Index} {taken fewer : List Nat} (h : fewer ⊆ taken) {b t : Block}
    (hi : Includes ix taken b t) : Includes ix fewer b t := by
  obtain ⟨statement, hm, n, ht, hn, hl⟩ := hi
  exact ⟨statement, hm, n, ht, fun hf => hn (h hf), hl⟩

/-- Only which numbers are taken matters. -/
theorem leadsTo_congr {ix : Index} {taken taken' : List Nat} (h : ∀ n, n ∈ taken ↔ n ∈ taken') (b t : Block) :
    LeadsTo ix taken b t ↔ LeadsTo ix taken' b t := by
  have hle (n : Nat) : n ∈ taken' → n ∈ taken := (h n).mpr
  have hge (n : Nat) : n ∈ taken → n ∈ taken' := (h n).mp
  exact ⟨Relation.TransGen.mono (fun _ _ hi => hi.mono hle) b t,
    Relation.TransGen.mono (fun _ _ hi => hi.mono hge) b t⟩

section Follow

variable {ix : Index} {visited : List Nat} {step : Step} {rest : List Step} {b : Block}

theorem follow_visited (h : step.target ∈ visited) : follow ix visited (step :: rest) = follow ix visited rest := by
  rw [follow, dif_pos (by simpa using h)]

theorem follow_missing (hn : step.target ∉ visited) (hl : ix.lookup step.target = none) :
    (follow ix visited (step :: rest)).blocks = (follow ix visited rest).blocks := by
  rw [follow, dif_neg (by simpa using hn)]
  split
  · rfl
  · rename_i b hb
    rw [hl] at hb
    cases hb

theorem follow_found (hn : step.target ∉ visited) (hl : ix.lookup step.target = some b) :
    (follow ix visited (step :: rest)).blocks
      = b :: (follow ix (step.target :: visited) (steps b ++ rest)).blocks := by
  rw [follow, dif_neg (by simpa using hn)]
  split
  · rename_i hnone
    rw [hl] at hnone
    cases hnone
  · rename_i b' hb
    obtain rfl : b = b' := Option.some.inj (hl.symm.trans hb)
    rfl

end Follow

theorem follow_prefix (ix : Index) (visited : List Nat) (todo rest : List Step) :
    (follow ix visited todo).blocks <+: (follow ix visited (todo ++ rest)).blocks := by
  fun_induction follow ix visited todo with
  | case1 visited => exact List.nil_prefix
  | case2 visited step todo hv ih => rwa [List.cons_append, follow_visited (by simpa using hv)]
  | case3 visited step todo hv h after ih => rwa [List.cons_append, follow_missing (by simpa using hv) h]
  | case4 visited step todo hv block h after ih =>
    rw [List.cons_append, follow_found (by simpa using hv) h, ← List.append_assoc]
    exact (List.prefix_cons_inj block).mpr ih

/-- Every block that is found is one that an include to follow leads to, or comes after such a one. -/
theorem follow_leads {ix : Index} (visited : List Nat) (todo : List Step) :
    ∀ t ∈ (follow ix visited todo).blocks, ∃ step ∈ todo, ∃ c, step.target ∉ visited ∧
      ix.lookup step.target = some c ∧ Relation.ReflTransGen (Includes ix visited) c t := by
  fun_induction follow ix visited todo with
  | case1 visited => simp
  | case2 visited step rest _ ih =>
    intro t ht
    obtain ⟨s, hs, hc⟩ := ih t ht
    exact ⟨s, List.mem_cons_of_mem _ hs, hc⟩
  | case3 visited step rest _ h after ih =>
    intro t ht
    obtain ⟨s, hs, hc⟩ := ih t ht
    exact ⟨s, List.mem_cons_of_mem _ hs, hc⟩
  | case4 visited step rest hn block h after ih =>
    have hstep : step.target ∉ visited := by simpa using hn
    intro t ht
    rcases List.mem_cons.mp ht with rfl | ht
    · exact ⟨step, List.mem_cons_self, t, hstep, h, .refl⟩
    · obtain ⟨s, hs, c, hfresh, hl, hchain⟩ := ih t ht
      have hfewer : visited ⊆ step.target :: visited := List.subset_cons_self _ _
      have hchain : Relation.ReflTransGen (Includes ix visited) c t :=
        Relation.ReflTransGen.mono (fun _ _ hi => hi.mono hfewer) c t hchain
      have hold : s.target ∉ visited := fun hm => hfresh (hfewer hm)
      rcases List.mem_append.mp hs with hs | hs
      · have hi : Includes ix visited block c := includes_iff_step.mpr ⟨s, hs, hold, hl⟩
        exact ⟨step, List.mem_cons_self, block, hstep, h, .head hi hchain⟩
      · exact ⟨s, List.mem_cons_of_mem _ hs, c, hold, hl, hchain⟩

theorem mem_follow_steps_iff (ix : Index) (visited : List Nat) (b t : Block) :
    t ∈ (follow ix visited (steps b)).blocks ↔ LeadsTo ix visited b t := by
  constructor
  · intro ht
    obtain ⟨step, hs, c, hn, hl, hchain⟩ := follow_leads visited (steps b) t ht
    exact .head' (includes_iff_step.mpr ⟨step, hs, hn, hl⟩) hchain
  · intro hchain
    have hclosed (step : Step) (hn : step.target ∉ visited) {c : Block} (hl : ix.lookup step.target = some c)
        (hs : step ∈ steps b ∨ ∃ d ∈ (follow ix visited (steps b)).blocks, step ∈ steps d) :
        c ∈ (follow ix visited (steps b)).blocks :=
      (follow_closed ix visited (steps b) step hs).resolve_left hn c hl
    induction hchain with
    | single hi =>
      obtain ⟨step, hs, hn, hl⟩ := includes_iff_step.mp hi
      exact hclosed step hn hl (.inl hs)
    | tail _ hi ih =>
      obtain ⟨step, hs, hn, hl⟩ := includes_iff_step.mp hi
      exact hclosed step hn hl (.inr ⟨_, ih, hs⟩)

theorem definedNumbers_append (bs cs : List Block) :
    definedNumbers (bs ++ cs) = definedNumbers bs ++ definedNumbers cs :=
  List.filterMap_append

theorem definedNumbers_cons {b : Block} {n : Nat} (h : b.defines n = true) (bs : List Block) :
    definedNumbers (b :: bs) = n :: definedNumbers bs := by
  simp only [Block.defines, Bool.and_eq_true, beq_iff_eq] at h
  simp [definedNumbers, h]

/-- Behind each block stands first what it leads to without the numbers visited before and those of the
blocks up to it. -/
theorem follow_depthFirst {ix : Index} (visited : List Nat) (todo : List Step) {rest : List Block} {b : Block} :
    ∀ front, (follow ix visited todo).blocks = front ++ b :: rest → ∃ below later, rest = below ++ later ∧
      ∀ t, t ∈ below ↔ LeadsTo ix (visited ++ definedNumbers (front ++ [b])) b t := by
  -- The blocks in front of the one in question have been visited when its includes are followed.
  fun_induction follow ix visited todo with
  | case1 visited => simp
  | case2 visited step todo _ ih => exact ih
  | case3 visited step todo _ h after ih => exact ih
  | case4 visited step todo _ block h after ih =>
    intro front hb
    have hnumbers := definedNumbers_cons (lookup_mem h).2
    cases front with
    | nil =>
      obtain ⟨rfl, rfl⟩ := List.cons.inj hb
      obtain ⟨later, hlater⟩ := follow_prefix ix (step.target :: visited) (steps block) todo
      refine ⟨_, later, hlater.symm, fun t =>
        (mem_follow_steps_iff ix _ block t).trans (leadsTo_congr (fun n => ?_) _ _)⟩
      rw [List.nil_append, hnumbers]
      simp [definedNumbers, or_comm]
    | cons first front =>
      obtain ⟨rfl, htail⟩ := List.cons.inj hb
      obtain ⟨below, later, hrest, hbelow⟩ := ih front htail
      refine ⟨below, later, hrest, fun t => (hbelow t).trans (leadsTo_congr (fun n => ?_) _ _)⟩
      simp [hnumbers, or_left_comm]

/-- The scripts added to the blocks of a document are in depth-first order: right behind each one stand
those that it leads to by includes of numbers which neither the document nor a script added up to it
defines. -/
theorem ofDocument_depthFirst {ws : Workspace} {source : Supply} (h : ws.ReadableFrom source) {uri : String}
    (hu : uri ∈ ws.uris) :
    ∃ doc ix found added, source uri = .ok (.ofDocument doc) ∧ ReadM.run source ws.index = .ok ix ∧
      ReadM.run source (ofDocument ws uri) = .ok found ∧ found.blocks = Block.scan doc ++ added ∧
      ∀ front b rest, added = front ++ b :: rest → ∃ below later, rest = below ++ later ∧
        ∀ t, t ∈ below ↔ LeadsTo ix (definedNumbers (Block.scan doc ++ (front ++ [b]))) b t := by
  obtain ⟨doc, _, hs⟩ := h.found uri hu
  have hr := run_ofDocument h hu
  rw [Workspace.blocksFrom_ofDocument hs] at hr
  refine ⟨doc, _, _, _, hs, h.run_index, hr, rfl, fun front b rest hb => ?_⟩
  rw [definedNumbers_append]
  exact follow_depthFirst _ _ front hb

/-- The numbers of the scripts found by following includes of given numbers. Which includes they are else
makes no difference. -/
def Finds (ix : Index) (visited targets numbers : List Nat) : Prop :=
  ∀ todo, todo.map (·.target) = targets → definedNumbers (follow ix visited todo).blocks = numbers

namespace Finds

variable {ix : Index} {visited targets numbers : List Nat} {n : Nat}

theorem nil : Finds ix visited [] [] := by
  intro todo htodo
  rw [List.map_eq_nil_iff.mp htodo, follow]
  rfl

theorem again (hn : n ∈ visited) (h : Finds ix visited targets numbers) :
    Finds ix visited (n :: targets) numbers := by
  intro todo htodo
  obtain ⟨step, rest, rfl, rfl, hrest⟩ := List.map_eq_cons_iff.mp htodo
  rw [follow_visited hn]
  exact h rest hrest

theorem fresh (more : List Nat) (hn : n ∉ visited)
    (hl : (ix.lookup n).map (fun b => (steps b).map (·.target)) = some more)
    (h : Finds ix (n :: visited) (more ++ targets) numbers) : Finds ix visited (n :: targets) (n :: numbers) := by
  intro todo htodo
  obtain ⟨step, rest, rfl, rfl, rfl⟩ := List.map_eq_cons_iff.mp htodo
  obtain ⟨b, hb, rfl⟩ := Option.map_eq_some_iff.mp hl
  rw [follow_found hn hb, definedNumbers_cons (lookup_mem hb).2, h _ List.map_append]

end Finds

def diamondTop : Document := .ofText "a" (utf8 "SCRIPT:1,A\nincludescript 2 includescript 3\nENDSCRIPT\n")

def diamondRest : Document :=
  .ofText "b" (utf8 ("SCRIPT:2,B\nincludescript 4\nENDSCRIPT\nSCRIPT:3,C\nincludescript 4\nENDSCRIPT\n"
    ++ "SCRIPT:4,D\nENDSCRIPT\n"))

def diamond : Workspace := ⟨["a", "b"], none⟩

def diamondSource : Supply := fun uri =>
  if uri = "a" then .ok (.ofDocument diamondTop)
  else if uri = "b" then .ok (.ofDocument diamondRest)
  else .error (.notFound uri)

theorem diamond_readable : diamond.ReadableFrom diamondSource := by
  constructor
  · intro uri huri
    have hcases : uri = "a" ∨ uri = "b" := by simpa [diamond] using huri
    rcases hcases with rfl | rfl
    · exact ⟨diamondTop, rfl, rfl⟩
    · exact ⟨diamondRest, rfl, rfl⟩
  · intro uri huri
    have hneither : uri ≠ "a" ∧ uri ≠ "b" := by simpa [diamond] using huri
    rw [diamondSource, if_neg hneither.1, if_neg hneither.2]

theorem diamond_numbers :
    Finds ⟨Block.scan diamondTop ++ Block.scan diamondRest⟩ [1] [2, 3] [2, 4, 3] := by
  refine .fresh [4] (by decide) (by decide +kernel) ?_
  refine .fresh [] (by decide) (by decide +kernel) ?_
  refine .fresh [4] (by decide) (by decide +kernel) ?_
  exact .again (by decide) .nil

theorem ofDocument_depthFirst_diamond :
    diamond.ReadableFrom diamondSource ∧ "a" ∈ diamond.uris ∧
      ∃ doc ix found added, diamondSource "a" = .ok (.ofDocument doc) ∧
        ReadM.run diamondSource diamond.index = .ok ix ∧
        ReadM.run diamondSource (ofDocument diamond "a") = .ok found ∧ found.blocks = Block.scan doc ++ added ∧
        definedNumbers added = [2, 4, 3] ∧
        ∀ front b rest, added = front ++ b :: rest → ∃ below later, rest = below ++ later ∧
          ∀ t, t ∈ below ↔ LeadsTo ix (definedNumbers (Block.scan doc ++ (front ++ [b]))) b t := by
  have hu : "a" ∈ diamond.uris := List.mem_cons_self
  obtain ⟨doc, ix, found, added, hs, hix, hr, hblocks, horder⟩ := ofDocument_depthFirst diamond_readable hu
  refine ⟨diamond_readable, hu, doc, ix, found, added, hs, hix, hr, hblocks, ?_, horder⟩
  have htop : Workspace.blocksFrom diamondSource "a" = Block.scan diamondTop := Workspace.blocksFrom_ofDocument rfl
  have hrest : Workspace.blocksFrom diamondSource "b" = Block.scan diamondRest := Workspace.blocksFrom_ofDocument rfl
  have hindex : diamond.indexFrom diamondSource = ⟨Block.scan diamondTop ++ Block.scan diamondRest⟩ := by
    simp [Workspace.indexFrom, diamond, htop, hrest]
  obtain rfl : diamondTop = doc := congrArg HostFile.doc (Except.ok.inj hs)
  have hnumbers : definedNumbers (Block.scan diamondTop) = [1] := by decide +kernel
  have hrun := Except.ok.inj ((run_ofDocument diamond_readable hu).symm.trans hr)
  rw [← hrun, htop, hindex, ofBlocks, hnumbers, List.append_cancel_left_eq] at hblocks
  rw [← hblocks]
  exact diamond_numbers _ (by decide +kernel)

end HostScript.Resolution
