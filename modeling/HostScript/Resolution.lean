import HostScript.Diagnostic
import HostScript.Workspace

set_option autoImplicit false

namespace HostScript

structure Resolution where
  /-- The blocks of the focal document, then included scripts in depth-first order. -/
  blocks : List Block
  diagnostics : List Diagnostic

def danglingInclude : String := "dangling-include"

namespace Resolution

def dangling (block : Block) (statement : Include) (target : Nat) : Diagnostic where
  uri := block.uri
  range := statement.range
  severity := some .error
  message := utf8 (includeKeyword ++ " " ++ toString target ++ ": no script with this number exists")
  code := danglingInclude

structure Step where
  block : Block
  statement : Include
  target : Nat

def steps (block : Block) : List Step :=
  block.includes.filterMap fun statement => statement.target.map fun target => ⟨block, statement, target⟩

def unvisited (ix : Index) (visited : List Nat) : Nat :=
  (ix.blocks.filter fun b => b.kind == .script && b.number.any fun n => !visited.contains n).length

theorem lookup_mem {ix : Index} {n : Nat} {b : Block} (h : ix.lookup n = some b) :
    b ∈ ix.blocks ∧ b.defines n = true := by
  have hm : b ∈ ix.definitions n := List.mem_of_mem_head? h
  simpa [Index.definitions] using hm

theorem unvisited_lt {ix : Index} {visited : List Nat} {n : Nat} {b : Block}
    (hn : visited.contains n = false) (h : ix.lookup n = some b) :
    unvisited ix (n :: visited) < unvisited ix visited := by
  obtain ⟨hb, hd⟩ := lookup_mem h
  simp only [Block.defines, Bool.and_eq_true, beq_iff_eq] at hd
  have hsub : (ix.blocks.filter fun b => b.kind == .script && b.number.any fun k => !(n :: visited).contains k)
      = ((ix.blocks.filter fun b => b.kind == .script && b.number.any fun k => !visited.contains k).filter
          fun b => b.number != some n) := by
    rw [List.filter_filter]
    apply List.filter_congr
    intro x _
    cases hx : x.number with
    | none => simp
    | some k => by_cases hk : k = n <;> simp [hk]
  unfold unvisited
  rw [hsub]
  refine Nat.lt_of_le_of_ne (List.length_filter_le _ _) ?_
  intro heq
  rw [List.length_filter_eq_length_iff] at heq
  have hmem : b ∈ ix.blocks.filter fun b => b.kind == .script && b.number.any fun k => !visited.contains k := by
    simp only [List.mem_filter, hd.1, hd.2]
    simp only [List.contains_eq_mem, decide_eq_false_iff_not] at hn
    simp [hb, hn]
  have := heq b hmem
  simp [hd.2] at this

set_option linter.unusedVariables false in
/-- Follows includes depth first: a script not visited before is added, and its own includes come
before those that are still to do. -/
def follow (ix : Index) (visited : List Nat) : List Step → Resolution
  | [] => ⟨[], []⟩
  | step :: rest =>
    if hv : visited.contains step.target then follow ix visited rest
    else match h : ix.lookup step.target with
      | none =>
        let after := follow ix visited rest
        ⟨after.blocks, dangling step.block step.statement step.target :: after.diagnostics⟩
      | some block =>
        let after := follow ix (step.target :: visited) (steps block ++ rest)
        ⟨block :: after.blocks, after.diagnostics⟩
termination_by todo => (unvisited ix visited, todo.length)
decreasing_by
  · exact Prod.Lex.right _ (by simp)
  · exact Prod.Lex.right _ (by simp)
  · exact Prod.Lex.left _ _ (unvisited_lt (by simpa using hv) h)

def definedNumbers (blocks : List Block) : List Nat :=
  blocks.filterMap fun b => if b.kind = .script then b.number else none

def leadsOut (blocks : List Block) : Bool :=
  (blocks.flatMap steps).any fun step => !(definedNumbers blocks).contains step.target

/-- Every block reachable from a document. Scripts are visited at most once, so circular
includes end. The index is asked for only when an include leads out of the document. -/
def ofDocument (ws : Workspace) (uri : String) : ReadM Resolution := do
  let focal ← ws.blocks uri
  if leadsOut focal then
    let found := follow (← ws.index) (definedNumbers focal) (focal.flatMap steps)
    return ⟨focal ++ found.blocks, found.diagnostics⟩
  else return ⟨focal, []⟩

end Resolution

end HostScript
