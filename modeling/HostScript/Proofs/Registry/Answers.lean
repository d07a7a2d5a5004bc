import HostScript.Proofs.Check.Sites
import HostScript.Proofs.InsertPoint.Order
import HostScript.Proofs.Resolution.Reachable
import HostScript.Registry

/-!
What a registry answers after an index has been stored. The rows stand in the order of the blocks
under growing keys, so each answer is what a walk over the blocks of the index finds.
-/

set_option autoImplicit false

namespace HostScript

section

variable {α : Type} [DecidableEq α]

theorem mem_dropRepeats {a : α} {as : List α} : a ∈ dropRepeats as ↔ a ∈ as := by
  fun_induction dropRepeats as with
  | case1 => rfl
  | case2 b => rfl
  | case3 b rest ih => simp [ih]
  | case4 b c rest hne ih => simp [ih]

theorem pairwise_dropRepeats {le lt : α → α → Prop} (refl : ∀ a, le a a)
    (strict : ∀ a b c, le a b → a ≠ b → le b c → lt a c) {as : List α} (h : as.Pairwise le) :
    (dropRepeats as).Pairwise lt := by
  fun_induction dropRepeats as with
  | case1 => exact .nil
  | case2 b => exact List.pairwise_singleton _ _
  | case3 b rest ih => exact ih h.of_cons
  | case4 a b rest hne ih =>
    obtain ⟨ha, hb⟩ := List.pairwise_cons.mp h
    refine List.pairwise_cons.mpr ⟨fun c hc => ?_, ih hb⟩
    refine strict a b c (ha b List.mem_cons_self) hne ?_
    cases List.mem_cons.mp (mem_dropRepeats.mp hc) with
    | inl hc => exact hc ▸ refl b
    | inr hc => exact (List.pairwise_cons.mp hb).1 c hc

end

namespace Document

theorem lineAt_mono (d : Document) {o o' : Nat} (h : o ≤ o') : d.lineAt o ≤ d.lineAt o' := by
  rw [lineAt_eq_count, lineAt_eq_count]
  exact (List.take_sublist_take_left h).count_le _

theorem positionAt_line_mono (d : Document) {o o' : Int} (h : o ≤ o') :
    (d.positionAt o).line ≤ (d.positionAt o').line :=
  Int.ofNat_le.mpr (d.lineAt_mono (by simp only [clamp]; omega))

end Document

theorem Block.includes_lines {doc : Document} {block : Block} (hb : block ∈ Block.scan doc) :
    block.includes.Pairwise fun i j => i.range.start.line ≤ j.range.start.line := by
  have hwords : ((Parse.bodyWords doc block).map (Parse.place doc)).Pairwise fun p q => p.line ≤ q.line :=
    List.pairwise_map.mpr (Parse.bodyWords_ascending.imp fun h => doc.positionAt_line_mono (Int.le_of_lt h))
  have hplaces : (block.includes.map (·.range.start)).Pairwise fun p q => p.line ≤ q.line :=
    hwords.sublist (Block.includes_places hb)
  rw [List.pairwise_map] at hplaces
  exact hplaces

namespace Registry

def includeRows (key : Nat) (b : Block) : List IncludeRow :=
  b.includes.filterMap fun i => i.target.map fun target => ⟨key, target, i.range.start.line⟩

def hookRows (key : Nat) (b : Block) : List HookRow :=
  b.hooks.filterMap fun h => h.marker.map fun (number, name) => ⟨key, name, number, h.range.start.line⟩

def rows (first : Nat) (bs : List Block) : List BlockRow :=
  (bs.zipIdx first).map fun entry => ⟨entry.2, .ofBlock entry.1⟩

theorem foldl_add (r : Registry) (bs : List Block) : bs.foldl add r =
    { blocks := r.blocks ++ rows r.nextKey bs
      includes := r.includes ++ (bs.zipIdx r.nextKey).flatMap fun entry => includeRows entry.2 entry.1
      hooks := r.hooks ++ (bs.zipIdx r.nextKey).flatMap fun entry => hookRows entry.2 entry.1
      nextKey := r.nextKey + bs.length } := by
  induction bs generalizing r with
  | nil => simp [rows]
  | cons b bs ih =>
    rw [List.foldl_cons, ih]
    simp only [add, rows, List.zipIdx_cons, List.map_cons, List.flatMap_cons, List.append_assoc,
      List.cons_append, List.nil_append, List.length_cons, includeRows, hookRows]
    congr 1
    omega

section Rows

variable (first : Nat) (bs : List Block)

theorem rows_entries : (rows first bs).map (·.entry) = bs.map .ofBlock := by
  simp only [rows, List.map_map]
  rw [← List.zipIdx_map_fst first bs, List.map_map]
  simp [Function.comp_def]

theorem zipIdx_keys : (bs.zipIdx first).Pairwise fun a b => a.2 < b.2 := by
  have hkeys : ((bs.zipIdx first).map Prod.snd).Pairwise fun k l => k < l := by
    rw [List.zipIdx_map_snd]
    exact List.pairwise_lt_range' 1
  exact List.pairwise_map.mp hkeys

theorem rows_keys : (rows first bs).Pairwise fun a b => a.key < b.key :=
  List.pairwise_map.mpr (zipIdx_keys first bs)

variable {first bs}

theorem filter_key {row : BlockRow} {all : List BlockRow} (h : all.Pairwise fun a b => a.key < b.key)
    (hm : row ∈ all) : all.filter (·.key == row.key) = [row] := by
  induction all with
  | nil => cases hm
  | cons a all ih =>
    obtain ⟨ha, hall⟩ := List.pairwise_cons.mp h
    cases List.mem_cons.mp hm with
    | inl heq =>
      subst heq
      rw [List.filter_cons_of_pos (by simp), List.filter_eq_nil_iff.mpr fun b hb => ?_]
      have := ha b hb
      simp
      omega
    | inr hm =>
      have := ha row hm
      rw [List.filter_cons_of_neg (by simp; omega), ih hall hm]

theorem rows_filter {entry : Block × Nat} (h : entry ∈ bs.zipIdx first) :
    (rows first bs).filter (·.key == entry.2) = [⟨entry.2, .ofBlock entry.1⟩] :=
  filter_key (rows_keys first bs) (List.mem_map.mpr ⟨entry, h, rfl⟩)

end Rows

theorem ofBlock_number {b : Block} {n : Nat} :
    ((Entry.ofBlock b).number == (n : Int)) = (b.number == some n) := by
  simp only [Entry.ofBlock, Block.id]
  cases b.number with
  | none => simp
  | some k =>
    rw [Bool.eq_iff_iff, beq_iff_eq, beq_iff_eq, Option.some.injEq]
    exact Int.ofNat_inj

theorem store_eq (r : Registry) (ix : Index) : r.store ix =
    { blocks := rows r.nextKey ix.blocks
      includes := (ix.blocks.zipIdx r.nextKey).flatMap fun entry => includeRows entry.2 entry.1
      hooks := (ix.blocks.zipIdx r.nextKey).flatMap fun entry => hookRows entry.2 entry.1
      nextKey := r.nextKey + ix.blocks.length } := by
  rw [store, foldl_add]
  rfl

theorem lookup_store (r : Registry) (ix : Index) (n : Nat) :
    (r.store ix).lookup n = (ix.blocks.filter (·.number == some n)).map .ofBlock := by
  have hsorted := ((rows_keys r.nextKey ix.blocks).filter (·.entry.number == (n : Int))).imp
    (S := fun a b => decide (a.key ≤ b.key) = true) fun h => by simpa using Nat.le_of_lt h
  rw [store_eq, lookup, List.mergeSort_of_pairwise hsorted]
  calc ((rows r.nextKey ix.blocks).filter (·.entry.number == (n : Int))).map (·.entry)
      = ((rows r.nextKey ix.blocks).map (·.entry)).filter (·.number == (n : Int)) := by
        rw [List.filter_map]
        rfl
    _ = (ix.blocks.filter fun b => (Entry.ofBlock b).number == (n : Int)).map .ofBlock := by
        rw [rows_entries, List.filter_map]
        rfl
    _ = (ix.blocks.filter (·.number == some n)).map .ofBlock := by
        simp only [ofBlock_number]

theorem count_store (r : Registry) (ix : Index) : (r.store ix).count = ix.blocks.length := by
  rw [store_eq, count, rows, List.length_map, List.length_zipIdx]

theorem filter_includeRows (key : Nat) (b : Block) (n : Nat) :
    (includeRows key b).filter (fun row => (row.target : Int) == (n : Int))
      = (b.includes.filter (·.target == some n)).map fun i => ⟨key, n, i.range.start.line⟩ := by
  unfold includeRows
  induction b.includes with
  | nil => rfl
  | cons i is ih =>
    cases ht : i.target with
    | none => simp [ht, ih]
    | some target =>
      by_cases hn : target = n
      · simp [ht, hn, ih]
      · have hint : ¬(target : Int) = n := by omega
        simp [ht, hn, hint, ih]

/-- An include with its block under a key, as the rows of blocks and includes are joined. -/
def joined (n : Nat) (entry : Block × Nat) : List (BlockRow × Int) :=
  (entry.1.includes.filter (·.target == some n)).map fun i =>
    (⟨entry.2, .ofBlock entry.1⟩, i.range.start.line)

theorem join_includes (first : Nat) (bs : List Block) (n : Nat) :
    (((bs.zipIdx first).flatMap fun entry => includeRows entry.2 entry.1).filter
        (fun row => (row.target : Int) == (n : Int))).flatMap (fun row =>
          ((rows first bs).filter (·.key == row.block)).map fun b => (b, row.line))
      = (bs.zipIdx first).flatMap (joined n) := by
  rw [List.filter_flatMap, List.flatMap_assoc]
  refine List.flatMap_congr fun entry he => ?_
  rw [filter_includeRows, List.flatMap_map, joined, List.map_eq_flatMap]
  refine List.flatMap_congr fun i _ => ?_
  rw [rows_filter he, List.map_singleton]

theorem joined_sorted (first : Nat) {bs : List Block} (n : Nat)
    (h : ∀ b ∈ bs, b.includes.Pairwise fun i j => i.range.start.line ≤ j.range.start.line) :
    ((bs.zipIdx first).flatMap (joined n)).Pairwise fun x y =>
      x.1.key < y.1.key ∨ x.1.key = y.1.key ∧ x.2 ≤ y.2 := by
  refine List.pairwise_flatMap.mpr ⟨fun entry he => ?_, (zipIdx_keys first bs).imp fun hlt x hx y hy => ?_⟩
  · have hb : entry.1 ∈ bs := by
      rw [← List.zipIdx_map_fst first bs]
      exact List.mem_map_of_mem he
    exact List.pairwise_map.mpr (((h _ hb).filter _).imp fun hle => Or.inr ⟨rfl, hle⟩)
  · obtain ⟨i, _, rfl⟩ := List.mem_map.mp hx
    obtain ⟨j, _, rfl⟩ := List.mem_map.mp hy
    exact Or.inl hlt

theorem includers_store (r : Registry) {ix : Index} (n : Nat)
    (h : ∀ b ∈ ix.blocks, b.includes.Pairwise fun i j => i.range.start.line ≤ j.range.start.line) :
    (r.store ix).includers n = (ix.includeSites n).map fun site =>
      ⟨.ofBlock site.block, site.statement.range.start.line⟩ := by
  have hsorted := (joined_sorted r.nextKey n h).imp
    (S := fun x y => decide (x.1.key < y.1.key ∨ x.1.key = y.1.key ∧ x.2 ≤ y.2) = true)
    fun h => decide_eq_true h
  rw [store_eq, includers, join_includes, List.mergeSort_of_pairwise hsorted, Index.includeSites,
    List.map_flatMap, List.map_flatMap]
  conv_rhs => rw [← List.zipIdx_map_fst r.nextKey ix.blocks, List.flatMap_map]
  refine List.flatMap_congr fun entry _ => ?_
  simp [joined, Function.comp_def]

/-- A script of the number declares a well-formed hook of the name. -/
def Declares (ix : Index) (n : Nat) (name : Bytes) : Prop :=
  ∃ b ∈ ix.definitions n, ∃ hook ∈ b.hooks, ∃ number, hook.marker = some (number, name)

theorem mem_hookRows {key : Nat} {b : Block} {row : HookRow} : row ∈ hookRows key b ↔
    ∃ hook ∈ b.hooks, hook.marker = some (row.number, row.name) ∧ row.block = key ∧
      row.line = hook.range.start.line := by
  simp only [hookRows, List.mem_filterMap, Option.map_eq_some_iff]
  constructor
  · rintro ⟨hook, hh, ⟨number, name⟩, hm, rfl⟩
    exact ⟨hook, hh, hm, rfl, rfl⟩
  · rintro ⟨hook, hh, hm, rfl, hl⟩
    exact ⟨hook, hh, _, hm, by rw [← hl]⟩

theorem mem_hooksOf_store (r : Registry) (ix : Index) (n : Nat) (name : Bytes) :
    name ∈ (r.store ix).hooksOf n ↔ Declares ix n name := by
  rw [store_eq, hooksOf, mem_dropRepeats, List.mem_mergeSort]
  simp only [List.mem_flatMap, List.mem_map, List.mem_filter, Bool.and_eq_true, beq_iff_eq]
  constructor
  · rintro ⟨row, ⟨entry, he, hrow⟩, stored, ⟨hs, ⟨hkey, hnumber⟩, hkind⟩, rfl⟩
    obtain ⟨hook, hh, hm, hblock, _⟩ := mem_hookRows.mp hrow
    -- The keys of blocks differ, so the row of the block that was joined is that of the hook.
    have hone : stored ∈ (rows r.nextKey ix.blocks).filter (·.key == entry.2) :=
      List.mem_filter.mpr ⟨hs, by rw [hkey, hblock, beq_self_eq_true]⟩
    rw [rows_filter he, List.mem_singleton] at hone
    subst hone
    have hb : entry.1 ∈ ix.blocks := by
      rw [← List.zipIdx_map_fst r.nextKey ix.blocks]
      exact List.mem_map_of_mem he
    have hdefines : entry.1.defines n = true := by
      rw [Block.defines, ← ofBlock_number, Bool.and_eq_true, beq_iff_eq, beq_iff_eq]
      exact ⟨hkind, hnumber⟩
    exact ⟨entry.1, List.mem_filter.mpr ⟨hb, hdefines⟩, hook, hh, row.number, hm⟩
  · rintro ⟨b, hb, hook, hh, number, hm⟩
    obtain ⟨hb, hdefines⟩ := List.mem_filter.mp hb
    rw [Block.defines, ← ofBlock_number, Bool.and_eq_true, beq_iff_eq, beq_iff_eq] at hdefines
    rw [← List.zipIdx_map_fst r.nextKey ix.blocks] at hb
    obtain ⟨entry, he, rfl⟩ := List.mem_map.mp hb
    exact ⟨⟨entry.2, name, number, hook.range.start.line⟩,
      ⟨entry, he, mem_hookRows.mpr ⟨hook, hh, hm, rfl, rfl⟩⟩, ⟨entry.2, .ofBlock entry.1⟩,
      ⟨List.mem_map.mpr ⟨entry, he, rfl⟩, ⟨rfl, hdefines.2⟩, hdefines.1⟩, rfl⟩

theorem hooksOf_ascending (r : Registry) (n : Int) :
    (r.hooksOf n).Pairwise fun a b => a.less b = true := by
  have hle (a b : Bytes) : (!b.less a) = true ↔ a ≤ b := by
    rw [Bool.not_eq_true', ← Bool.not_eq_true, Bytes.less_iff, List.not_lt]
  refine pairwise_dropRepeats (fun a => (hle a a).mpr (List.le_refl a)) (fun a b c hab hne hbc => ?_)
    (List.pairwise_mergeSort (fun a b c hab hbc => ?_) (fun a b => ?_) _)
  · rw [hle] at hab hbc
    rw [Bytes.less_iff]
    refine Classical.byContradiction fun hnot => hne ?_
    exact List.le_antisymm hab (List.le_trans hbc (List.not_lt.mp hnot))
  · rw [hle] at hab hbc ⊢
    exact List.le_trans hab hbc
  · rw [Bool.or_eq_true, hle, hle]
    exact List.le_total a b

end Registry

namespace Database

theorem store_of_open {db : Database} (h : db.isOpen = true) (ix : Index) :
    db.store false ix = .ok { db with registry := db.registry.store ix } := by
  simp [store, ask, h]

/-- Whatever was stored before, after an index has been stored a number is looked up, its includers,
hooks and the count of blocks are found as in the index. -/
theorem answers_of_store {ws : Workspace} {source : Supply} {ix : Index}
    (hi : ReadM.run source ws.index = .ok ix) {db stored : Database} {cancelled : Bool}
    (hs : db.store cancelled ix = .ok stored) (n : Nat) :
    stored.ask false (.lookup n) (·.lookup n)
        = .ok ((ix.blocks.filter (·.number == some n)).map .ofBlock) ∧
      stored.ask false (.includers n) (·.includers n) = .ok ((ix.includeSites n).map fun site =>
        ⟨.ofBlock site.block, site.statement.range.start.line⟩) ∧
      (∃ names, stored.ask false (.hooks n) (·.hooksOf n) = .ok names ∧
        names.Pairwise (fun a b => a.less b = true) ∧
        ∀ name, name ∈ names ↔ Registry.Declares ix n name) ∧
      stored.ask false .count (·.count) = .ok ix.blocks.length := by
  obtain ⟨hopen, rfl⟩ : db.isOpen = true ∧ stored = { db with registry := db.registry.store ix } := by
    unfold store ask at hs
    split at hs
    · cases hs
    · split at hs
      · cases hs
      · exact ⟨by simpa using ‹¬(!db.isOpen) = true›, (Except.ok.inj hs).symm⟩
  have hask {α : Type} (action : DatabaseAction) (answer : Registry → α) :
      ({ db with registry := db.registry.store ix } : Database).ask false action answer
        = .ok (answer (db.registry.store ix)) := by
    simp [ask, hopen]
  have hlines : ∀ b ∈ ix.blocks, b.includes.Pairwise fun i j => i.range.start.line ≤ j.range.start.line := by
    obtain ⟨rfl, hfound⟩ := Workspace.run_index_ok hi
    intro b hb
    obtain ⟨uri, hu, hb⟩ := List.mem_flatMap.mp hb
    obtain ⟨file, hf⟩ := hfound uri hu
    have hb : b ∈ file.blocks := by simpa only [Workspace.blocksFrom, hf] using hb
    exact Block.includes_lines (file.blocks_eq ▸ hb)
  rw [hask, hask, hask, hask, Registry.lookup_store, Registry.includers_store _ n hlines,
    Registry.count_store]
  exact ⟨rfl, rfl, ⟨_, rfl, Registry.hooksOf_ascending _ n, Registry.mem_hooksOf_store _ ix n⟩, rfl⟩

open Resolution in
theorem answers_of_store_circular :
    let ws := circular.workspace none
    let source := Snapshot.source (circular.freeze circularDisk)
    ∃ ix before stored, ReadM.run source ws.index = .ok ix ∧
      inMemory.store false ix = .ok before ∧ before.store false ix = .ok stored ∧
      stored.ask false (.includers 1) (·.includers 1) = .ok ((ix.includeSites 1).map fun site =>
        ⟨.ofBlock site.block, site.statement.range.start.line⟩) := by
  intro ws source
  have hi := circular_readable.run_index
  have hbefore := store_of_open (rfl : inMemory.isOpen = true) (ws.indexFrom source)
  have hstored := store_of_open (rfl : ({ inMemory with
    registry := inMemory.registry.store (ws.indexFrom source) } : Database).isOpen = true) (ws.indexFrom source)
  exact ⟨_, _, _, hi, hbefore, hstored, (answers_of_store hi hstored 1).2.1⟩

end Database

end HostScript
