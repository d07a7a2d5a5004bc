import HostScript.Quicksort

set_option autoImplicit false

namespace HostScript.Quicksort

variable {α : Type} {less : α → α → Bool}

theorem swap_perm (xs : Array α) (i j : Nat) : (xs.swapIfInBounds i j).Perm xs := by
  unfold Array.swapIfInBounds
  split
  · split
    · exact Array.swap_perm _ _
    · exact .refl _
  · exact .refl _

theorem foldl_perm {β : Type} {f : Array α → β → Array α} (hf : ∀ xs b, (f xs b).Perm xs) (bs : List β)
    (xs : Array α) : (bs.foldl f xs).Perm xs := by
  induction bs generalizing xs with
  | nil => exact .refl _
  | cons b bs ih => exact (ih _).trans (hf xs b)

theorem sink_perm (low i : Nat) (xs : Array α) : (sink less low i xs).Perm xs := by
  induction i generalizing xs with
  | zero => exact .refl _
  | succ i ih =>
    rw [sink]
    split
    · exact (ih _).trans (swap_perm ..)
    · exact .refl _

theorem rise_perm (count i : Nat) (xs : Array α) : (rise less count i xs).Perm xs := by
  induction count generalizing i xs with
  | zero => exact .refl _
  | succ count ih =>
    rw [rise]
    split
    · exact (ih ..).trans (swap_perm ..)
    · exact .refl _

theorem siftDown_perm (first size moves root : Nat) (xs : Array α) :
    (siftDown less first size moves root xs).Perm xs := by
  induction moves generalizing root xs with
  | zero => exact .refl _
  | succ moves ih =>
    simp only [siftDown]
    split
    · exact (ih ..).trans (swap_perm ..)
    · exact .refl _

theorem heapSort_perm (low high : Nat) (xs : Array α) : (heapSort less low high xs).Perm xs :=
  (foldl_perm (fun _ _ => (siftDown_perm ..).trans (swap_perm ..)) _ _).trans
    (foldl_perm (fun _ _ => siftDown_perm ..) _ _)

theorem settle_perm (low high i : Nat) (xs : Array α) : (settle less low high i xs).Perm xs := by
  have hsunk : (if 2 ≤ i - low then sink less 0 (i - 1) (xs.swapIfInBounds i (i - 1))
      else xs.swapIfInBounds i (i - 1)).Perm xs := by
    split
    · exact (sink_perm ..).trans (swap_perm ..)
    · exact swap_perm ..
  simp only [settle]
  split
  · exact (rise_perm ..).trans hsunk
  · exact hsunk

theorem mend_perm (low high tries place : Nat) (xs : Array α) :
    (mend less low high tries place xs).1.Perm xs := by
  induction tries generalizing place xs with
  | zero => exact .refl _
  | succ tries ih =>
    simp only [mend]
    split
    · exact .refl _
    split
    · exact .refl _
    · exact (ih ..).trans (settle_perm ..)

theorem exchange_perm (inFront inBack : Array α → Nat → Bool) (rounds i j : Nat) (untouched : Bool)
    (xs : Array α) : (exchange inFront inBack rounds i j untouched xs).1.Perm xs := by
  induction rounds generalizing i j untouched xs with
  | zero => exact .refl _
  | succ rounds ih =>
    simp only [exchange]
    split
    · exact .refl _
    · exact (ih ..).trans (swap_perm ..)

theorem partition_perm (low high pivot : Nat) (xs : Array α) :
    (partition less low high pivot xs).1.Perm xs :=
  (swap_perm ..).trans ((exchange_perm ..).trans (swap_perm ..))

theorem partitionEqual_perm (low high pivot : Nat) (xs : Array α) :
    (partitionEqual less low high pivot xs).1.Perm xs :=
  (exchange_perm ..).trans (swap_perm ..)

theorem scatter_perm (low high : Nat) (xs : Array α) : (scatter low high xs).Perm xs :=
  (swap_perm ..).trans ((swap_perm ..).trans (swap_perm ..))

theorem prepare_perm (low high : Nat) (balanced untouched : Bool) (xs : Array α) :
    (prepare less low high balanced untouched xs).1.Perm xs := by
  have hbroken : (if balanced then xs else scatter low high xs).Perm xs := by
    split
    · exact .refl _
    · exact scatter_perm ..
  simp only [prepare]
  generalize (if balanced then xs else scatter low high xs) = broken at hbroken ⊢
  generalize choosePivot less low high broken = pivot
  have hturned : (if pivot.2 == mostExchanges then reverse low high broken else broken).Perm xs := by
    split
    · exact (foldl_perm (fun _ _ => swap_perm ..) _ _).trans hbroken
    · exact hbroken
  split
  · exact (mend_perm ..).trans hturned
  · exact hturned

theorem sortSpan_perm (depth low high limit : Nat) (balanced untouched : Bool) (xs : Array α) :
    (sortSpan less depth low high limit balanced untouched xs).Perm xs := by
  induction depth generalizing low high limit balanced untouched xs with
  | zero => exact .refl _
  | succ depth ih =>
    simp only [sortSpan]
    have hready := @prepare_perm _ less low high balanced untouched xs
    generalize prepare less low high balanced untouched xs = ready at hready ⊢
    split
    · exact foldl_perm (fun _ _ => sink_perm ..) _ _
    split
    · exact heapSort_perm ..
    split
    · exact hready
    split
    · exact (ih ..).trans ((partitionEqual_perm ..).trans hready)
    split
    · exact (ih ..).trans ((ih ..).trans ((partition_perm ..).trans hready))
    · exact (ih ..).trans ((ih ..).trans ((partition_perm ..).trans hready))

end Quicksort

theorem quicksort_perm {α : Type} (less : α → α → Bool) (xs : List α) : (quicksort less xs).Perm xs :=
  (Quicksort.sortSpan_perm ..).toList

theorem mem_quicksort {α : Type} {less : α → α → Bool} {xs : List α} {a : α} :
    a ∈ quicksort less xs ↔ a ∈ xs := (quicksort_perm less xs).mem_iff

end HostScript
