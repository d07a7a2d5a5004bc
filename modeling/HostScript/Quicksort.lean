/-!
A quicksort that looks for patterns in what it sorts. Up to twelve items keep the order of equal ones;
of more, equal items end in the order that its exchanges leave them in.
-/

set_option autoImplicit false

namespace HostScript.Quicksort

section

variable {α : Type} (less : α → α → Bool)

def precedes (xs : Array α) (i j : Nat) : Bool :=
  match xs[i]?, xs[j]? with
  | some a, some b => less a b
  | _, _ => false

def sink (low : Nat) : (place : Nat) → Array α → Array α
  | 0, xs => xs
  | i + 1, xs =>
    if low ≤ i && precedes less xs (i + 1) i then sink low i (xs.swapIfInBounds (i + 1) i) else xs

def rise : (count place : Nat) → Array α → Array α
  | 0, _, xs => xs
  | count + 1, i, xs =>
    if precedes less xs i (i - 1) then rise count (i + 1) (xs.swapIfInBounds i (i - 1)) else xs

def insertionSort (low high : Nat) (xs : Array α) : Array α :=
  (List.range' (low + 1) (high - (low + 1))).foldl (fun xs i => sink less low i xs) xs

def greaterChild (first size root : Nat) (xs : Array α) : Nat :=
  let left := 2 * root + 1
  if left + 1 < size && precedes less xs (first + left) (first + left + 1) then left + 1 else left

def siftDown (first size : Nat) : Nat → (root : Nat) → Array α → Array α
  | 0, _, xs => xs
  | moves + 1, root, xs =>
    let child := greaterChild less first size root xs
    if 2 * root + 1 < size && precedes less xs (first + root) (first + child) then
      siftDown first size moves child (xs.swapIfInBounds (first + root) (first + child))
    else xs

def heapSort (low high : Nat) (xs : Array α) : Array α :=
  let size := high - low
  let heap := (List.range ((size - 1) / 2 + 1)).reverse.foldl (fun xs i => siftDown less low size size i xs) xs
  (List.range size).reverse.foldl
    (fun xs i => siftDown less low i i 0 (xs.swapIfInBounds low (low + i))) heap

/-- Two places, that of the lesser item first, and one more exchange if they were not. -/
def ordered (xs : Array α) (i j exchanges : Nat) : Nat × Nat × Nat :=
  if precedes less xs j i then (j, i, exchanges + 1) else (i, j, exchanges)

def median (xs : Array α) (i j k exchanges : Nat) : Nat × Nat :=
  let (i, j, exchanges) := ordered less xs i j exchanges
  let (j, _, exchanges) := ordered less xs j k exchanges
  let (_, j, exchanges) := ordered less xs i j exchanges
  (j, exchanges)

def mostExchanges : Nat := 12

/-- The place of an item that is likely to be near the middle of a span. No exchange says that the span
looks sorted, and the most exchanges that it looks sorted the other way round. -/
def choosePivot (low high : Nat) (xs : Array α) : Nat × Nat :=
  let quarter := (high - low) / 4
  let near (i exchanges : Nat) : Nat × Nat :=
    if high - low < 50 then (i, exchanges) else median less xs (i - 1) i (i + 1) exchanges
  let (i, exchanges) := near (low + quarter) 0
  let (j, exchanges) := near (low + quarter * 2) exchanges
  let (k, exchanges) := near (low + quarter * 3) exchanges
  median less xs i j k exchanges

def reverse (low high : Nat) (xs : Array α) : Array α :=
  (List.range ((high - low) / 2)).foldl (fun xs i => xs.swapIfInBounds (low + i) (high - 1 - i)) xs

def upTo (p : Nat → Bool) : (count place : Nat) → Nat
  | 0, i => i
  | count + 1, i => if p i then upTo p count (i + 1) else i

def downTo (p : Nat → Bool) : (count place : Nat) → Nat
  | 0, i => i
  | count + 1, i => if p i then downTo p count (i - 1) else i

def settle (low high i : Nat) (xs : Array α) : Array α :=
  let xs := xs.swapIfInBounds i (i - 1)
  let xs := if 2 ≤ i - low then sink less 0 (i - 1) xs else xs
  if 2 ≤ high - i then rise less (high - (i + 1)) (i + 1) xs else xs

/-- Sorts a span that lacks little to be sorted, and says whether it is sorted then. -/
def mend (low high : Nat) : (tries place : Nat) → Array α → Array α × Bool
  | 0, _, xs => (xs, false)
  | tries + 1, place, xs =>
    let i := upTo (fun i => !precedes less xs i (i - 1)) (high - place) place
    if i = high then (xs, true)
    else if high - low < 50 then (xs, false)
    else mend low high tries i (settle less low high i xs)

/-- Exchanges items from both ends of a span until those that may stay in front stand in front. The
results are where the ends have come to, and whether no item was exchanged. -/
def exchange (inFront inBack : Array α → Nat → Bool) :
    (rounds i j : Nat) → (untouched : Bool) → Array α → Array α × Nat × Nat × Bool
  | 0, i, j, untouched, xs => (xs, i, j, untouched)
  | rounds + 1, i, j, untouched, xs =>
    let i := upTo (inFront xs) (j + 1 - i) i
    let j := downTo (inBack xs) (j + 1 - i) j
    if j < i then (xs, i, j, untouched)
    else exchange inFront inBack rounds (i + 1) (j - 1) false (xs.swapIfInBounds i j)

def partition (low high pivot : Nat) (xs : Array α) : Array α × Nat × Bool :=
  let (xs, _, j, untouched) :=
    exchange (fun xs i => precedes less xs i low) (fun xs j => !precedes less xs j low)
      (high - low) (low + 1) (high - 1) true (xs.swapIfInBounds low pivot)
  (xs.swapIfInBounds j low, j, untouched)

def partitionEqual (low high pivot : Nat) (xs : Array α) : Array α × Nat :=
  let (xs, i, _, _) :=
    exchange (fun xs i => !precedes less xs low i) (fun xs j => precedes less xs low j)
      (high - low) (low + 1) (high - 1) true (xs.swapIfInBounds low pivot)
  (xs, i)

end

def nextRandom (r : UInt64) : UInt64 :=
  let r := r ^^^ (r <<< 13)
  let r := r ^^^ (r >>> 17)
  r ^^^ (r <<< 5)

def bitLength (n : Nat) : Nat := if n = 0 then 0 else n.log2 + 1

def scatter {α : Type} (low high : Nat) (xs : Array α) : Array α :=
  let size := high - low
  let place (random : UInt64) : Nat :=
    let other := random.toNat % Nat.pow 2 (bitLength size)
    low + if size ≤ other then other - size else other
  let first := nextRandom size.toUInt64
  let second := nextRandom first
  let middle := low + size / 4 * 2 - 1
  ((xs.swapIfInBounds (middle - 1) (place first)).swapIfInBounds middle (place second)).swapIfInBounds
    (middle + 1) (place (nextRandom second))

def prepare {α : Type} (less : α → α → Bool) (low high : Nat) (balanced untouched : Bool) (xs : Array α) :
    Array α × Nat × Bool :=
  let xs := if balanced then xs else scatter low high xs
  let (pivot, exchanges) := choosePivot less low high xs
  let descends := exchanges == mostExchanges
  let pivot := if descends then high - 1 - (pivot - low) else pivot
  let xs := if descends then reverse low high xs else xs
  if balanced && untouched && (exchanges == 0 || descends) then
    let (xs, isSorted) := mend less low high 5 (low + 1) xs
    (xs, pivot, isSorted)
  else (xs, pivot, false)

/-- Sorts a span. The first argument bounds the depth, and `limit` the number of unequal parts; the last
two before the items tell whether the parts before were equal enough, and whether they were found in
order. -/
def sortSpan {α : Type} (less : α → α → Bool) :
    (depth low high limit : Nat) → (balanced untouched : Bool) → Array α → Array α
  | 0, _, _, _, _, _, xs => xs
  | depth + 1, low, high, limit, balanced, untouched, xs =>
    let size := high - low
    if size ≤ 12 then insertionSort less low high xs
    else if limit = 0 then heapSort less low high xs
    else
      let limit := if balanced then limit else limit - 1
      let (xs, pivot, isSorted) := prepare less low high balanced untouched xs
      if isSorted then xs
      else if 0 < low && !precedes less xs (low - 1) pivot then
        let (xs, middle) := partitionEqual less low high pivot xs
        sortSpan less depth middle high limit balanced untouched xs
      else
        let (xs, middle, untouched) := partition less low high pivot xs
        if middle - low < high - middle then
          sortSpan less depth (middle + 1) high limit (size / 8 ≤ middle - low) untouched
            (sortSpan less depth low middle limit true true xs)
        else
          sortSpan less depth low middle limit (size / 8 ≤ high - middle) untouched
            (sortSpan less depth (middle + 1) high limit true true xs)

end Quicksort

def quicksort {α : Type} (less : α → α → Bool) (xs : List α) : List α :=
  (Quicksort.sortSpan less xs.length 0 xs.length (Quicksort.bitLength xs.length) true true xs.toArray).toList

end HostScript
