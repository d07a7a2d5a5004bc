import HostScript.Check
import HostScript.Text.Lower

/-!
Names are alike whose letters come in the same order without regard to case. Edit distance ranks them.
-/

set_option autoImplicit false

namespace HostScript.Similar

def isWithin : (source target : List Char) → Bool
  | [], _ => true
  | _ :: _, [] => false
  | s :: source, t :: target => if s = t then isWithin source target else isWithin (s :: source) target

def isCandidate (source target : String) : Bool :=
  let source := lower source
  let target := lower target
  source.utf8ByteSize ≤ target.utf8ByteSize && isWithin source.toList target.toList

/-- One row of the edit distance table: `previous` is the row before, `left` the entry to the
left of the next one and `diagonal` the entry above that. -/
def editRow {α : Type} [DecidableEq α] (c : α) : List α → (previous : List Nat) → (diagonal left : Nat) → List Nat
  | t :: ts, above :: previous, diagonal, left =>
    let entry := min (min (above + 1) (left + 1)) (if t = c then diagonal else diagonal + 1)
    entry :: editRow c ts previous above entry
  | _, _, _, _ => []

def editRows {α : Type} [DecidableEq α] (target : List α) : List α → Nat → (row : List Nat) → List Nat
  | [], _, row => row
  | c :: source, n, row =>
    editRows target source (n + 1) ((n + 1) :: editRow c target row.tail (row.headD n) (n + 1))

def distance {α : Type} [DecidableEq α] (source target : List α) : Nat :=
  (editRows target source 0 (List.range (target.length + 1))).getLastD 0

def editDistance (source target : String) : Nat := distance source.toList target.toList

/-- The number of characters of `target` passed over to find those of `source` in order, and left
after them. -/
def skips? : (source target : List Char) → Option Nat
  | [], target => some target.length
  | _ :: _, [] => none
  | s :: source, t :: target =>
    if s = t then skips? source target else (skips? (s :: source) target).map (· + 1)

/-- How well a query matches a name without regard to case: the fewer characters beside it, the
better. -/
def lettersRank? (query name : String) : Option Nat :=
  if name.utf8ByteSize < query.utf8ByteSize then none
  else
    let q := lower query
    let n := lower name
    if name.utf8ByteSize = query.utf8ByteSize && q == n then some 0 else skips? q.toList n.toList

instance : Matcher where
  find typed names :=
    (names.filter (isCandidate typed)).map fun name => ⟨name, editDistance typed name⟩
  rank? := lettersRank?

end HostScript.Similar
