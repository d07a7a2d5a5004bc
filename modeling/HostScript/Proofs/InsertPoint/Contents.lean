import HostScript.Proofs.Block.Edits
import HostScript.Proofs.InsertPoint.Table

set_option autoImplicit false

namespace HostScript

open Document

namespace InsertPoint

variable {d : Document} {number : Int}

/-- Whether the search goes on behind a line: a number beyond the limit counts as not greater. -/
def Passes (d : Document) (number : Int) (n : Nat) : Prop :=
  ∀ v, IsEntry (d.line n) v → v ≤ Bytes.numberLimit → (v : Int) ≤ number

/-- What the search through some lines ends with: the first entry that is greater, else the line behind the
last entry, else where it began. -/
inductive Search (d : Document) (number : Int) (ns : List Nat) (after : Nat) : Nat → Prop where
  | greater (front : List Nat) {back : List Nat} {n v : Nat} : ns = front ++ n :: back →
      (∀ k ∈ front, Passes d number k) → IsEntry (d.line n) v → v ≤ Bytes.numberLimit → number < v →
      Search d number ns after n
  | behind (front : List Nat) {back : List Nat} {n v : Nat} : ns = front ++ n :: back →
      (∀ k ∈ ns, Passes d number k) → IsEntry (d.line n) v → (∀ k ∈ back, ∀ w, ¬ IsEntry (d.line k) w) →
      Search d number ns after (n + 1)
  | nothing : (∀ k ∈ ns, ∀ w, ¬ IsEntry (d.line k) w) → Search d number ns after after

theorem Search.cons {ns : List Nat} {n after next m : Nat} (h : Search d number ns next m)
    (hpass : Passes d number n)
    (hnext : next = after ∧ (∀ v, ¬ IsEntry (d.line n) v) ∨ next = n + 1 ∧ ∃ v, IsEntry (d.line n) v) :
    Search d number (n :: ns) after m := by
  cases h with
  | @greater front back k v hsplit hfront hentry hlimit hgreater =>
    have hall : ∀ i ∈ n :: front, Passes d number i := List.forall_mem_cons.mpr ⟨hpass, hfront⟩
    exact .greater (n :: front) (by rw [hsplit, List.cons_append]) hall hentry hlimit hgreater
  | @behind front back k v hsplit hall hentry hback =>
    have hall' : ∀ i ∈ n :: ns, Passes d number i := List.forall_mem_cons.mpr ⟨hpass, hall⟩
    exact .behind (n :: front) (by rw [hsplit, List.cons_append]) hall' hentry hback
  | nothing hnone =>
    -- Without an entry behind it the line itself decides where the search ends.
    rcases hnext with ⟨rfl, hn⟩ | ⟨rfl, v, hv⟩
    · exact .nothing (List.forall_mem_cons.mpr ⟨hn, hnone⟩)
    · refine .behind [] rfl (List.forall_mem_cons.mpr ⟨hpass, fun k hk w hw => ?_⟩) hv hnone
      exact absurd hw (hnone k hk w)

theorem search_contentsLine (d : Document) (number : Int) (ns : List Nat) (after : Nat) :
    Search d number ns after (contentsLine d number ns after) := by
  induction ns generalizing after with
  | nil => exact .nothing (by simp)
  | cons n ns ih =>
    rw [contentsLine]
    split
    · rename_i hnone
      have hno (v : Nat) : ¬ IsEntry (d.line n) v := by simp [isEntry_iff, hnone]
      exact (ih after).cons (fun v hv => absurd hv (hno v)) (.inl ⟨rfl, hno⟩)
    · rename_i digits hdigits
      obtain ⟨margin, tabs, name, hparts, hline⟩ := exists_parts hdigits
      have hentry : IsEntry (d.line n) digits.digitsValue := ⟨margin, digits, tabs, name, hparts, hline, rfl⟩
      have hnumber : digits.number?
          = if digits.digitsValue ≤ Bytes.numberLimit then some digits.digitsValue else none := by
        simp [Bytes.number?, hparts.digits]
      have hpassed (hpass : digits.digitsValue ≤ Bytes.numberLimit → (digits.digitsValue : Int) ≤ number) :
          Search d number (n :: ns) after (contentsLine d number ns (n + 1)) :=
        (ih (n + 1)).cons (fun v hv hle => hentry.unique hv ▸ hpass (hentry.unique hv ▸ hle))
          (.inr ⟨rfl, _, hentry⟩)
      rw [hnumber]
      by_cases hlimit : digits.digitsValue ≤ Bytes.numberLimit
      · rw [if_pos hlimit]
        by_cases hgreater : number < digits.digitsValue
        · simp only [if_pos hgreater]
          exact .greater [] rfl (by simp) hentry hlimit hgreater
        · simp only [if_neg hgreater]
          exact hpassed fun _ => Int.not_lt.mp hgreater
      · rw [if_neg hlimit]
        exact hpassed fun hle => absurd hle hlimit

/-- The search goes through the lines before the first header. -/
theorem contentsPosition_eq (d : Document) (number : Int) : contentsPosition d (Block.scan d) number
    = ⟨contentsLine d number (List.range (d.headerLines.head?.getD d.lineCount)) 0, 0⟩ := by
  have hf := Block.scan_beginsAt d
  unfold contentsPosition
  generalize Block.scan d = blocks at hf ⊢
  generalize d.headerLines = lines at hf ⊢
  cases hf with
  | nil => rfl
  | cons hb _ =>
    simp only [List.head?_cons, Option.getD_some, hb.liesAt.start_eq, d.lineAt_lineStart hb.isHeader.lt_lineCount]

theorem lt_limit_iff (d : Document) (n : Nat) : n < d.headerLines.head?.getD d.lineCount ↔
    n < d.lineCount ∧ ∀ k ≤ n, ¬ d.IsHeader k := by
  rw [headerLines, List.head?_filter]
  cases h : (List.range d.lineCount).find? fun n => decide (d.IsHeader n) with
  | none =>
    simp only [List.find?_eq_none, List.mem_range, decide_eq_true_eq] at h
    rw [Option.getD_none]
    exact ⟨fun hn => ⟨hn, fun k hk => h k (by omega)⟩, And.left⟩
  | some m =>
    simp only [List.find?_range_eq_some, List.mem_range, decide_eq_true_eq, Bool.not_eq_true',
      decide_eq_false_iff_not] at h
    obtain ⟨hheader, hlt, hbefore⟩ := h
    rw [Option.getD_some]
    refine ⟨fun hn => ⟨by omega, fun k hk => hbefore k (by omega)⟩, fun hn => ?_⟩
    exact Nat.lt_of_not_le fun hle => hn.2 m hle hheader

/-- The line that the entry belongs on: that of the first entry with a greater number that can be read, else
the one behind the last entry, else the first line. -/
inductive IsContentsLine (d : Document) (number : Int) : Nat → Prop where
  | greater {n v : Nat} : d.HasEntry n v → v ≤ Bytes.numberLimit → number < v →
      (∀ k < n, Passes d number k) → IsContentsLine d number n
  | behind {n v : Nat} : d.HasEntry n v → (∀ k w, d.HasEntry k w → k ≤ n ∧ Passes d number k) →
      IsContentsLine d number (n + 1)
  | nothing : (∀ k w, ¬ d.HasEntry k w) → IsContentsLine d number 0

theorem exists_isContentsLine (d : Document) (number : Int) :
    ∃ m : Nat, contentsPosition d (Block.scan d) number = ⟨m, 0⟩ ∧ IsContentsLine d number m := by
  refine ⟨_, contentsPosition_eq d number, ?_⟩
  have hmem (n : Nat) : n ∈ List.range (d.headerLines.head?.getD d.lineCount) ↔
      n < d.lineCount ∧ ∀ k ≤ n, ¬ d.IsHeader k := by rw [List.mem_range, lt_limit_iff]
  have hentry {n v : Nat} (h : d.HasEntry n v) : n ∈ List.range (d.headerLines.head?.getD d.lineCount) :=
    (hmem n).mpr ⟨h.lt_lineCount, h.before⟩
  have hascending := List.pairwise_lt_range (n := d.headerLines.head?.getD d.lineCount)
  have hsearch := search_contentsLine d number (List.range (d.headerLines.head?.getD d.lineCount)) 0
  generalize List.range (d.headerLines.head?.getD d.lineCount) = ns at *
  generalize contentsLine d number ns 0 = m at hsearch ⊢
  cases hsearch with
  | @greater front back _ v hsplit hfront hn hlimit hgreater =>
    obtain ⟨hlt, hbefore⟩ := (hmem m).mp (by simp [hsplit])
    refine .greater ⟨hbefore, hn⟩ hlimit hgreater fun k hk => hfront k ?_
    -- A line above stands before the first header too, so the search has come past it.
    have hk' : k ∈ ns := (hmem k).mpr ⟨by omega, fun j hj => hbefore j (by omega)⟩
    rw [hsplit, List.pairwise_append, List.pairwise_cons] at hascending
    rw [hsplit, List.mem_append, List.mem_cons] at hk'
    rcases hk' with hk' | rfl | hk'
    · exact hk'
    · exact absurd hk (Nat.lt_irrefl k)
    · exact absurd (hascending.2.1.1 k hk') (Nat.lt_asymm hk)
  | @behind front back n v hsplit hall hn hback =>
    refine .behind ⟨((hmem n).mp (by simp [hsplit])).2, hn⟩ fun k w h => ⟨?_, hall k (hentry h)⟩
    have hk := hentry h
    rw [hsplit, List.pairwise_append] at hascending
    rw [hsplit, List.mem_append, List.mem_cons] at hk
    rcases hk with hk | rfl | hk
    · exact Nat.le_of_lt (hascending.2.2 k hk n List.mem_cons_self)
    · exact Nat.le_refl k
    · exact absurd h.entry (hback k hk w)
  | nothing hnone => exact .nothing fun k w h => hnone k (hentry h) w h.entry

/-- If the table has a greater number, it has one that can be read. -/
def GreaterCanBeRead (d : Document) (number : Int) : Prop :=
  (∃ n v, d.HasEntry n v ∧ number < v) → ∃ n v, d.HasEntry n v ∧ number < v ∧ v ≤ Bytes.numberLimit

/-- The table goes as far as the last line of the document, and no number that can be read is greater. -/
def EndsWithTable (d : Document) (number : Int) : Prop :=
  (∃ v, d.HasEntry d.lastLine v) ∧ ∀ n v, d.HasEntry n v → v ≤ Bytes.numberLimit → (v : Int) ≤ number

namespace IsContentsLine

variable {m : Nat}

theorem not_isHeader (h : IsContentsLine d number m) : ∀ k < m, ¬ d.IsHeader k := by
  cases h with
  | greater hentry => exact fun k hk => hentry.before k (Nat.le_of_lt hk)
  | behind hentry => exact fun k hk => hentry.before k (Nat.le_of_lt_succ hk)
  | nothing => exact fun k hk => absurd hk (Nat.not_lt_zero k)

theorem lt_lineCount_iff (h : IsContentsLine d number m) : m < d.lineCount ↔ ¬ EndsWithTable d number := by
  have hlast := d.lastLine_succ
  cases h with
  | @greater _ v hentry hlimit hgreater =>
    refine ⟨fun _ hends => ?_, fun _ => hentry.lt_lineCount⟩
    exact absurd (hends.2 m v hentry hlimit) (Int.not_le.mpr hgreater)
  | @behind n v hentry hall =>
    constructor
    · rintro hlt ⟨⟨w, hw⟩, -⟩
      have hle := (hall _ w hw).1
      omega
    · intro hends
      have hlt := hentry.lt_lineCount
      refine Nat.lt_of_not_le fun hle => hends ⟨⟨v, ?_⟩, fun k w hk => (hall k w hk).2 w hk.entry⟩
      rwa [show d.lastLine = n by omega]
  | nothing hnone => exact ⟨fun _ hends => (hnone _ _ hends.1.choose_spec).elim, fun _ => by omega⟩

theorem below (h : IsContentsLine d number m) (hascending : d.EntriesAscending) {n w : Nat}
    (hw : d.HasEntry n w) (hle : m ≤ n) : number < w := by
  cases h with
  | @greater _ v hentry _ hgreater =>
    rcases Nat.lt_or_eq_of_le hle with hlt | rfl
    · have hvw := hascending m n v w hentry hw hlt
      omega
    · rwa [hw.entry.unique hentry.entry]
  | behind _ hall => exact absurd (hall n w hw).1 (by omega)
  | nothing hnone => exact absurd hw (hnone n w)

theorem above_iff (h : IsContentsLine d number m) (hascending : d.EntriesAscending) :
    (∀ n w, d.HasEntry n w → n < m → (w : Int) ≤ number) ↔ GreaterCanBeRead d number := by
  cases h with
  | @greater _ v hentry hlimit hgreater hpasses =>
    -- A number beyond the limit does not stand above one within it.
    refine ⟨fun _ _ => ⟨m, v, hentry, hgreater, hlimit⟩, fun _ n w hw hlt => hpasses n hlt w hw.entry ?_⟩
    exact Nat.le_trans (hascending n m w v hw hentry hlt) hlimit
  | @behind n v hentry hall =>
    constructor
    · rintro habove ⟨k, w, hw, hgreater⟩
      have hle := habove k w hw (Nat.lt_succ_of_le (hall k w hw).1)
      omega
    · intro hread k w hw _
      refine Int.not_lt.mp fun hgreater => ?_
      obtain ⟨l, x, hx, hgreater', hlimit⟩ := hread ⟨k, w, hw, hgreater⟩
      have hle := (hall l x hx).2 x hx.entry hlimit
      omega
  | nothing hnone =>
    exact ⟨fun _ ⟨k, w, hw, _⟩ => absurd hw (hnone k w), fun _ n w hw => absurd hw (hnone n w)⟩

end IsContentsLine

theorem offsetAt_behind (d : Document) {m : Nat} (h : d.lineCount ≤ m) : d.offsetAt ⟨m, 0⟩ = none := by
  have hout : (d.lineCount : Int) ≤ m := by omega
  simp [offsetAt, hout]

theorem find_contents {hook : Bytes} {others : List Document}
    (h : (find d number hook others).present = false) :
    (find d number hook others).contents = contentsPosition d (Block.scan d) number := by
  unfold find at h ⊢
  simp only at h ⊢
  split at h
  · cases h
  · rfl

/-- The document with a line put in at the place that is found in the table of contents. -/
def entryInserted (d : Document) (number : Int) (hook : Bytes) (others : List Document)
    (line : Bytes) : Document :=
  let p := (find d number hook others).contents
  TextEdit.apply ⟨⟨p, p⟩, line ++ [Bytes.newline]⟩ d

/-- Where the block that is asked for is not found, the line for its entry is one of the document unless the
table goes as far as the last line. If the table is in ascending order, all numbers from the line on are greater;
none above it is, and an entry that is put there keeps the order, unless the greater numbers are all beyond the
limit. -/
theorem find_contents_iff {hook : Bytes} {others : List Document}
    (hp : (find d number hook others).present = false) :
    ∃ m : Nat, (find d number hook others).contents = ⟨m, 0⟩ ∧
      (¬ EndsWithTable d number → d.offsetAt ⟨m, 0⟩ = some (d.lineStart m)) ∧
      (EndsWithTable d number → d.offsetAt ⟨m, 0⟩ = none) ∧
      (d.EntriesAscending →
        (∀ n w, d.HasEntry n w → m ≤ n → number < w) ∧
        ((∀ n w, d.HasEntry n w → n < m → (w : Int) ≤ number) ↔ GreaterCanBeRead d number) ∧
        (¬ EndsWithTable d number → ∀ v line, number = (v : Nat) → IsEntry line v → Bytes.newline ∉ line →
          ((entryInserted d number hook others line).EntriesAscending ↔ GreaterCanBeRead d number))) := by
  obtain ⟨m, hm, hline⟩ := exists_isContentsLine d number
  rw [← find_contents hp] at hm
  have hoffset (hends : ¬ EndsWithTable d number) : d.offsetAt ⟨m, 0⟩ = some (d.lineStart m) :=
    d.offsetAt_lineStart (hline.lt_lineCount_iff.mpr hends)
  refine ⟨m, hm, hoffset, fun hends => ?_, fun hascending =>
    ⟨fun n w => hline.below hascending, hline.above_iff hascending, ?_⟩⟩
  · exact offsetAt_behind d (Nat.le_of_not_lt fun hlt => hline.lt_lineCount_iff.mp hlt hends)
  · rintro hends v line rfl hentry hnewline
    have htext : (entryInserted d v hook others line).text
        = d.text.take (d.lineStart m) ++ (line ++ Bytes.newline :: d.text.drop (d.lineStart m)) := by
      simp only [entryInserted, hm, TextEdit.apply, ofText, offsetNear, hoffset hends, Option.getD_some]
      simp
    rw [entriesAscending_insert_iff (hline.lt_lineCount_iff.mpr hends) hnewline htext hline.not_isHeader hentry,
      ← hline.above_iff hascending]
    constructor
    · exact fun h n w hw hlt => Int.ofNat_le.mpr (h.2.1 n w hw hlt)
    · refine fun h => ⟨hascending, fun n w hw hlt => Int.ofNat_le.mp (h n w hw hlt), fun n w hw hle => ?_⟩
      exact Nat.le_of_lt (Int.ofNat_lt.mp (hline.below hascending hw hle))

def roomyTable : Document := .ofText "a" (utf8 "1\tA\n7\tB\nSCRIPT:1,A\nENDSCRIPT\n")

theorem find_contents_iff_roomyTable : (find roomyTable 5 [] []).present = false ∧
    (find roomyTable 5 [] []).contents = ⟨1, 0⟩ ∧ roomyTable.offsetAt ⟨1, 0⟩ = some 4 ∧
    (entryInserted roomyTable 5 [] [] (utf8 "5\tC")).EntriesAscending := by
  have hp : (find roomyTable 5 [] []).present = false := by decide +kernel
  have hc : (find roomyTable 5 [] []).contents = ⟨1, 0⟩ := by decide +kernel
  have hheader : roomyTable.IsHeader 2 := by decide +kernel
  have hends : ¬ EndsWithTable roomyTable 5 := fun h => h.1.choose_spec.before 2 (by decide +kernel) hheader
  have hascending : roomyTable.EntriesAscending := entriesAscending_of_lines (by decide +kernel)
  have hread : GreaterCanBeRead roomyTable 5 := fun _ => ⟨1, 7, by decide +kernel, by decide, by decide⟩
  obtain ⟨m, hm, hoffset, -, hkeeps⟩ := find_contents_iff hp
  obtain rfl : m = 1 := by
    have hline := congrArg Position.line (hc.symm.trans hm)
    simp only at hline
    omega
  refine ⟨hp, hc, hoffset hends, ?_⟩
  exact ((hkeeps hascending).2.2 hends 5 (utf8 "5\tC") rfl (by decide +kernel) (by decide +kernel)).mpr hread

def longNumber : Document := .ofText "a" (utf8 "1\tA\n99999999999999999999\tB\n")

def onlyEntry : Document := .ofText "a" (utf8 "1\tA")

/-- The long number stays above the smaller one that is put in, and behind an entry that is the whole document
there is no line. -/
theorem longNumber_above :
    (find longNumber 5 [] []).present = false ∧ longNumber.EntriesAscending ∧
    longNumber.HasEntry 1 99999999999999999999 ∧ (find longNumber 5 [] []).contents = ⟨2, 0⟩ ∧
    ¬ (entryInserted longNumber 5 [] [] (utf8 "5\tC")).EntriesAscending ∧
    (find onlyEntry 2 [] []).present = false ∧ (find onlyEntry 2 [] []).contents = ⟨1, 0⟩ ∧
    onlyEntry.offsetAt ⟨1, 0⟩ = none := by
  refine ⟨by decide +kernel, entriesAscending_of_lines (by decide +kernel), by decide +kernel, by decide +kernel,
    fun hascending => ?_, by decide +kernel, by decide +kernel, by decide +kernel⟩
  have hle := hascending 1 2 99999999999999999999 5 (by decide +kernel) (by decide +kernel) (by decide)
  exact absurd hle (by decide)

end InsertPoint

end HostScript
