import HostScript.Proofs.Block.Role
import HostScript.Proofs.Document.RawLines

/-!
What the blocks of a document say, read off its lines one after another. A line completes the block
that has begun, begins one, or belongs to it, so the blocks of joined lines are found by going through
the first ones and then, with the block that has begun there, through the others.
-/

set_option autoImplicit false

namespace HostScript

theorem Bytes.splitOn_of_notMem {sep : UInt8} {bs : Bytes} (h : sep ∉ bs) : splitOn sep bs = [bs] := by
  induction bs with
  | nil => rfl
  | cons b bs ih =>
    simp only [List.mem_cons, not_or] at h
    simp [splitOn, ih h.2, Ne.symm h.1]

theorem Bytes.splitOn_append {sep : UInt8} {as : Bytes} (h : sep ∉ as) (bs : Bytes) :
    splitOn sep (as ++ sep :: bs) = as :: splitOn sep bs := by
  induction as with
  | nil => simp [splitOn]
  | cons a as ih =>
    simp only [List.mem_cons, not_or] at h
    simp [splitOn, ih h.2, Ne.symm h.1]

theorem Bytes.splitOn_append_return {sep : UInt8} (hs : sep ≠ carriageReturn) (bs : Bytes) :
    ∃ (parts : List Bytes) (last : Bytes), splitOn sep bs = parts ++ [last] ∧
      splitOn sep (bs ++ [carriageReturn]) = parts ++ [last ++ [carriageReturn]] := by
  induction bs with
  | nil => exact ⟨[], [], rfl, by simp [splitOn, Ne.symm hs]⟩
  | cons b bs ih =>
    obtain ⟨parts, last, hb, hr⟩ := ih
    by_cases he : b = sep
    · exact ⟨[] :: parts, last, by simp [splitOn, he, hb], by simp [splitOn, he, hr]⟩
    · cases parts with
      | nil => exact ⟨[], b :: last, by simp [splitOn, he, hb], by simp [splitOn, he, hr]⟩
      | cons part parts =>
        exact ⟨(b :: part) :: parts, last, by simp [splitOn, he, hb], by simp [splitOn, he, hr]⟩

namespace Block

/-- What the header of a block says. -/
structure Header where
  kind : BlockKind
  number : Option Nat
  numberText : Bytes
  name : Bytes
  fields : List Bytes
  deriving DecidableEq

def Header.ofFields (kind : BlockKind) (fields : Bytes) : Header :=
  let fields := (fields.splitOn 44).map Bytes.trim
  { kind
    number := (fields.headD []).number?
    numberText := fields.headD []
    name := fields.getD 1 []
    fields := fields.drop 2 }

theorem Header.ofFields_append_return (kind : BlockKind) (fields : Bytes) :
    ofFields kind (fields ++ [Bytes.carriageReturn]) = ofFields kind fields := by
  obtain ⟨parts, last, hb, hr⟩ := Bytes.splitOn_append_return
    (show (44 : UInt8) ≠ Bytes.carriageReturn by decide) fields
  have hm : (Bytes.splitOn 44 (fields ++ [Bytes.carriageReturn])).map Bytes.trim
      = (fields.splitOn 44).map Bytes.trim := by
    simp [hb, hr, Bytes.trim_append_return]
  simp only [ofFields, hm]

/-- What a line means for the blocks. -/
inductive Sense where
  | header (header : Header)
  | terminator
  | other
  deriving DecidableEq

def Sense.ofRole : LineRole → Sense
  | .header kind fields => .header (.ofFields kind fields)
  | .terminator => .terminator
  | .other => .other

def senseOf (line : Bytes) : Sense := .ofRole (lineRole line)

theorem senseOf_append_return (line : Bytes) :
    senseOf (line ++ [Bytes.carriageReturn]) = senseOf line := by
  rw [senseOf, senseOf, lineRole_append_return]
  cases lineRole line with
  | header kind fields => simp [LineRole.append, Sense.ofRole, Header.ofFields_append_return]
  | terminator => rfl
  | other => rfl

theorem senseOf_lineText (raw : Bytes) :
    senseOf raw.lineText = senseOf (raw.dropEnd Bytes.newline) := by
  rw [Bytes.lineText]
  generalize raw.dropEnd Bytes.newline = line
  unfold Bytes.dropEnd
  split
  · rename_i h
    obtain ⟨front, rfl⟩ := List.getLast?_eq_some_iff.mp h
    rw [List.dropLast_concat, senseOf_append_return]
  · rfl

/-- What a block says, wherever it stands. -/
structure Content where
  header : Header
  body : Bytes
  terminated : Bool
  deriving DecidableEq

def header (b : Block) : Header := ⟨b.kind, b.number, b.numberText, b.name, b.fields⟩

def content (d : Document) (b : Block) : Content :=
  ⟨b.header, d.text.slice b.bodyStart b.bodyEnd, b.terminated⟩

def contents (d : Document) : List Content := (scan d).map (content d)

/-- What a block says, and where it begins. -/
structure Placed where
  start : Nat
  content : Content
  deriving DecidableEq

def placed (d : Document) (b : Block) : Placed := ⟨b.start, b.content d⟩

theorem map_content (d : Document) (bs : List Block) :
    bs.map (content d) = (bs.map (placed d)).map (·.content) := by
  rw [List.map_map]
  rfl

/-- A block that has begun. `ending` is what is left of the header line behind its text, and `lines`
are the lines that have followed. -/
structure Begun where
  start : Nat
  header : Header
  ending : Bytes
  lines : List Bytes

namespace Begun

def finish (b : Begun) (terminated : Bool) : Placed :=
  ⟨b.start, ⟨b.header, b.lines.flatten, terminated⟩⟩

def atEnd (b : Begun) : Placed :=
  ⟨b.start, ⟨b.header, if b.lines = [] then b.ending else b.lines.flatten, false⟩⟩

end Begun

/-- What a line does: the block that it completes, and the block that has begun after it. -/
def passLine (offset : Nat) (raw : Bytes) (current : Option Begun) : List Placed × Option Begun :=
  match senseOf raw.lineText with
  | .header header =>
    ((current.map (·.finish false)).toList,
      some ⟨offset, header, raw.drop raw.lineText.length, []⟩)
  | .terminator => ((current.map (·.finish true)).toList, none)
  | .other => ([], current.map fun b => { b with lines := b.lines ++ [raw] })

/-- Goes through lines that begin at an offset. -/
def pass (offset : Nat) : List Bytes → Option Begun → List Placed × Option Begun
  | [], current => ([], current)
  | raw :: rest, current =>
    let (done, next) := passLine offset raw current
    let (later, last) := pass (offset + raw.length) rest next
    (done ++ later, last)

def passAll (offset : Nat) (lines : List Bytes) (current : Option Begun) : List Placed :=
  (pass offset lines current).1 ++ ((pass offset lines current).2.map Begun.atEnd).toList

section PassLine

variable {raw : Bytes} (offset : Nat) (current : Option Begun)

theorem passLine_header {header : Header} (h : senseOf raw.lineText = .header header) :
    passLine offset raw current = ((current.map (·.finish false)).toList,
      some ⟨offset, header, raw.drop raw.lineText.length, []⟩) := by
  simp only [passLine, h]

theorem passLine_terminator (h : senseOf raw.lineText = .terminator) :
    passLine offset raw current = ((current.map (·.finish true)).toList, none) := by
  simp only [passLine, h]

theorem passLine_other (h : senseOf raw.lineText = .other) : passLine offset raw current
    = ([], current.map fun b => { b with lines := b.lines ++ [raw] }) := by
  simp only [passLine, h]

end PassLine

theorem passAll_cons (offset : Nat) (raw : Bytes) (rest : List Bytes) (current : Option Begun) :
    passAll offset (raw :: rest) current = (passLine offset raw current).1
      ++ passAll (offset + raw.length) rest (passLine offset raw current).2 := by
  simp [passAll, pass]

theorem pass_append (offset : Nat) (as bs : List Bytes) (current : Option Begun) :
    pass offset (as ++ bs) current
      = ((pass offset as current).1 ++ (pass (offset + as.flatten.length) bs (pass offset as current).2).1,
        (pass (offset + as.flatten.length) bs (pass offset as current).2).2) := by
  induction as generalizing offset current with
  | nil => simp [pass]
  | cons raw as ih => simp [pass, ih, Nat.add_assoc]

theorem passAll_append (offset : Nat) (as bs : List Bytes) (current : Option Begun) :
    passAll offset (as ++ bs) current
      = (pass offset as current).1 ++ passAll (offset + as.flatten.length) bs (pass offset as current).2 := by
  simp [passAll, pass_append]

theorem pass_other {lines : List Bytes} (h : ∀ raw ∈ lines, senseOf raw.lineText = .other)
    (offset : Nat) (current : Option Begun) : pass offset lines current
      = ([], current.map fun b => { b with lines := b.lines ++ lines }) := by
  induction lines generalizing offset current with
  | nil => cases current <;> simp [pass]
  | cons raw lines ih =>
    have hrest := ih (fun r hr => h r (List.mem_cons_of_mem _ hr))
    rw [pass, passLine_other _ _ (h raw List.mem_cons_self)]
    simp only [hrest]
    cases current <;> simp

namespace Placed

def shift (by_ : Nat) (p : Placed) : Placed := { p with start := by_ + p.start }

end Placed

def Begun.shift (by_ : Nat) (b : Begun) : Begun := { b with start := by_ + b.start }

theorem passLine_shift (by_ offset : Nat) (raw : Bytes) (current : Option Begun) :
    passLine (by_ + offset) raw (current.map (·.shift by_))
      = ((passLine offset raw current).1.map (·.shift by_),
        (passLine offset raw current).2.map (·.shift by_)) := by
  unfold passLine
  cases senseOf raw.lineText <;> cases current <;> rfl

theorem pass_shift (by_ offset : Nat) (lines : List Bytes) (current : Option Begun) :
    pass (by_ + offset) lines (current.map (·.shift by_))
      = ((pass offset lines current).1.map (·.shift by_),
        (pass offset lines current).2.map (·.shift by_)) := by
  induction lines generalizing offset current with
  | nil => rfl
  | cons raw lines ih =>
    have hrest := ih (offset + raw.length) (passLine offset raw current).2
    simp only [pass, passLine_shift, Nat.add_assoc, hrest, List.map_append]

/-- Lines that begin with nothing open hold the same blocks wherever they stand. -/
theorem passAll_shift (offset : Nat) (lines : List Bytes) :
    passAll offset lines none = (passAll 0 lines none).map (·.shift offset) := by
  have h := pass_shift offset 0 lines none
  simp only [Nat.add_zero, Option.map_none] at h
  simp only [passAll, h, List.map_append]
  cases (pass 0 lines none).2 <;> rfl

theorem passAll_content (offset : Nat) (lines : List Bytes) :
    (passAll offset lines none).map (·.content) = (passAll 0 lines none).map (·.content) := by
  rw [passAll_shift, List.map_map]
  rfl

theorem le_start_of_mem_passAll {offset : Nat} {lines : List Bytes} {p : Placed}
    (h : p ∈ passAll offset lines none) : offset ≤ p.start := by
  rw [passAll_shift] at h
  obtain ⟨q, _, rfl⟩ := List.mem_map.mp h
  exact Nat.le_add_right _ _

section Scan

variable (d : Document)

def begunBefore (n : Nat) (h : OpenBlock) : Begun :=
  ⟨d.lineStart h.line, .ofFields h.kind h.fields, d.text.slice (d.lineEnd h.line) (d.lineStart (h.line + 1 : Nat)),
    (List.range' (h.line + 1) (n - (h.line + 1))).map d.rawLine⟩

theorem close_placed {h : OpenBlock} {n : Nat} (hlt : h.line < n) (hn : n < d.lineCount) (stop : Nat)
    (terminated : Bool) : (close d h (d.lineStart n) stop terminated).placed d
      = (begunBefore d n h).finish terminated := by
  have hnext : h.line + 1 < d.lineCount := by omega
  have hlines := d.flatten_rawLines (n - (h.line + 1)) (h.line + 1)
  rw [show h.line + 1 + (n - (h.line + 1)) = n by omega] at hlines
  simp only [placed, content, header, close, Begun.finish, begunBefore, hnext, if_true, hlines]
  rfl

theorem cut_placed {h : OpenBlock} (hlt : h.line < d.lineCount) :
    (cut d h d.length).placed d = (begunBefore d d.lineCount h).atEnd := by
  have hend := d.lineStart_of_ge (Nat.le_refl d.lineCount)
  have hlines := d.flatten_rawLines (d.lineCount - (h.line + 1)) (h.line + 1)
  rw [show h.line + 1 + (d.lineCount - (h.line + 1)) = d.lineCount by omega, hend] at hlines
  have hnil : (begunBefore d d.lineCount h).lines = [] ↔ ¬ h.line + 1 < d.lineCount := by
    simp only [begunBefore, List.map_eq_nil_iff, List.range'_eq_nil_iff]
    omega
  by_cases hnext : h.line + 1 < d.lineCount
  · have hne : ¬ (begunBefore d d.lineCount h).lines = [] := by simp [hnil, hnext]
    rw [Begun.atEnd, if_neg hne]
    simp only [placed, content, header, cut, close, begunBefore, hnext, if_true, hlines]
    rfl
  · have he : d.lineStart (h.line + 1 : Nat) = d.length := d.lineStart_of_ge (by omega)
    rw [Begun.atEnd, if_pos (hnil.mpr hnext)]
    simp only [placed, content, header, cut, close, begunBefore, hnext, if_false, he]
    rfl

theorem begunBefore_succ {h : OpenBlock} {n : Nat} (hlt : h.line < n) :
    begunBefore d (n + 1) h = { begunBefore d n h with lines := (begunBefore d n h).lines ++ [d.rawLine n] } := by
  have hl : n + 1 - (h.line + 1) = n - (h.line + 1) + 1 := by omega
  have hn : h.line + 1 + (n - (h.line + 1)) = n := by omega
  simp [begunBefore, hl, List.range'_concat, hn]

theorem begunBefore_header (n : Nat) (kind : BlockKind) (fields : Bytes) (hn : n < d.lineCount) :
    begunBefore d (n + 1) ⟨n, kind, fields⟩
      = ⟨d.lineStart n, .ofFields kind fields, (d.rawLine n).drop (d.rawLine n).lineText.length, []⟩ := by
  simp [begunBefore, d.drop_lineText hn]

theorem senseOf_rawLine {d : Document} {n : Nat} (hn : n < d.lineCount) {role : LineRole}
    (hr : lineRole (d.line n) = role) : senseOf (d.rawLine n).lineText = .ofRole role := by
  rw [senseOf, d.lineText_rawLine hn, hr]

/-- The scan of lines agrees with going through their texts. -/
theorem scanLines_placed (count first : Nat) (current : Option OpenBlock)
    (hc : first + count = d.lineCount) (hb : ∀ h, current = some h → h.line < first) :
    (scanLines d (List.range' first count) current).map (placed d)
      = passAll (d.lineStart first) ((List.range' first count).map d.rawLine)
        (current.map (begunBefore d first)) := by
  induction count generalizing first current with
  | zero =>
    obtain rfl : first = d.lineCount := hc
    cases current with
    | none => simp [scanLines, passAll, pass]
    | some h => simp [scanLines, passAll, pass, cut_placed d (hb h rfl)]
  | succ count ih =>
    have hn : first < d.lineCount := by omega
    have hoffset : d.lineStart first + (d.rawLine first).length = d.lineStart (first + 1 : Nat) := by
      have hle := d.lineStart_mono (show first ≤ first + 1 by omega)
      rw [Document.rawLine, Bytes.length_slice _ _ (d.lineStart_le_length (first + 1))]
      omega
    have hsense := senseOf_rawLine hn (rfl : lineRole (d.line first) = _)
    rw [List.range'_succ, List.map_cons, passAll_cons, hoffset]
    cases hr : lineRole (d.line first) with
    | header kind fields =>
      rw [hr] at hsense
      have hnext := ih (first + 1) (some ⟨first, kind, fields⟩) (by omega) (by simp)
      rw [Option.map_some, begunBefore_header d first kind fields hn] at hnext
      rw [passLine_header _ _ hsense, ← hnext]
      cases current with
      | none => simp [scanLines, hr]
      | some h => simp [scanLines, hr, cut, close_placed d (hb h rfl) hn]
    | terminator =>
      rw [hr] at hsense
      have hnext := ih (first + 1) none (by omega) (by simp)
      rw [Option.map_none] at hnext
      rw [passLine_terminator _ _ hsense, ← hnext]
      cases current with
      | none => simp [scanLines, hr]
      | some h => simp [scanLines, hr, close_placed d (hb h rfl) hn]
    | other =>
      rw [hr] at hsense
      have hnext := ih (first + 1) current (by omega) (fun h he => Nat.lt_succ_of_lt (hb h he))
      rw [passLine_other _ _ hsense]
      cases current with
      | none => simpa [scanLines, hr] using hnext
      | some h =>
        rw [Option.map_some, begunBefore_succ d (hb h rfl)] at hnext
        simpa [scanLines, hr] using hnext

theorem scan_placed : (scan d).map (placed d) = passAll 0 d.text.rawLines none := by
  have h := scanLines_placed d d.lineCount 0 none (by omega) (by simp)
  rw [← d.rawLines_text] at h
  rw [scan, List.range_eq_range', h]
  rfl

theorem scan_placed_take {d e : Document} {n : Nat} (hn : n < d.lineCount) {rest : Bytes}
    (he : e.text = d.text.take (d.lineStart n) ++ rest) :
    (scan e).map (placed e) = (pass 0 (d.linesBefore n) none).1
      ++ passAll (d.lineStart n) rest.rawLines (pass 0 (d.linesBefore n) none).2 := by
  rw [scan_placed, he, d.rawLines_take_append hn, passAll_append, d.length_linesBefore, Nat.zero_add]

/-- The blocks of a document are those of the lines before line `n`, and those of the lines after it
with the block that is open there. -/
theorem scan_placed_split {n : Nat} (hn : n < d.lineCount) :
    (scan d).map (placed d) = (pass 0 (d.linesBefore n) none).1
      ++ passAll (d.lineStart n) (Bytes.rawLines (d.text.drop (d.lineStart n)))
        (pass 0 (d.linesBefore n) none).2 :=
  scan_placed_take hn (List.take_append_drop _ _).symm

theorem pass_openBefore {d : Document} {n : Nat} {h : OpenBlock} (ho : d.OpenBefore n h)
    (hn : n ≤ d.lineCount) : (pass 0 (d.linesBefore n) none).2 = some (begunBefore d n h) := by
  have hlt := ho.before
  have hline : h.line < d.lineCount := by omega
  have hheader : senseOf (d.rawLine h.line).lineText = .header (.ofFields h.kind h.fields) :=
    senseOf_rawLine hline ho.role
  have hplain : ∀ raw ∈ (List.range' (h.line + 1) (n - (h.line + 1))).map d.rawLine,
      senseOf raw.lineText = .other := by
    intro raw hm
    obtain ⟨k, hk, rfl⟩ := List.mem_map.mp hm
    obtain ⟨i, hi, rfl⟩ := List.mem_range'.mp hk
    exact senseOf_rawLine (by omega) (ho.plain _ (by omega) (by omega))
  have hsplit := d.linesBefore_add (h.line + 1) (n - (h.line + 1))
  rw [show h.line + 1 + (n - (h.line + 1)) = n by omega, d.linesBefore_succ] at hsplit
  rw [hsplit, List.append_assoc, List.singleton_append, pass_append, pass, passLine_header _ _ hheader]
  simp only [pass_other hplain, d.length_linesBefore, d.drop_lineText hline, Option.map_some,
    Nat.zero_add, List.nil_append]
  rfl

end Scan

end Block

end HostScript
