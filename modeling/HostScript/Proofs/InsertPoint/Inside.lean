import HostScript.Proofs.Document.RoundTrip
import HostScript.Proofs.InsertPoint.Place

/-!
When the place that is found for a new block lies in the middle of another one. It does so only after
or above a block that a header cuts off: such a block ends where the line of the next header begins, so
the line behind it is already a line of the next block, and the comments above a header are lines of the
block before it. Apart from these, only the end of a text that a carriage return ends is no place.
-/

set_option autoImplicit false

namespace HostScript

/-- A block goes on at the offset. -/
def Document.InBlock (d : Document) (o : Nat) : Prop :=
  ∃ b ∈ Block.scan d, b.start < o ∧ o < b.stop

namespace InsertPoint

def previous? (d : Document) (number : Int) (hook : Bytes) : Option Block :=
  ((sameKind d hook).filter (goesBefore number hook)).getLast?

/-- The block that the new one goes behind is cut off, and the block that begins there goes on behind
its header line. -/
def BehindHeader (d : Document) (number : Int) (hook : Bytes) : Prop :=
  ∃ previous, previous? d number hook = some previous ∧
    ∃ b ∈ Block.scan d, b.start = previous.stop ∧ d.lineStart (d.lineAt b.start + 1 : Nat) < b.stop

/-- The new block goes before the others of its kind, and the first of these cuts off a block whose last
line is a comment. -/
def AboveHeader (d : Document) (number : Int) (hook : Bytes) : Prop :=
  previous? d number hook = none ∧ ∃ next, (sameKind d hook).head? = some next ∧
    (∃ b ∈ Block.scan d, b.stop = next.start) ∧
    ∃ n, d.lineAt next.start = n + 1 ∧ isComment (d.line n) = true

variable {d : Document}

theorem not_inBlock_length : ¬ d.InBlock d.length := by
  rintro ⟨b, hb, -, hlt⟩
  obtain ⟨_, hbegins⟩ := Block.exists_beginsAt hb
  have hstop := hbegins.liesAt.stop_le_length
  omega

theorem start_lt_stop {b : Block} (hb : b ∈ Block.scan d) : b.start < b.stop := by
  obtain ⟨_, h, rfl, he⟩ := Block.exists_beginsAt hb
  have hheader := (d.lineStart_lt_lineEnd (d.line_ne_nil (n := h.line) (by simp [he.role]))).2
  obtain ⟨m, stop, terminated, ho, rfl, hle, _⟩ := he.body
  have hbody := d.lineEnd_le_lineStart ho.before
  simp only [Block.close]
  omega

/-- On the line behind the end of a block another one goes on exactly if it begins at that end. -/
theorem inBlock_behind_iff {a : Block} (ha : a ∈ Block.scan d)
    (hline : d.lineAt a.stop + 1 < d.lineCount) :
    d.InBlock (d.lineStart (d.lineAt a.stop + 1 : Nat)) ↔
      ∃ b ∈ Block.scan d, b.start = a.stop ∧ d.lineStart (d.lineAt b.start + 1 : Nat) < b.stop := by
  obtain ⟨-, hlow, hhigh⟩ := d.lineAt_bounds a.stop
  have hhigh := hhigh hline
  constructor
  · rintro ⟨b, hb, hstart, hstop⟩
    obtain ⟨n, hbegins⟩ := Block.exists_beginsAt hb
    have hn : b.start = d.lineStart n := hbegins.liesAt.start_eq
    have hle : n ≤ d.lineAt a.stop := by
      by_contra hlt
      have hmono := d.lineStart_mono (show d.lineAt a.stop + 1 ≤ n by omega)
      omega
    have hmono := d.lineStart_mono hle
    have heq : b.start = a.stop := by
      rcases Nat.lt_trichotomy a.start b.start with hlt | hsame | hgt
      · have hbefore := (Block.stop_le_start ha hb hlt).1
        omega
      · obtain rfl := Block.eq_of_start_eq ha hb hsame
        omega
      · have hbefore := (Block.stop_le_start hb ha hgt).1
        have hroom := start_lt_stop ha
        omega
    exact ⟨b, hb, heq, by rwa [heq]⟩
  · rintro ⟨b, hb, heq, hgoes⟩
    rw [heq] at hgoes
    exact ⟨b, hb, heq ▸ hhigh, hgoes⟩

theorem aboveComments_lt_iff (d : Document) (n : Nat) :
    aboveComments d n < n ↔ ∃ i, n = i + 1 ∧ isComment (d.line i) = true := by
  cases n with
  | zero => simp [aboveComments]
  | succ n =>
    have hle := aboveComments_le d n
    by_cases hc : isComment (d.line n) = true
    · simp only [aboveComments, hc, if_true]
      exact ⟨fun _ => ⟨n, rfl, hc⟩, fun _ => Nat.lt_succ_of_le hle⟩
    · simp [aboveComments, hc]

theorem aboveComments_plain {n i : Nat} (hlow : aboveComments d n ≤ i) (hhigh : i < n) :
    lineRole (d.line i) = .other := by
  fun_induction aboveComments d n with
  | case1 => omega
  | case2 n hc ih =>
    rcases Nat.lt_or_eq_of_le (Nat.le_of_lt_succ hhigh) with hlt | rfl
    · exact ih hlow hlt
    · exact lineRole_comment hc
  | case3 n => omega

/-- A block that goes on among the plain lines above a header goes on up to the header. -/
theorem stop_eq_of_plain {b next : Block} (hb : b ∈ Block.scan d) (hnext : next ∈ Block.scan d)
    {k n : Nat} (hn : next.start = d.lineStart n) (hlt : b.start < next.start)
    (hplain : ∀ i, k ≤ i → i < n → lineRole (d.line i) = .other) (hgoes : d.lineStart k < b.stop) :
    b.stop = next.start := by
  have hle := (Block.stop_le_start hb hnext hlt).1
  obtain ⟨_, h, rfl, he⟩ := Block.exists_beginsAt hb
  -- A line with a role at which the block ends would be one of the plain lines.
  have hbelow {m : Nat} (hrole : lineRole (d.line m) ≠ .other) (hm : d.lineStart m < d.lineStart n) :
      m < k := by
    by_contra hge
    refine hrole (hplain m (Nat.le_of_not_lt hge) (Nat.lt_of_not_le fun hle => ?_))
    have hmono := d.lineStart_mono hle
    omega
  cases he with
  | @terminated m ho hr =>
    have hrole : lineRole (d.line m) ≠ .other := by simp [hr]
    have hroom := (d.lineStart_lt_lineEnd (d.line_ne_nil hrole)).2
    simp only [Block.close] at hgoes hle
    have hend := d.lineEnd_le_lineStart (hbelow hrole (by omega))
    omega
  | @interrupted m kind fields ho hr =>
    simp only [Block.cut, Block.close] at hgoes hle ⊢
    refine Nat.le_antisymm hle (Nat.le_of_not_lt fun hbefore => ?_)
    have hearlier := d.lineStart_mono (Nat.le_of_lt (hbelow (m := m) (by simp [hr]) (by omega)))
    omega
  | unfinished ho =>
    have hlater := Block.start_lt_length hnext
    simp only [Block.cut, Block.close] at hle
    omega

/-- Above the comments of a header a block goes on exactly if the header cuts it off and there are
comments. -/
theorem inBlock_above_iff {next : Block} (hnext : next ∈ Block.scan d) :
    d.InBlock (d.lineStart (aboveComments d (d.lineAt next.start) : Nat)) ↔
      (∃ b ∈ Block.scan d, b.stop = next.start) ∧
        ∃ n, d.lineAt next.start = n + 1 ∧ isComment (d.line n) = true := by
  obtain ⟨n, hbegins⟩ := Block.exists_beginsAt hnext
  have hstart : next.start = d.lineStart n := hbegins.liesAt.start_eq
  have hn := hbegins.isHeader.lt_lineCount
  have hline : d.lineAt next.start = n := by rw [hstart, d.lineAt_lineStart hn]
  rw [hline, ← aboveComments_lt_iff]
  have hle := aboveComments_le d n
  have hmono := d.lineStart_mono hle
  constructor
  · rintro ⟨b, hb, hlow, hhigh⟩
    have hstop := stop_eq_of_plain hb hnext hstart (by omega) (fun _ => aboveComments_plain) hhigh
    refine ⟨⟨b, hb, hstop⟩, Nat.lt_of_le_of_ne hle fun heq => ?_⟩
    rw [heq] at hhigh
    omega
  · rintro ⟨⟨b, hb, hstop⟩, hlt⟩
    obtain ⟨m, hother⟩ := Block.exists_beginsAt hb
    have hm : b.start = d.lineStart m := hother.liesAt.start_eq
    have hroom := start_lt_stop hb
    -- The header of the block is no comment, so it stands above the comments.
    have hmn : m < n := by
      by_contra hge
      have hlater := d.lineStart_mono (Nat.le_of_not_lt hge)
      omega
    have hk : m < aboveComments d n := by
      by_contra hge
      have hplain := aboveComments_plain (Nat.le_of_not_lt hge) hmn
      exact Document.not_isHeader (by simp [hplain]) hother.isHeader
    refine ⟨b, hb, ?_, ?_⟩
    · rw [hm]
      exact d.lineStart_lt hk (by omega)
    · rw [hstop, hstart]
      exact d.lineStart_lt hlt hn

/-- How the position for a new block comes about. -/
inductive Found (d : Document) (number : Int) (hook : Bytes) : Position → Prop where
  | behindLast {previous : Block} : previous? d number hook = some previous →
      d.lineCount ≤ d.lineAt previous.stop + 1 → Found d number hook (d.positionAt d.length)
  | behind {previous : Block} : previous? d number hook = some previous →
      d.lineAt previous.stop + 1 < d.lineCount →
      Found d number hook ⟨(d.lineAt previous.stop + 1 : Nat), 0⟩
  | above {next : Block} : previous? d number hook = none → (sameKind d hook).head? = some next →
      Found d number hook ⟨aboveComments d (d.lineAt next.start), 0⟩
  | alone : previous? d number hook = none → (sameKind d hook).head? = none →
      Found d number hook (d.positionAt d.length)

theorem blockPosition_found (d : Document) (number : Int) (hook : Bytes) :
    Found d number hook (blockPosition d (Block.scan d) number hook) := by
  unfold blockPosition
  simp only
  split
  · rename_i previous hp
    split
    · rename_i hle
      exact .behindLast hp hle
    · rename_i hlt
      exact .behind hp (Nat.lt_of_not_le hlt)
  · rename_i hp
    split
    · rename_i next hn
      exact .above hp hn
    · rename_i hn
      exact .alone hp hn

section Found

variable {number : Int} {hook : Bytes}

theorem previous?_mem {b : Block} (h : previous? d number hook = some b) : b ∈ Block.scan d :=
  (mem_sameKind.mp (List.mem_filter.mp (List.mem_of_getLast? h)).1).1

theorem not_behindHeader_of_none (h : previous? d number hook = none) : ¬ BehindHeader d number hook := by
  rintro ⟨previous, hp, -⟩
  rw [h] at hp
  cases hp

theorem not_aboveHeader_of_some {b : Block} (h : previous? d number hook = some b) :
    ¬ AboveHeader d number hook := by
  rintro ⟨hp, -⟩
  rw [h] at hp
  cases hp

theorem not_behindHeader_of_last {previous : Block} (hp : previous? d number hook = some previous)
    (hlast : d.lineCount ≤ d.lineAt previous.stop + 1) : ¬ BehindHeader d number hook := by
  rintro ⟨_, hp', b, hb, hstart, hgoes⟩
  obtain rfl := Option.some.inj (hp.symm.trans hp')
  obtain ⟨_, hbegins⟩ := Block.exists_beginsAt hb
  have hstop := hbegins.liesAt.stop_le_length
  rw [hstart, d.lineStart_of_ge hlast] at hgoes
  omega

theorem behindHeader_iff {previous : Block} (hp : previous? d number hook = some previous) :
    BehindHeader d number hook ↔ ∃ b ∈ Block.scan d, b.start = previous.stop ∧
      d.lineStart (d.lineAt b.start + 1 : Nat) < b.stop := by
  constructor
  · rintro ⟨_, hp', hb⟩
    obtain rfl := Option.some.inj (hp.symm.trans hp')
    exact hb
  · exact fun hb => ⟨previous, hp, hb⟩

theorem aboveHeader_iff {next : Block} (hp : previous? d number hook = none)
    (hn : (sameKind d hook).head? = some next) : AboveHeader d number hook ↔
      (∃ b ∈ Block.scan d, b.stop = next.start) ∧
        ∃ n, d.lineAt next.start = n + 1 ∧ isComment (d.line n) = true := by
  constructor
  · rintro ⟨-, _, hn', hb⟩
    obtain rfl := Option.some.inj (hn.symm.trans hn')
    exact hb
  · exact fun hb => ⟨hp, next, hn, hb⟩

theorem Found.offsetAt_eq_none_iff {p : Position} (h : Found d number hook p) : d.offsetAt p = none ↔
    d.text.getLast? = some Bytes.carriageReturn ∧ p = d.positionAt d.length := by
  have hend : d.offsetAt (d.positionAt d.length) = none ↔
      d.text.getLast? = some Bytes.carriageReturn := by
    rw [d.offsetAt_length]
    split <;> simp [*]
  refine ⟨fun hnone => ?_, fun ⟨hr, heq⟩ => heq ▸ hend.mpr hr⟩
  cases h with
  | behindLast => exact ⟨hend.mp hnone, rfl⟩
  | alone => exact ⟨hend.mp hnone, rfl⟩
  | behind hp hline =>
    rw [d.offsetAt_lineStart hline] at hnone
    cases hnone
  | @above next hp hn =>
    have hle := aboveComments_le d (d.lineAt next.start)
    have hlt := (d.lineAt_bounds next.start).1
    rw [d.offsetAt_lineStart (Nat.lt_of_le_of_lt hle hlt)] at hnone
    cases hnone

theorem Found.inBlock_iff {p : Position} (h : Found d number hook p) {o : Nat}
    (ho : d.offsetAt p = some o) :
    d.InBlock o ↔ BehindHeader d number hook ∨ AboveHeader d number hook := by
  have hend (ho : d.offsetAt (d.positionAt d.length) = some o) : ¬ d.InBlock o := by
    rw [d.offsetAt_length] at ho
    split at ho
    · cases ho
    · obtain rfl := Option.some.inj ho
      exact not_inBlock_length
  cases h with
  | behindLast hp hlast =>
    simp only [hend ho, not_behindHeader_of_last hp hlast, not_aboveHeader_of_some hp, or_self]
  | behind hp hline =>
    obtain rfl := Option.some.inj ((d.offsetAt_lineStart hline).symm.trans ho)
    rw [inBlock_behind_iff (previous?_mem hp) hline, behindHeader_iff hp,
      or_iff_left (not_aboveHeader_of_some hp)]
  | @above next hp hn =>
    have hle := aboveComments_le d (d.lineAt next.start)
    have hlt := (d.lineAt_bounds next.start).1
    obtain rfl := Option.some.inj ((d.offsetAt_lineStart (Nat.lt_of_le_of_lt hle hlt)).symm.trans ho)
    rw [inBlock_above_iff (mem_sameKind.mp (List.mem_of_head? hn)).1, aboveHeader_iff hp hn,
      or_iff_right (not_behindHeader_of_none hp)]
  | alone hp hn =>
    have habove : ¬ AboveHeader d number hook := by
      rintro ⟨-, next, hn', -⟩
      rw [hn] at hn'
      cases hn'
    simp only [hend ho, not_behindHeader_of_none hp, habove, or_self]

end Found

/-- The position that is found for a new block is one of the document, except for the end of a text that
a carriage return ends, and no block goes on there, except behind or above a header that cuts a block
off. -/
theorem find_inBlock_iff {number : Int} {hook : Bytes} {others : List Document}
    (hp : (find d number hook others).present = false) :
    (d.offsetAt (find d number hook others).script = none ↔
      d.text.getLast? = some Bytes.carriageReturn ∧
        (find d number hook others).script = d.positionAt d.length) ∧
    ∀ o, d.offsetAt (find d number hook others).script = some o →
      (d.InBlock o ↔ BehindHeader d number hook ∨ AboveHeader d number hook) := by
  rw [(find_of_not_present hp).1]
  have hfound := blockPosition_found d number hook
  exact ⟨hfound.offsetAt_eq_none_iff, fun o => hfound.inBlock_iff⟩

def commentedHeader : Document :=
  .ofText "a" (utf8 "INSERTINTOSCRIPT:5,h\n// c\nSCRIPT:3,B\nENDSCRIPT\n")

theorem find_inBlock_iff_commentedHeader :
    (find commentedHeader 2 [] []).present = false ∧
      commentedHeader.offsetAt (find commentedHeader 2 [] []).script = some 21 ∧
      AboveHeader commentedHeader 2 [] ∧ commentedHeader.InBlock 21 := by
  have hp : (find commentedHeader 2 [] []).present = false := by decide +kernel
  have ho : commentedHeader.offsetAt (find commentedHeader 2 [] []).script = some 21 := by
    decide +kernel
  have habove : AboveHeader commentedHeader 2 [] :=
    ⟨by decide +kernel, .close commentedHeader ⟨2, .script, utf8 "3,B"⟩ 37 46 true, by decide +kernel,
      ⟨.cut commentedHeader ⟨0, .insertion, utf8 "5,h"⟩ 26, by decide +kernel, by decide +kernel⟩, 1,
      by decide +kernel, by decide +kernel⟩
  exact ⟨hp, ho, habove, ((find_inBlock_iff hp).2 21 ho).mpr (.inr habove)⟩

def cutScript : Document := .ofText "a" (utf8 "SCRIPT:1,A\nSCRIPT:3,B\nENDSCRIPT\n")

/-- Between the two no place is found for a script, but only in the second one, behind its header. -/
theorem cutScript_inBlock :
    (find cutScript 2 [] []).present = false ∧
      (find cutScript 2 [] []).script = ⟨2, 0⟩ ∧ cutScript.offsetAt ⟨2, 0⟩ = some 22 ∧
      ∃ b ∈ Block.scan cutScript, b.number = some 3 ∧ b.start = 11 ∧ b.stop = 31 ∧ cutScript.InBlock 22 := by
  have hb : Block.close cutScript ⟨1, .script, utf8 "3,B"⟩ 22 31 true ∈ Block.scan cutScript := by
    decide +kernel
  exact ⟨by decide +kernel, by decide +kernel, by decide +kernel, _, hb, by decide +kernel,
    by decide +kernel, rfl, _, hb, by decide +kernel, by decide +kernel⟩

end InsertPoint

end HostScript
