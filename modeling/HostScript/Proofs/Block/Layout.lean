import HostScript.Block.Scan
import HostScript.Proofs.Document.Lines
import Mathlib.Data.List.Forall2

set_option autoImplicit false

namespace HostScript

theorem Bytes.after?_eq_some {bs head rest : Bytes} :
    bs.after? head = some rest ↔ bs = head ++ rest := by
  unfold after?
  constructor
  · intro h
    split at h
    · rename_i hp
      obtain ⟨tail, rfl⟩ := List.isPrefixOf_iff_prefix.mp hp
      simpa using h
    · exact absurd h (by simp)
  · rintro rfl
    have hp : head.isPrefixOf (head ++ rest) = true := List.isPrefixOf_iff_prefix.mpr ⟨rest, rfl⟩
    simp [hp]

theorem Bytes.after?_eq_none {bs head : Bytes} : bs.after? head = none ↔ ¬ head <+: bs := by
  simp [after?, ← List.isPrefixOf_iff_prefix]

theorem BlockKind.keyword_not_prefix {text : Bytes} (h : utf8 terminatorKeyword <+: text)
    (kind : BlockKind) : ¬ utf8 kind.keyword <+: text := by
  intro hk
  have hp := List.prefix_or_prefix_of_prefix hk h
  revert hp
  cases kind <;> decide

namespace Document

/-- A line that begins a block: after blanks and tabs it starts with a keyword of a header. -/
def IsHeader (d : Document) (n : Nat) : Prop :=
  utf8 "SCRIPT:" <+: (d.line n).dropIndent ∨ utf8 "INSERTINTOSCRIPT:" <+: (d.line n).dropIndent

instance (d : Document) (n : Nat) : Decidable (d.IsHeader n) :=
  inferInstanceAs (Decidable (_ ∨ _))

/-- A line that ends a block: after blanks and tabs it has the terminator keyword, and no word
character follows. -/
def IsTerminator (d : Document) (n : Nat) : Prop :=
  ∃ rest : Bytes, (d.line n).dropIndent = utf8 "ENDSCRIPT" ++ rest ∧
    ∀ r, rest.head? = some r → isWord r.char = false

def headerLines (d : Document) : List Nat :=
  (List.range d.lineCount).filter fun n => d.IsHeader n

theorem isHeader_iff (d : Document) (n : Nat) :
    d.IsHeader n ↔ ∃ kind : BlockKind, utf8 kind.keyword <+: (d.line n).dropIndent := by
  constructor
  · intro h
    cases h with
    | inl h => exact ⟨.script, h⟩
    | inr h => exact ⟨.insertion, h⟩
  · rintro ⟨kind, h⟩
    cases kind with
    | script => exact Or.inl h
    | insertion => exact Or.inr h

end Document

theorem lineRole_header {line : Bytes} {kind : BlockKind} {fields : Bytes}
    (h : lineRole line = .header kind fields) :
    line.dropIndent = utf8 kind.keyword ++ fields := by
  unfold lineRole at h
  simp only at h
  split at h
  · rename_i rest hi
    obtain ⟨rfl, rfl⟩ := LineRole.header.inj h
    exact Bytes.after?_eq_some.mp hi
  · split at h
    · rename_i rest hs
      obtain ⟨rfl, rfl⟩ := LineRole.header.inj h
      exact Bytes.after?_eq_some.mp hs
    · split at h <;> exact absurd h (by simp)

theorem lineRole_eq_header {line : Bytes} {kind : BlockKind}
    (h : utf8 kind.keyword <+: line.dropIndent) :
    ∃ kind fields, lineRole line = .header kind fields := by
  obtain ⟨fields, h⟩ := h
  have hf := Bytes.after?_eq_some.mpr h.symm
  cases hi : line.dropIndent.after? (utf8 BlockKind.insertion.keyword) with
  | some rest => exact ⟨.insertion, rest, by simp only [lineRole, hi]⟩
  | none =>
    cases kind with
    | script => exact ⟨.script, fields, by simp only [lineRole, hi, hf]⟩
    | insertion => rw [hf] at hi; exact absurd hi (by simp)

theorem isTerminator_iff (text : Bytes) : isTerminator text = true ↔
    ∃ rest : Bytes, text = utf8 terminatorKeyword ++ rest ∧
      ∀ r, rest.head? = some r → isWord r.char = false := by
  unfold isTerminator
  cases h : text.after? (utf8 terminatorKeyword) with
  | none =>
    have hn := Bytes.after?_eq_none.mp h
    simp only [Bool.false_eq_true, false_iff]
    rintro ⟨rest, rfl, _⟩
    exact hn ⟨rest, rfl⟩
  | some rest =>
    have ht := Bytes.after?_eq_some.mp h
    subst ht
    cases hr : Bytes.head? rest <;> simp [hr]

theorem lineRole_terminator {line : Bytes} (h : lineRole line = .terminator) :
    isTerminator line.dropIndent = true := by
  unfold lineRole at h
  simp only at h
  split at h
  · exact absurd h (by simp)
  · split at h
    · exact absurd h (by simp)
    · split at h
      · assumption
      · exact absurd h (by simp)

namespace Document

theorem isHeader_iff_role (d : Document) (n : Nat) :
    d.IsHeader n ↔ ∃ kind fields, lineRole (d.line n) = .header kind fields := by
  rw [isHeader_iff]
  constructor
  · rintro ⟨kind, h⟩
    exact lineRole_eq_header h
  · rintro ⟨kind, fields, h⟩
    exact ⟨kind, fields, (lineRole_header h).symm⟩

theorem not_isHeader {d : Document} {n : Nat}
    (h : ∀ kind fields, lineRole (d.line n) ≠ .header kind fields) : ¬ d.IsHeader n := by
  rw [isHeader_iff_role]
  rintro ⟨kind, fields, hr⟩
  exact h kind fields hr

theorem isTerminator_iff_role (d : Document) (n : Nat) :
    d.IsTerminator n ↔ lineRole (d.line n) = .terminator := by
  have ht : d.IsTerminator n ↔ isTerminator (d.line n).dropIndent = true :=
    (isTerminator_iff _).symm
  rw [ht]
  constructor
  · intro h
    obtain ⟨rest, hr, _⟩ := (isTerminator_iff _).mp h
    have hk (kind : BlockKind) : (d.line n).dropIndent.after? (utf8 kind.keyword) = none :=
      Bytes.after?_eq_none.mpr (BlockKind.keyword_not_prefix ⟨rest, hr.symm⟩ kind)
    simp [lineRole, hk, h]
  · exact lineRole_terminator

theorem line_ne_nil (d : Document) {n : Nat} (h : lineRole (d.line n) ≠ .other) : d.line n ≠ [] := by
  intro he
  rw [he] at h
  exact h (by decide)

/-- No line between two lines begins or ends a block. -/
def Plain (d : Document) (m n : Nat) : Prop :=
  ∀ k, m < k → k < n → lineRole (d.line k) = .other

theorem plain_succ {d : Document} {m n : Nat} (h : d.Plain m n) (hn : lineRole (d.line n) = .other) :
    d.Plain m (n + 1) := by
  intro k hm hk
  cases Nat.lt_or_eq_of_le (Nat.le_of_lt_succ hk) with
  | inl hk => exact h k hm hk
  | inr hk => rw [hk]; exact hn

theorem Plain.not_isHeader {d : Document} {m n k : Nat} (h : d.Plain m n) (hm : m < k) (hk : k < n) :
    ¬ d.IsHeader k := by
  have ho := h k hm hk
  exact Document.not_isHeader (by simp [ho])

theorem Plain.not_isTerminator {d : Document} {m n k : Nat} (h : d.Plain m n) (hm : m < k)
    (hk : k < n) : ¬ d.IsTerminator k := by
  have ho := h k hm hk
  simp [isTerminator_iff_role, ho]

theorem IsTerminator.not_isHeader {d : Document} {n : Nat} (h : d.IsTerminator n) : ¬ d.IsHeader n :=
  Document.not_isHeader (by simp [(d.isTerminator_iff_role n).mp h])

theorem IsHeader.lt_lineCount {d : Document} {n : Nat} (h : d.IsHeader n) : n < d.lineCount := by
  obtain ⟨kind, fields, hr⟩ := (d.isHeader_iff_role n).mp h
  exact (d.lineStart_lt_lineEnd (d.line_ne_nil (by simp [hr]))).1

theorem IsTerminator.lt_lineCount {d : Document} {n : Nat} (h : d.IsTerminator n) :
    n < d.lineCount := by
  have hr := (d.isTerminator_iff_role n).mp h
  exact (d.lineStart_lt_lineEnd (d.line_ne_nil (by simp [hr]))).1

/-- The header of `h` stands at its line, and the block is still open before line `n`. -/
structure OpenBefore (d : Document) (n : Nat) (h : OpenBlock) : Prop where
  role : lineRole (d.line h.line) = .header h.kind h.fields
  before : h.line < n
  plain : d.Plain h.line n

end Document

namespace Block

/-- The three ways in which a block ends. -/
inductive Ends (d : Document) (h : OpenBlock) : Block → Prop where
  | terminated {m : Nat} : d.OpenBefore m h → lineRole (d.line m) = .terminator →
      Ends d h (close d h (d.lineStart m) (d.lineEnd m) true)
  | interrupted {m : Nat} {kind : BlockKind} {fields : Bytes} : d.OpenBefore m h →
      lineRole (d.line m) = .header kind fields → Ends d h (cut d h (d.lineStart m))
  | unfinished : d.OpenBefore d.lineCount h → Ends d h (cut d h d.length)

def BeginsAt (d : Document) (n : Nat) (b : Block) : Prop := ∃ h : OpenBlock, h.line = n ∧ Ends d h b

theorem scanLines_beginsAt (d : Document) (count first : Nat) (current : Option OpenBlock)
    (hc : first + count = d.lineCount) (ho : ∀ h, current = some h → d.OpenBefore first h) :
    List.Forall₂ (BeginsAt d)
      ((current.map (·.line)).toList ++ (List.range' first count).filter fun n => d.IsHeader n)
      (scanLines d (List.range' first count) current) := by
  induction count generalizing first current with
  | zero =>
    cases current with
    | none => simp [scanLines]
    | some h =>
      have hb := ho h rfl
      have hl : first = d.lineCount := hc
      rw [hl] at hb
      simpa [scanLines] using ⟨h, rfl, Ends.unfinished hb⟩
  | succ count ih =>
    have hc' : first + 1 + count = d.lineCount := by omega
    rw [List.range'_succ]
    cases hr : lineRole (d.line first) with
    | header kind fields =>
      have hh : d.IsHeader first := (d.isHeader_iff_role first).mpr ⟨kind, fields, hr⟩
      have hi := ih (first + 1) (some ⟨first, kind, fields⟩) hc' (by
        intro h he
        obtain rfl := Option.some.inj he
        exact ⟨hr, Nat.lt_succ_self first, fun k hm hk => absurd hk (Nat.not_lt_of_le hm)⟩)
      -- The header opens a block, and cuts off the one that was open.
      cases current with
      | none => simpa [scanLines, hr, hh] using hi
      | some h =>
        have he : BeginsAt d h.line (cut d h (d.lineStart first)) :=
          ⟨h, rfl, .interrupted (ho h rfl) hr⟩
        simpa [scanLines, hr, hh] using And.intro he hi
    | terminator =>
      have hh : ¬ d.IsHeader first := Document.not_isHeader (by simp [hr])
      have hi := ih (first + 1) none hc' (by simp)
      cases current with
      | none => simpa [scanLines, hr, hh] using hi
      | some h =>
        have he : BeginsAt d h.line (close d h (d.lineStart first) (d.lineEnd first) true) :=
          ⟨h, rfl, .terminated (ho h rfl) hr⟩
        simpa [scanLines, hr, hh] using And.intro he hi
    | other =>
      have hh : ¬ d.IsHeader first := Document.not_isHeader (by simp [hr])
      have hi := ih (first + 1) current hc' (by
        intro h he
        have hb := ho h he
        exact ⟨hb.role, Nat.lt_succ_of_lt hb.before, Document.plain_succ hb.plain hr⟩)
      cases current <;> simpa [scanLines, hr, hh] using hi

theorem scan_beginsAt (d : Document) : List.Forall₂ (BeginsAt d) d.headerLines (scan d) := by
  have h := scanLines_beginsAt d d.lineCount 0 none (by omega) (by simp)
  simpa [scan, Document.headerLines, List.range_eq_range'] using h

/-- However a block ends, its body ends at a line start, and only plain lines stand before it. -/
theorem Ends.body {d : Document} {h : OpenBlock} {b : Block} (he : Ends d h b) :
    ∃ m stop terminated, d.OpenBefore m h ∧ b = close d h (d.lineStart m) stop terminated ∧
      d.lineStart m ≤ stop ∧ stop ≤ d.length := by
  cases he with
  | @terminated m ho hr =>
    exact ⟨m, _, true, ho, rfl, d.lineStart_le_lineEnd m, d.lineEnd_le_length m⟩
  | @interrupted m kind fields ho hr =>
    exact ⟨m, _, false, ho, rfl, Nat.le_refl _, d.lineStart_le_length m⟩
  | unfinished ho =>
    have hl := d.lineStart_of_ge (Nat.le_refl d.lineCount)
    exact ⟨d.lineCount, _, false, ho, by rw [hl]; rfl, Nat.le_of_eq hl, Nat.le_refl _⟩

theorem close_headerEnd_le (d : Document) (h : OpenBlock) (bodyEnd stop : Nat) (terminated : Bool) :
    (close d h bodyEnd stop terminated).headerEnd ≤ (close d h bodyEnd stop terminated).bodyStart := by
  simp only [close]
  split
  · exact d.lineEnd_le_lineStart (Nat.lt_succ_self h.line)
  · exact Nat.le_refl _

theorem close_bodyStart_le (d : Document) (h : OpenBlock) (bodyEnd stop : Nat) (terminated : Bool)
    {m : Nat} (hm : h.line < m) :
    (close d h bodyEnd stop terminated).bodyStart ≤ d.lineStart m := by
  simp only [close]
  split
  · exact d.lineStart_mono (show h.line + 1 ≤ m from hm)
  · exact d.lineEnd_le_lineStart hm

end Block

namespace Document

/-- Line `m` is a terminator line after the header line `n` and before the next header line. -/
structure Closes (d : Document) (n m : Nat) : Prop where
  after : n < m
  isTerminator : d.IsTerminator m
  noHeader : ∀ k, n < k → k < m → ¬ d.IsHeader k

/-- Line `m` is the next header line after line `n`. -/
structure NextHeader (d : Document) (n m : Nat) : Prop where
  after : n < m
  isHeader : d.IsHeader m
  noHeader : ∀ k, n < k → k < m → ¬ d.IsHeader k

theorem OpenBefore.closes {d : Document} {m : Nat} {h : OpenBlock} (ho : d.OpenBefore m h)
    (hr : lineRole (d.line m) = .terminator) : d.Closes h.line m :=
  ⟨ho.before, (d.isTerminator_iff_role m).mpr hr, fun _ hk hkm => ho.plain.not_isHeader hk hkm⟩

theorem OpenBefore.nextHeader {d : Document} {m : Nat} {h : OpenBlock} (ho : d.OpenBefore m h)
    {kind : BlockKind} {fields : Bytes} (hr : lineRole (d.line m) = .header kind fields) :
    d.NextHeader h.line m :=
  ⟨ho.before, (d.isHeader_iff_role m).mpr ⟨kind, fields, hr⟩,
    fun _ hk hkm => ho.plain.not_isHeader hk hkm⟩

theorem NextHeader.unique {d : Document} {n a b : Nat} (ha : d.NextHeader n a)
    (hb : d.NextHeader n b) : a = b := by
  rcases Nat.lt_trichotomy a b with hlt | heq | hgt
  · exact absurd ha.isHeader (hb.noHeader a ha.after hlt)
  · exact heq
  · exact absurd hb.isHeader (ha.noHeader b hb.after hgt)

end Document

namespace Block

/-- How a block lies in a document, if its header is line `n`. -/
structure LiesAt (d : Document) (n : Nat) (b : Block) : Prop where
  start_eq : b.start = d.lineStart n
  start_le_headerEnd : b.start ≤ b.headerEnd
  headerEnd_le_bodyStart : b.headerEnd ≤ b.bodyStart
  bodyStart_le_bodyEnd : b.bodyStart ≤ b.bodyEnd
  bodyEnd_le_stop : b.bodyEnd ≤ b.stop
  stop_le_length : b.stop ≤ d.length
  terminated_iff : b.terminated = true ↔ ∃ m, d.Closes n m
  ends_at_terminator : ∀ m, d.Closes n m → (∀ k, k < m → ¬ d.Closes n k) →
    b.bodyEnd = d.lineStart m ∧ b.stop = d.lineEnd m
  ends_at_header : b.terminated = false → ∀ m, d.NextHeader n m →
    b.bodyEnd = d.lineStart m ∧ b.stop = d.lineStart m
  ends_at_text : b.terminated = false → (∀ m, n < m → ¬ d.IsHeader m) →
    b.bodyEnd = d.length ∧ b.stop = d.length
  body_plain : ∀ k : Nat, b.bodyStart ≤ d.lineStart k → d.lineEnd k ≤ b.bodyEnd →
    ¬ d.IsHeader k ∧ ¬ d.IsTerminator k

theorem Ends.terminated_iff {d : Document} {h : OpenBlock} {b : Block} (he : Ends d h b) :
    b.terminated = true ↔ ∃ m, d.Closes h.line m := by
  cases he with
  | @terminated m ho hr =>
    exact ⟨fun _ => ⟨m, ho.closes hr⟩, fun _ => rfl⟩
  | @interrupted m kind fields ho hr =>
    have hm := (ho.nextHeader hr).isHeader
    refine ⟨fun ht => absurd ht (by simp [cut, close]), ?_⟩
    rintro ⟨k, hk⟩
    -- A terminator would stand before the header, among plain lines, or behind it.
    rcases Nat.lt_trichotomy k m with hlt | rfl | hgt
    · exact absurd hk.isTerminator (ho.plain.not_isTerminator hk.after hlt)
    · exact absurd hm hk.isTerminator.not_isHeader
    · exact absurd hm (hk.noHeader m ho.before hgt)
  | unfinished ho =>
    refine ⟨fun ht => absurd ht (by simp [cut, close]), ?_⟩
    rintro ⟨k, hk⟩
    exact absurd hk.isTerminator (ho.plain.not_isTerminator hk.after hk.isTerminator.lt_lineCount)

theorem Ends.at_terminator {d : Document} {h : OpenBlock} {b : Block} (he : Ends d h b) {m : Nat}
    (hm : d.Closes h.line m) (hf : ∀ k, k < m → ¬ d.Closes h.line k) :
    b.bodyEnd = d.lineStart m ∧ b.stop = d.lineEnd m := by
  have ht := he.terminated_iff.mpr ⟨m, hm⟩
  cases he with
  | @terminated k ho hr =>
    rcases Nat.lt_trichotomy k m with hlt | rfl | hgt
    · exact absurd (ho.closes hr) (hf k hlt)
    · exact ⟨rfl, rfl⟩
    · exact absurd hm.isTerminator (ho.plain.not_isTerminator hm.after hgt)
  | interrupted ho hr => exact absurd ht (by simp [cut, close])
  | unfinished ho => exact absurd ht (by simp [cut, close])

theorem Ends.at_header {d : Document} {h : OpenBlock} {b : Block} (he : Ends d h b)
    (ht : b.terminated = false) {m : Nat} (hm : d.NextHeader h.line m) :
    b.bodyEnd = d.lineStart m ∧ b.stop = d.lineStart m := by
  cases he with
  | terminated ho hr => exact absurd ht (by simp [close])
  | interrupted ho hr =>
    obtain rfl := (ho.nextHeader hr).unique hm
    exact ⟨rfl, rfl⟩
  | unfinished ho =>
    exact absurd hm.isHeader (ho.plain.not_isHeader hm.after hm.isHeader.lt_lineCount)

theorem Ends.at_text {d : Document} {h : OpenBlock} {b : Block} (he : Ends d h b)
    (ht : b.terminated = false) (hn : ∀ m, h.line < m → ¬ d.IsHeader m) :
    b.bodyEnd = d.length ∧ b.stop = d.length := by
  cases he with
  | terminated ho hr => exact absurd ht (by simp [close])
  | @interrupted k kind fields ho hr =>
    exact absurd (ho.nextHeader hr).isHeader (hn k ho.before)
  | unfinished ho => exact ⟨rfl, rfl⟩

theorem Ends.body_plain {d : Document} {h : OpenBlock} {b : Block} (he : Ends d h b) {k : Nat}
    (hs : b.bodyStart ≤ d.lineStart k) (hk : d.lineEnd k ≤ b.bodyEnd) :
    lineRole (d.line k) = .other := by
  obtain ⟨m, stop, terminated, ho, rfl, _, _⟩ := he.body
  -- A line with a role has text, so it lies strictly between the header and the end of the body.
  by_contra hr
  obtain ⟨_, hkt⟩ := d.lineStart_lt_lineEnd (d.line_ne_nil hr)
  obtain ⟨_, hht⟩ := d.lineStart_lt_lineEnd (d.line_ne_nil (n := h.line) (by simp [ho.role]))
  have hb := close_headerEnd_le d h (d.lineStart m) stop terminated
  simp only [close] at hb hs hk
  have hlow : h.line < k := by
    by_contra hle
    have hmono := d.lineStart_mono (Nat.le_of_not_lt hle)
    omega
  have hhigh : k < m := by
    by_contra hle
    have hmono := d.lineStart_mono (Nat.le_of_not_lt hle)
    omega
  exact hr (ho.plain k hlow hhigh)

theorem BeginsAt.liesAt {d : Document} {n : Nat} {b : Block} (hb : BeginsAt d n b) : LiesAt d n b := by
  obtain ⟨h, rfl, he⟩ := hb
  obtain ⟨m, stop, terminated, ho, rfl, hle, hstop⟩ := he.body
  exact
    { start_eq := rfl
      start_le_headerEnd := d.lineStart_le_lineEnd h.line
      headerEnd_le_bodyStart := close_headerEnd_le d h _ _ _
      bodyStart_le_bodyEnd := close_bodyStart_le d h _ _ _ ho.before
      bodyEnd_le_stop := hle
      stop_le_length := hstop
      terminated_iff := he.terminated_iff
      ends_at_terminator := fun k => he.at_terminator
      ends_at_header := fun ht k => he.at_header ht
      ends_at_text := fun ht => he.at_text ht
      body_plain := fun k hs hk => by
        have hr := he.body_plain hs hk
        exact ⟨Document.not_isHeader (by simp [hr]), by simp [Document.isTerminator_iff_role, hr]⟩ }

theorem Ends.stop_le {d : Document} {h : OpenBlock} {b : Block} (he : Ends d h b) {n : Nat}
    (hn : d.IsHeader n) (hlt : h.line < n) :
    b.stop ≤ d.lineStart n ∧ (b.terminated = true → b.stop < d.lineStart n) := by
  cases he with
  | @terminated m ho hr =>
    have hm := (ho.closes hr).isTerminator
    have hmn : m < n := by
      rcases Nat.lt_trichotomy m n with hmn | rfl | hgt
      · exact hmn
      · exact absurd hn hm.not_isHeader
      · exact absurd hn (ho.plain.not_isHeader hlt hgt)
    have hl : d.lineEnd m < d.lineStart n := d.lineEnd_lt_lineStart hmn hn.lt_lineCount
    exact ⟨Nat.le_of_lt hl, fun _ => hl⟩
  | @interrupted m kind fields ho hr =>
    have hmn : m ≤ n := Nat.le_of_not_lt fun hgt => ho.plain.not_isHeader hlt hgt hn
    exact ⟨d.lineStart_mono hmn, fun ht => absurd ht (by simp [cut, close])⟩
  | unfinished ho => exact absurd hn (ho.plain.not_isHeader hlt hn.lt_lineCount)

theorem BeginsAt.isHeader {d : Document} {n : Nat} {b : Block} (hb : BeginsAt d n b) :
    d.IsHeader n := by
  obtain ⟨h, rfl, he⟩ := hb
  obtain ⟨m, stop, terminated, ho, _⟩ := he.body
  exact (d.isHeader_iff_role h.line).mpr ⟨h.kind, h.fields, ho.role⟩

theorem exists_beginsAt {d : Document} {b : Block} (h : b ∈ scan d) : ∃ n, BeginsAt d n b := by
  have hf := scan_beginsAt d
  obtain ⟨i, hi, rfl⟩ := List.mem_iff_getElem.mp h
  exact ⟨_, hf.get (hf.length_eq ▸ hi) hi⟩

theorem scan_uri {d : Document} {b : Block} (h : b ∈ scan d) : b.uri = d.uri := by
  obtain ⟨n, o, _, he⟩ := exists_beginsAt h
  obtain ⟨m, stop, terminated, _, rfl, _, _⟩ := he.body
  rfl

theorem scan_pairwise (d : Document) {T : Block → Block → Prop}
    (h : ∀ m n a b, m < n → BeginsAt d m a → BeginsAt d n b → T a b) : (scan d).Pairwise T := by
  have hf := scan_beginsAt d
  have hl : d.headerLines.Pairwise (· < ·) := List.pairwise_lt_range.filter _
  have hlen := hf.length_eq
  rw [List.pairwise_iff_getElem] at hl ⊢
  intro i j hi hj hij
  exact h _ _ _ _ (hl i j (hlen ▸ hi) (hlen ▸ hj) hij) (hf.get _ hi) (hf.get _ hj)

theorem scan_starts_ascending (d : Document) : (scan d).Pairwise fun a b => a.start < b.start := by
  apply scan_pairwise
  intro m n a b hmn ha hb
  rw [ha.liesAt.start_eq, hb.liesAt.start_eq]
  exact d.lineStart_lt hmn hb.isHeader.lt_lineCount

theorem scan_nodup (d : Document) : (scan d).Nodup := by
  apply (scan_starts_ascending d).imp
  rintro a b hlt rfl
  exact absurd hlt (Nat.lt_irrefl _)

theorem scan_apart (d : Document) :
    (scan d).Pairwise fun a b => a.stop ≤ b.start ∧ (a.terminated = true → a.stop < b.start) := by
  apply scan_pairwise
  rintro m n a b hmn ⟨h, rfl, ha⟩ hb
  rw [hb.liesAt.start_eq]
  exact ha.stop_le hb.isHeader hmn

/-- Every header line has its block, in textual order, every block lies as its header line says,
and no block reaches into a later one. -/
theorem scan_layout (d : Document) :
    List.Forall₂ (LiesAt d) d.headerLines (scan d) ∧
      (scan d).Pairwise fun a b => a.stop ≤ b.start ∧ (a.terminated = true → a.stop < b.start) := by
  have hlies := (scan_beginsAt d).imp fun n b hb => hb.liesAt
  exact ⟨hlies, scan_apart d⟩

theorem Ends.eq_close {d : Document} {h : OpenBlock} {b : Block} (he : Ends d h b) :
    b = close d h b.bodyEnd b.stop b.terminated := by
  obtain ⟨m, stop, terminated, _, rfl, _, _⟩ := he.body
  rfl

theorem Ends.bounds {d : Document} {h : OpenBlock} {b : Block} (he : Ends d h b) :
    h.line < d.lineCount ∧ b.start = d.lineStart h.line ∧ b.bodyStart ≤ b.bodyEnd ∧
      b.bodyEnd ≤ b.stop ∧ b.start ≤ b.stop ∧ b.stop ≤ d.length := by
  have hb : BeginsAt d h.line b := ⟨h, rfl, he⟩
  have hl := hb.liesAt
  have h1 := hl.start_le_headerEnd
  have h2 := hl.headerEnd_le_bodyStart
  have h3 := hl.bodyStart_le_bodyEnd
  have h4 := hl.bodyEnd_le_stop
  exact ⟨hb.isHeader.lt_lineCount, hl.start_eq, h3, h4, by omega, hl.stop_le_length⟩

theorem Ends.role {d : Document} {h : OpenBlock} {b : Block} (he : Ends d h b) :
    lineRole (d.line h.line) = .header h.kind h.fields := by
  obtain ⟨m, stop, terminated, ho, _⟩ := he.body
  exact ho.role

theorem eq_of_start_eq {d : Document} {a b : Block} (ha : a ∈ scan d) (hb : b ∈ scan d)
    (h : a.start = b.start) : a = b := by
  have ho := scan_starts_ascending d
  rw [List.pairwise_iff_getElem] at ho
  obtain ⟨i, hi, rfl⟩ := List.mem_iff_getElem.mp ha
  obtain ⟨j, hj, rfl⟩ := List.mem_iff_getElem.mp hb
  rcases Nat.lt_trichotomy i j with hij | rfl | hij
  · exact absurd h (Nat.ne_of_lt (ho i j hi hj hij))
  · rfl
  · exact absurd h.symm (Nat.ne_of_lt (ho j i hj hi hij))

theorem start_lt_length {d : Document} {b : Block} (hb : b ∈ scan d) : b.start < d.length := by
  obtain ⟨_, h, rfl, he⟩ := exists_beginsAt hb
  have hlt := (d.lineStart_lt_lineEnd (d.line_ne_nil (n := h.line) (by simp [he.role]))).2
  have hle := d.lineEnd_le_length h.line
  rw [he.bounds.2.1]
  omega

theorem rel_of_start_lt {d : Document} {R : Block → Block → Prop} (hr : (scan d).Pairwise R)
    {a b : Block} (ha : a ∈ scan d) (hb : b ∈ scan d) (h : a.start < b.start) : R a b := by
  have ho := scan_starts_ascending d
  rw [List.pairwise_iff_getElem] at hr ho
  obtain ⟨i, hi, rfl⟩ := List.mem_iff_getElem.mp ha
  obtain ⟨j, hj, rfl⟩ := List.mem_iff_getElem.mp hb
  rcases Nat.lt_trichotomy i j with hij | rfl | hij
  · exact hr i j hi hj hij
  · exact absurd h (Nat.lt_irrefl _)
  · have hlt := ho j i hj hi hij
    omega

theorem stop_le_start {d : Document} {a b : Block} (ha : a ∈ scan d) (hb : b ∈ scan d)
    (h : a.start < b.start) : a.stop ≤ b.start ∧ (a.terminated = true → a.stop < b.start) :=
  rel_of_start_lt (scan_apart d) ha hb h

theorem at?_eq_some_iff {d : Document} {o : Int} {b : Block} : at? (scan d) o = some b ↔
    b ∈ scan d ∧ b.contains o = true ∧ ∀ a ∈ scan d, a.start < b.start → a.contains o = false := by
  have ho := scan_starts_ascending d
  rw [at?, List.find?_eq_some_iff_append]
  constructor
  · rintro ⟨hb, as, bs, hsplit, has⟩
    rw [hsplit, List.pairwise_append, List.pairwise_cons] at ho
    refine ⟨by simp [hsplit], hb, fun a ha hlt => ?_⟩
    rw [hsplit] at ha
    rcases List.mem_append.mp ha with ha | ha
    · simpa using has a ha
    · rcases List.mem_cons.mp ha with rfl | ha
      · exact absurd hlt (Nat.lt_irrefl _)
      · have hafter := ho.2.1.1 a ha
        omega
  · rintro ⟨hm, hb, hfirst⟩
    obtain ⟨as, bs, hsplit⟩ := List.append_of_mem hm
    refine ⟨hb, as, bs, hsplit, fun a ha => ?_⟩
    rw [hsplit, List.pairwise_append] at ho
    rw [hfirst a (by simp [hsplit, ha]) (ho.2.2 a ha b List.mem_cons_self)]
    rfl

end Block

end HostScript
