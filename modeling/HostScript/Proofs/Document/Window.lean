import HostScript.Proofs.Document.Joined

/-!
A text that stands in a document from the beginning of a line on. Seen from there, lines, offsets and
positions are those of the text alone, so two documents that show one text at one place look the same
there.
-/

set_option autoImplicit false

namespace HostScript

theorem newline_before_start {text : Bytes} {offset s : Nat}
    (h : s ∈ startsAfterNewlines offset text) :
    ∃ front back, text = front ++ Bytes.newline :: back ∧ s = offset + front.length + 1 := by
  induction text generalizing offset with
  | nil => simp [startsAfterNewlines] at h
  | cons b bs ih =>
    have later (hs : s ∈ startsAfterNewlines (offset + 1) bs) :
        ∃ front back, b :: bs = front ++ Bytes.newline :: back ∧ s = offset + front.length + 1 := by
      obtain ⟨front, back, rfl, rfl⟩ := ih hs
      exact ⟨b :: front, back, rfl, by simp only [List.length_cons]; omega⟩
    by_cases hb : b = Bytes.newline
    · simp only [startsAfterNewlines, hb, if_true, List.mem_cons] at h
      cases h with
      | inl h => exact ⟨[], bs, by rw [hb]; rfl, h⟩
      | inr h => exact later h
    · exact later (by simpa [startsAfterNewlines, hb] using h)

namespace Document

theorem ofText_text (d : Document) : ofText d.uri d.text = d := by
  cases d with
  | mk uri text starts h => subst h; rfl

theorem endsLine_take_lineStart (d : Document) {n : Nat} (h : n < d.lineCount) :
    Bytes.EndsLine (d.text.take (d.lineStart n)) := by
  have hm := List.mem_of_getElem? (d.lineStart_of_lt h)
  rw [starts_toList, List.mem_cons] at hm
  cases hm with
  | inl hm => exact Or.inl (by simp [hm])
  | inr hm =>
    obtain ⟨front, back, ht, hs⟩ := newline_before_start hm
    refine Or.inr ⟨front, ?_⟩
    have hl : d.lineStart n = (front ++ [Bytes.newline]).length := by simp [hs]
    have ha : d.text = (front ++ [Bytes.newline]) ++ back := by simp [ht]
    rw [hl, ha, List.take_left]

theorem count_take_lineStart (d : Document) {n : Nat} (h : n < d.lineCount) :
    (d.text.take (d.lineStart n)).count Bytes.newline = n := by
  rw [← lineAt_eq_count, d.lineAt_lineStart h]

/-- The text of `t` stands in `d` at the offset `start`, at which line `first` begins. -/
def Shows (d t : Document) (start first : Nat) : Prop :=
  ∃ before after : Bytes, d.text = before ++ (t.text ++ after) ∧ before.EndsLine ∧
    before.length = start ∧ before.count Bytes.newline = first

theorem shows_slice (d : Document) {n stop : Nat} (hn : n < d.lineCount)
    (hle : d.lineStart n ≤ stop) :
    d.Shows (ofText d.uri (d.text.slice (d.lineStart n) stop)) (d.lineStart n) n := by
  refine ⟨d.text.take (d.lineStart n), d.text.drop stop, ?_, d.endsLine_take_lineStart hn, ?_,
    d.count_take_lineStart hn⟩
  · have hd : d.text.drop stop = (d.text.drop (d.lineStart n)).drop (stop - d.lineStart n) := by
      rw [List.drop_drop, Nat.add_sub_of_le hle]
    simp only [ofText, Bytes.slice, hd, List.take_append_drop]
  · exact List.length_take_of_le (d.lineStart_le_length n)

namespace Shows

variable {d t : Document} {start first : Nat} (h : d.Shows t start first)

include h

theorem length_le : start + t.length ≤ d.length := by
  obtain ⟨before, after, hd, _, rfl, _⟩ := h
  simp only [length, hd, List.length_append]
  omega

theorem rest : ∃ e : Document, ∃ before after : Bytes, d.text = before ++ e.text ∧ before.EndsLine ∧
    before.length = start ∧ before.count Bytes.newline = first ∧ e.text = t.text ++ after ∧
    (start + t.length = d.length → e = t) := by
  obtain ⟨before, after, hd, hb, hl, hc⟩ := h
  refine ⟨ofText t.uri (t.text ++ after), before, after, hd, hb, hl, hc, rfl, ?_⟩
  intro hlen
  simp only [length, hd, List.length_append, ← hl] at hlen
  have ha : after = [] := List.eq_nil_of_length_eq_zero (by omega)
  rw [ha, List.append_nil, ofText_text]

theorem slice {a b : Nat} (hb : b ≤ t.length) :
    d.text.slice (start + a) (start + b) = t.text.slice a b := by
  obtain ⟨before, after, hd, _, rfl, _⟩ := h
  rw [hd, Bytes.slice_append_right, Bytes.slice_append_left _ _ hb]

theorem lineAt {o : Nat} (ho : o ≤ t.length) : d.lineAt (start + o : Nat) = first + t.lineAt o := by
  obtain ⟨e, before, after, hd, _, rfl, rfl, he, _⟩ := h.rest
  rw [lineAt_back hd, lineAt_front he (List.append_nil t.text).symm ho]

theorem positionAt {o : Nat} (ho : o ≤ t.length) : d.positionAt (start + o : Nat)
    = ⟨first + (t.positionAt o).line, (t.positionAt o).character⟩ := by
  obtain ⟨e, before, after, hd, hb, rfl, rfl, he, _⟩ := h.rest
  rw [positionAt_back hd hb, positionAt_front he (List.append_nil t.text).symm ho]

theorem lineStart {n : Nat} (hn : n ≤ t.text.count Bytes.newline) :
    d.lineStart (first + n : Nat) = start + t.lineStart n := by
  obtain ⟨e, before, after, hd, hb, rfl, rfl, he, _⟩ := h.rest
  rw [lineStart_back hd hb, lineStart_front he (List.append_nil t.text).symm hn]

theorem lineCount_of_end (hl : start + t.length = d.length) :
    d.lineCount = first + t.lineCount := by
  obtain ⟨e, before, after, hd, _, rfl, rfl, he, heq⟩ := h.rest
  rw [lineCount_back hd, heq hl]

/-- A line that ends within the text, or with it at the end of the document. -/
theorem line_eq {n : Nat} (hn : n < t.text.count Bytes.newline ∨
      start + t.length = d.length ∧ n < t.lineCount) :
    d.lineEnd (first + n : Nat) = start + t.lineEnd n ∧ d.line (first + n : Nat) = t.line n := by
  obtain ⟨e, before, after, hd, hb, rfl, rfl, he, heq⟩ := h.rest
  cases hn with
  | inl hn =>
    rw [lineEnd_back hd hb, line_back hd hb (lt_lineCount_of_front he (Nat.le_of_lt hn)),
      lineEnd_front he (List.append_nil t.text).symm hn,
      line_front he (List.append_nil t.text).symm hn]
    exact ⟨rfl, rfl⟩
  | inr hn =>
    obtain rfl := heq hn.1
    exact ⟨lineEnd_back hd hb n, line_back hd hb hn.2⟩

end Shows

/-- Two documents that look the same between two offsets. -/
structure SameBetween (d e : Document) (start stop : Nat) : Prop where
  uri : d.uri = e.uri
  stop_le : stop ≤ d.length ∧ stop ≤ e.length
  slice : ∀ {a b : Nat}, start ≤ a → a ≤ b → b ≤ stop → d.text.slice a b = e.text.slice a b
  lineAt : ∀ {o : Int}, start ≤ o → o ≤ stop → d.lineAt o = e.lineAt o
  positionAt : ∀ {o : Int}, start ≤ o → o ≤ stop → d.positionAt o = e.positionAt o

theorem SameBetween.range {d e : Document} {start stop : Nat} (h : d.SameBetween e start stop)
    {a b : Int} (ha : start ≤ a ∧ a ≤ stop) (hb : start ≤ b ∧ b ≤ stop) :
    d.range a b = e.range a b := by
  rw [Document.range, Document.range, h.positionAt ha.1 ha.2, h.positionAt hb.1 hb.2]

theorem SameBetween.mono {d e : Document} {a b start stop : Nat} (h : d.SameBetween e a b)
    (ha : a ≤ start) (hb : stop ≤ b) : d.SameBetween e start stop := by
  have hle := h.stop_le
  refine ⟨h.uri, by omega, fun hs hab ht => h.slice (by omega) hab (by omega), fun hs ht => ?_,
    fun hs ht => ?_⟩
  · exact h.lineAt (by omega) (by omega)
  · exact h.positionAt (by omega) (by omega)

theorem Shows.sameBetween {d e t : Document} {start first : Nat} (hu : d.uri = e.uri)
    (hd : d.Shows t start first) (he : e.Shows t start first) :
    d.SameBetween e start (start + t.length) := by
  have inside {o : Int} (ha : start ≤ o) (hb : o ≤ (start + t.length : Nat)) :
      ∃ k : Nat, o = (start + k : Nat) ∧ k ≤ t.length :=
    ⟨(o - start).toNat, by omega, by omega⟩
  refine ⟨hu, ⟨hd.length_le, he.length_le⟩, ?_, ?_, ?_⟩
  · intro a b ha hab hb
    obtain ⟨i, rfl⟩ := Nat.exists_eq_add_of_le ha
    obtain ⟨j, rfl⟩ := Nat.exists_eq_add_of_le (Nat.le_trans ha hab)
    rw [hd.slice (by omega), he.slice (by omega)]
  · intro o ha hb
    obtain ⟨k, rfl, hk⟩ := inside ha hb
    rw [hd.lineAt hk, he.lineAt hk]
  · intro o ha hb
    obtain ⟨k, rfl, hk⟩ := inside ha hb
    rw [hd.positionAt hk, he.positionAt hk]

end Document

end HostScript
