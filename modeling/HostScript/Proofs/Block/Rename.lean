import HostScript.Proofs.Block.Edits
import HostScript.Proofs.Document.RoundTrip

/-!
An edit within a line of a body. What stands behind a dot has no say in the role of a line, so such an
edit keeps all blocks as they are, but for the text of the one.
-/

set_option autoImplicit false

namespace HostScript

namespace Bytes

theorem exists_rawLines (bs : Bytes) : ∃ line rest, rawLines bs = line :: rest := by
  cases bs with
  | nil => exact ⟨[], [], rfl⟩
  | cons b bs =>
    unfold rawLines
    split
    · exact ⟨[b], rawLines bs, rfl⟩
    · cases rawLines bs with
      | nil => exact ⟨[b], [], rfl⟩
      | cons line rest => exact ⟨b :: line, rest, rfl⟩

theorem rawLines_append {as bs line : Bytes} {rest : List Bytes} (h : newline ∉ as)
    (hb : rawLines bs = line :: rest) : rawLines (as ++ bs) = (as ++ line) :: rest := by
  induction as with
  | nil => exact hb
  | cons a as ih =>
    simp only [List.mem_cons, not_or] at h
    simp [rawLines, ih h.2, Ne.symm h.1]

theorem dropEnd_append_cons {b c : UInt8} (h : c ≠ b) (as bs : Bytes) :
    dropEnd b (as ++ c :: bs) = as ++ c :: dropEnd b bs := by
  unfold dropEnd
  cases bs with
  | nil => simp [h]
  | cons d bs =>
    have hlast : (as ++ c :: d :: bs).getLast? = (d :: bs).getLast? := by simp [List.getLast?_cons]
    have hinit : (as ++ c :: d :: bs).dropLast = as ++ c :: (d :: bs).dropLast := by simp
    rw [hlast, hinit]
    split <;> rfl

theorem lineText_append_dot (as bs : Bytes) : lineText (as ++ dot :: bs) = as ++ dot :: lineText bs := by
  simp only [lineText, dropEnd_append_cons (show dot ≠ newline by decide),
    dropEnd_append_cons (show dot ≠ carriageReturn by decide)]

end Bytes

namespace Block

/-- What stands behind a dot has no say in whether a line begins or ends a block. -/
theorem senseOf_append_dot {as bs : Bytes} (h : senseOf (as ++ Bytes.dot :: bs) = .other) (bs' : Bytes) :
    senseOf (as ++ Bytes.dot :: bs') = .other := by
  rw [senseOf, lineRole_append Bytes.isBreak_dot] at h ⊢
  cases hr : lineRole as with
  | header kind fields => rw [hr] at h; cases h
  | terminator => rw [hr] at h; cases h
  | other => rfl

theorem Placed.shift_shift (m n : Nat) (p : Placed) : (p.shift n).shift m = p.shift (m + n) := by
  simp [Placed.shift, Nat.add_assoc]

theorem passAll_open (rest : List Bytes) : ∃ (more : Bytes) (terminated : Bool) (later : List Placed),
    ∀ (offset : Nat) (g : Begun), g.lines ≠ [] → passAll offset rest (some g)
      = ⟨g.start, g.header, g.lines.flatten ++ more, terminated⟩ :: later.map (·.shift offset) := by
  induction rest with
  | nil => exact ⟨[], false, [], fun offset g hg => by simp [passAll, pass, Begun.atEnd, hg]⟩
  | cons raw rest ih =>
    cases hs : senseOf raw.lineText with
    | header header =>
      refine ⟨[], false, passAll 0 (raw :: rest) none, fun offset g _ => ?_⟩
      rw [passAll_header hs, ← passAll_shift, List.append_nil]
      rfl
    | terminator =>
      refine ⟨[], true, (passAll 0 rest none).map (·.shift raw.length), fun offset g _ => ?_⟩
      rw [passAll_terminator hs, passAll_shift, List.map_map, List.append_nil]
      simp only [Function.comp_def, Placed.shift_shift]
      rfl
    | other =>
      obtain ⟨more, terminated, later, hall⟩ := ih
      refine ⟨raw ++ more, terminated, later.map (·.shift raw.length), fun offset g _ => ?_⟩
      rw [passAll_cons, passLine_other _ _ hs, Option.map_some, hall _ _ (by simp), List.map_map]
      simp [Function.comp_def, Placed.shift_shift]

section Edited

variable {d e : Document} {b : Block} {front back : Bytes}

theorem exists_open_of_dot (hb : b ∈ scan d) (hd : d.text = front ++ Bytes.dot :: back)
    (hlow : b.bodyStart ≤ front.length) (hhigh : front.length < b.bodyEnd) :
    ∃ h : OpenBlock, b.start = d.lineStart h.line ∧ b.bodyStart = d.lineStart (h.line + 1 : Nat) ∧
      d.OpenBefore (d.lineAt front.length) h ∧ lineRole (d.line (d.lineAt front.length)) = .other := by
  obtain ⟨_, h, rfl, he⟩ := exists_beginsAt hb
  obtain ⟨m, stop, terminated, ho, rfl, -⟩ := he.body
  obtain ⟨hline, hstart, -⟩ := d.lineAt_bounds front.length
  have hdot : d.text[front.length]? = some Bytes.dot := by simp [hd]
  have hlast : h.line + 1 < d.lineCount := by
    -- Behind the text of the last line there is at most a carriage return.
    by_contra hge
    simp only [close, hge, if_false] at hlow
    rw [d.lineEnd_nat, d.lineStop_of_last (by omega)] at hlow
    have hlen : front.length < d.length := by simp [Document.length, hd]
    split at hlow
    · rename_i hreturn
      rw [show d.length - 1 = front.length by omega, hdot] at hreturn
      exact absurd hreturn.2 (by decide)
    · omega
  have hbody : (close d h (d.lineStart m) stop terminated).bodyStart = d.lineStart (h.line + 1 : Nat) := by
    simp only [close, hlast, if_true]
    rfl
  have hafter : h.line < d.lineAt front.length := by
    by_contra hle
    have hnext := d.lineAt_bounds front.length
    have hmono := d.lineStart_mono (show d.lineAt front.length + 1 ≤ h.line + 1 by omega)
    have hlt := hnext.2.2 (by omega)
    omega
  have hbefore : d.lineAt front.length < m := by
    by_contra hle
    have hmono := d.lineStart_mono (show m ≤ d.lineAt front.length by omega)
    simp only [close] at hhigh
    omega
  exact ⟨h, rfl, hbody, ⟨ho.role, hafter, fun k hk hkn => ho.plain k hk (by omega)⟩,
    ho.plain _ hafter hbefore⟩

/-- The blocks of a text that is the same up to a dot, whose line belongs to the block that is open. -/
theorem scan_placed_dot {h : OpenBlock} {n : Nat} (hn : d.lineAt front.length = n)
    (hd : d.text = front ++ Bytes.dot :: back) (ho : d.OpenBefore n h) (hr : lineRole (d.line n) = .other)
    {word rest line : Bytes} {lines : List Bytes} (hw : Bytes.newline ∉ word)
    (hrest : rest.rawLines = line :: lines) (he : e.text = front ++ Bytes.dot :: (word ++ rest)) :
    (scan e).map (placed e) = (pass 0 (d.linesBefore n) none).1
      ++ passAll (d.lineStart n + (front.drop (d.lineStart n) ++ Bytes.dot :: (word ++ line)).length) lines
        (some { begunBefore d n h with
          lines := (begunBefore d n h).lines ++ [front.drop (d.lineStart n) ++ Bytes.dot :: (word ++ line)] }) := by
  obtain ⟨hline, hstart, -⟩ := d.lineAt_bounds front.length
  rw [hn] at hline hstart
  have htake : d.text.take (d.lineStart n) = front.take (d.lineStart n) := by
    rw [hd, List.take_append_of_le_length hstart]
  have hplain : Bytes.newline ∉ front.drop (d.lineStart n) := by
    have hcount := d.lineAt_eq_count front.length
    have hbefore := d.count_take_lineStart hline
    have hsplit := congrArg (List.count Bytes.newline) (List.take_append_drop (d.lineStart n) front)
    rw [hn, hd, List.take_left] at hcount
    rw [htake] at hbefore
    rw [List.count_append] at hsplit
    exact List.count_eq_zero.mp (by omega)
  have hraw {tail l : Bytes} {ls : List Bytes} (ht : tail.rawLines = l :: ls) :
      Bytes.rawLines (front.drop (d.lineStart n) ++ Bytes.dot :: tail)
        = (front.drop (d.lineStart n) ++ Bytes.dot :: l) :: ls := by
    have hdot : Bytes.newline ∉ front.drop (d.lineStart n) ++ [Bytes.dot] := by
      simp only [List.mem_append, List.mem_singleton, not_or]
      exact ⟨hplain, by decide⟩
    simpa using Bytes.rawLines_append hdot ht
  -- The line of the document is plain, so the line with another word is.
  have hsense : senseOf (Bytes.lineText (front.drop (d.lineStart n) ++ Bytes.dot :: (word ++ line))) = .other := by
    obtain ⟨l, ls, hback⟩ := Bytes.exists_rawLines back
    have hdrop := d.rawLines_drop_cons hline
    rw [hd, List.drop_append_of_le_length hstart, hraw hback] at hdrop
    have hthis := senseOf_rawLine hline hr
    rw [← (List.cons.inj hdrop).1, Bytes.lineText_append_dot] at hthis
    rw [Bytes.lineText_append_dot]
    exact senseOf_append_dot hthis _
  have he' : e.text = d.text.take (d.lineStart n) ++ (front.drop (d.lineStart n) ++ Bytes.dot :: (word ++ rest)) := by
    rw [he, htake, ← List.append_assoc, List.take_append_drop]
  rw [scan_placed_take hline he', hraw (Bytes.rawLines_append hw hrest), pass_openBefore ho (Nat.le_of_lt hline),
    passAll_cons, passLine_other _ _ hsense]
  rfl

theorem bodyStart_eq {n : Nat} (hb : b ∈ scan d) (hs : b.start = d.lineStart n) (hn : n + 1 < d.lineCount) :
    b.bodyStart = d.lineStart (n + 1 : Nat) := by
  obtain ⟨_, h, rfl, he⟩ := exists_beginsAt hb
  obtain ⟨hline, hstart, -⟩ := he.bounds
  obtain rfl : h.line = n := by
    rw [← d.lineAt_lineStart hline, ← hstart, hs, d.lineAt_lineStart (by omega)]
  rw [he.eq_close]
  simp only [close, hn, if_true]
  rfl

theorem bodyEnd_eq {start : Nat} {header : Header} {body : Bytes} {terminated : Bool} (hb : b ∈ scan d)
    (hp : placed d b = ⟨start, header, body, terminated⟩) : b.bodyEnd = b.bodyStart + body.length := by
  obtain ⟨_, h, rfl, he⟩ := exists_beginsAt hb
  obtain ⟨-, -, hle, hstop, -, hlen⟩ := he.bounds
  have hbody : d.text.slice b.bodyStart b.bodyEnd = body := congrArg (·.content.body) hp
  have hl := Bytes.length_slice d.text b.bodyStart (Nat.le_trans hstop hlen)
  rw [hbody] at hl
  omega

/-- Another word behind a dot within a body leaves all other blocks as they are. The block of the body
begins at the same place with the same header and ends alike. -/
theorem scan_renamed {old new rest : Bytes} (hb : b ∈ scan d)
    (hd : d.text = front ++ Bytes.dot :: (old ++ rest)) (he : e.text = front ++ Bytes.dot :: (new ++ rest))
    (hold : Bytes.newline ∉ old) (hnew : Bytes.newline ∉ new) (hlow : b.bodyStart ≤ front.length)
    (hhigh : front.length < b.bodyEnd) :
    ∃ pre post pre' t post', scan d = pre ++ b :: post ∧ scan e = pre' ++ t :: post' ∧
      pre'.map (content e) = pre.map (content d) ∧ post'.map (content e) = post.map (content d) ∧
      t.header = b.header ∧ t.terminated = b.terminated ∧ t.bodyStart = b.bodyStart ∧
      ∃ k, b.bodyEnd = front.length + 1 + old.length + k ∧ t.bodyEnd = front.length + 1 + new.length + k := by
  obtain ⟨h, hbstart, hbody, ho, hr⟩ := exists_open_of_dot hb hd hlow hhigh
  obtain ⟨line, lines, hrest⟩ := rest.exists_rawLines
  obtain ⟨more, terminated, later, hmore⟩ := passAll_open lines
  obtain ⟨hline, hstart, -⟩ := d.lineAt_bounds front.length
  generalize hn : d.lineAt front.length = n at ho hr hline hstart
  have hplaced := scan_placed_dot hn hd ho hr hold hrest hd
  have hplaced' := scan_placed_dot hn hd ho hr hnew hrest he
  rw [hmore _ _ (by simp)] at hplaced hplaced'
  obtain ⟨pre, s, post, pre', t, post', hscan, hs, hscan', ht, hpre, hpost⟩ :=
    exists_blocks_of_placed hplaced hplaced' (by simp [Function.comp_def, Placed.shift])
  obtain rfl : s = b := by
    refine eq_of_start_eq (by simp [hscan]) hb ?_
    rw [hbstart]
    exact congrArg Placed.start hs
  have hcount : front.count Bytes.newline = n := by rw [← hn, d.lineAt_eq_count, hd, List.take_left]
  have hbefore := ho.before
  have hlines : (begunBefore d n h).lines.flatten.length = d.lineStart n - s.bodyStart := by
    rw [begunBefore, d.flatten_rawLines, Bytes.length_slice _ _ (d.lineStart_le_length _), hbody,
      show h.line + 1 + (n - (h.line + 1)) = n by omega]
  have hstart' : t.bodyStart = s.bodyStart := by
    have hsame {k : Nat} (hk : k ≤ n) : d.lineStart k = e.lineStart k :=
      Document.lineStart_front hd he (by omega)
    have hnext := Document.lt_lineCount_of_front he (n := h.line + 1) (by omega)
    have htstart : t.start = e.lineStart h.line := by
      rw [← hsame (by omega)]
      exact congrArg Placed.start ht
    rw [hbody, hsame (by omega), bodyStart_eq (by simp [hscan']) htstart hnext]
  refine ⟨pre, post, pre', t, post', hscan, hscan', hpre, hpost, ?_, ?_, ?_, ?_⟩
  · exact (congrArg (·.content.header) ht).trans (congrArg (·.content.header) hs).symm
  · exact (congrArg (·.content.terminated) ht).trans (congrArg (·.content.terminated) hs).symm
  · exact hstart'
  · have hl := bodyEnd_eq hb hs
    have hl' := bodyEnd_eq (by simp [hscan']) ht
    have hmono := d.lineStart_mono (show h.line + 1 ≤ n by omega)
    simp only [List.flatten_append, List.flatten_cons, List.flatten_nil, List.append_nil, List.length_append,
      List.length_cons, List.length_drop, hlines] at hl hl'
    exact ⟨line.length + more.length, by omega, by omega⟩

end Edited

end Block

end HostScript
